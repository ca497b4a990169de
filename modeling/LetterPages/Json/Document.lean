import LetterPages.Chunk
import LetterPages.Json.Layout
import LetterPages.Text.Utf8

/-!
# The JSON documents

A record is an object of strings in column order. A chunk file is the compact array of its
records. The metadata is one object, compact or spaced; its file is spaced.
-/

namespace LetterPages

def Record.json (layout : Json.Layout) (r : Record) : List Char :=
  layout.object (r.fields.map fun f => (f.1, Json.quoted f.2.toList))

def Chunk.json (c : Chunk) : List Char :=
  Json.Layout.compact.array (c.records.map (Record.json .compact))

def Chunk.encode (c : Chunk) : Bytes :=
  Utf8.encode c.json

def Json.numeral (n : UInt64) : List Char :=
  (toString n.toNat).toList

def Metadata.json (layout : Json.Layout) (m : Metadata) : List Char :=
  layout.object [
    ("total_letters", Json.numeral m.totalLetters),
    ("chunks", Json.numeral m.chunks),
    ("chunk_size", Json.numeral m.chunkSize),
    ("fields", layout.strings m.fields)]

def Metadata.encode (m : Metadata) : Bytes :=
  Utf8.encode (m.json .spaced)

end LetterPages
