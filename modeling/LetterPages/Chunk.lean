import LetterPages.Check
import LetterPages.Metadata
import LetterPages.Record

/-!
# Chunks

The records of a dataset are cut, in order, into chunks of one size; the last chunk holds what is
left over, and no records give no chunk. Each chunk has a file name that begins with its index.
-/

namespace LetterPages

structure Chunk where
  index : Nat
  records : List Record
  deriving DecidableEq, Repr

namespace Chunk

/-- An index in decimal, with at least two digits. -/
def label (index : Nat) : String :=
  if index < 10 then "0" ++ toString index else toString index

def nameOf (index : Nat) : String :=
  "letters-chunk-" ++ label index ++ ".json"

def fileName (c : Chunk) : String :=
  nameOf c.index

def size (c : Chunk) : Nat :=
  c.records.length

def isEmpty (c : Chunk) : Bool :=
  c.records.isEmpty

/-- Successive stretches of `more + 1` items, the last one possibly shorter. -/
def stretches {α : Type} (more : Nat) : List α → List (List α)
  | [] => []
  | a :: l => (a :: l.take more) :: stretches more (l.drop more)
termination_by l => l.length
decreasing_by
  simp only [List.length_drop, List.length_cons]
  omega

def ofRecords (records : List Record) (size : Nat) : Except Fault (List Chunk) := do
  Check.atLeast "chunk_size" size 1
  return (stretches (size - 1) records).mapIdx Chunk.mk

end Chunk

/-- A dataset cut into chunks, with the metadata to publish beside them. -/
structure Plan where
  chunks : List Chunk
  metadata : Metadata
  deriving DecidableEq, Repr

namespace Plan

/-- The plan for a dataset. Without records there are no fields to describe. -/
def ofDataset (data : Dataset) (size : UInt64) : Except Fault Plan := do
  let chunks ← Chunk.ofRecords data.records size.toNat
  return {
    chunks := chunks
    metadata := {
      totalLetters := UInt64.ofNat data.records.length
      chunks := UInt64.ofNat chunks.length
      chunkSize := size
      fields := if data.records.isEmpty then [] else data.fields } }

end Plan

end LetterPages
