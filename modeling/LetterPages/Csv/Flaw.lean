/-!
# Flaws of a CSV input

A flaw belongs to one row. Its place is the end of the row before: the row's number from the
header as 0, the line there, and the bytes consumed up to there.
-/

namespace LetterPages.Csv

structure Place where
  row : Nat
  line : Nat
  byte : Nat
  deriving DecidableEq, Repr

inductive Flaw where
  | ragged (place : Place) (found expected : Nat)
  | notUtf8 (place : Place) (field index : Nat)
  | unreadable (text : String)
  deriving DecidableEq, Repr

namespace Flaw

def line? : Flaw → Option Nat
  | ragged place _ _ => some place.line
  | notUtf8 place _ _ => some place.line
  | unreadable _ => none

def message : Flaw → String
  | ragged place found expected =>
    s!"CSV error: record {place.row} (line: {place.line}, byte: {place.byte}): " ++
      s!"found record with {found} fields, but the previous record has {expected} fields"
  | notUtf8 place field index =>
    s!"CSV parse error: record {place.row} (line {place.line}, field: {field}, " ++
      s!"byte: {place.byte}): invalid utf-8: invalid UTF-8 in field {field} near byte index {index}"
  | unreadable text => text

end Flaw

end LetterPages.Csv
