import LetterPages.Csv.Row
import LetterPages.Record

/-!
# Datasets from CSV

The first row names the columns and every later row is a record. Rows are checked in order: a row
must be as wide as the header, and then each of its fields must be UTF-8 by itself. A repeated
column name keeps its first position and takes the value of its last column.
-/

namespace LetterPages.Csv

def decodeFrom (place : Place) (index : Nat) : List Bytes → Except Flaw (List String)
  | [] => .ok []
  | field :: rest =>
    match Utf8.decode? field with
    | none => .error (.notUtf8 place index (Utf8.validLength field))
    | some text => do
      let texts ← decodeFrom place (index + 1) rest
      return String.ofList text :: texts

def Row.decode (row : Row) : Except Flaw (List String) :=
  decodeFrom row.place 0 row.fields

/-- The texts of a row that must have `width` fields. -/
def Row.read (width : Nat) (row : Row) : Except Flaw (List String) :=
  if row.fields.length = width then row.decode
  else .error (.ragged row.place row.fields.length width)

def readAll (width : Nat) : List Row → Except Flaw (List (List String))
  | [] => .ok []
  | row :: rest => do
    let texts ← row.read width
    let more ← readAll width rest
    return texts :: more

/-- The column names as written. An input without rows has none. -/
def header : List Row → Except Flaw (List String)
  | [] => .ok []
  | row :: _ => row.decode

/-- A list without its repetitions; each item stays where it first stands. -/
def distinct : List String → List String
  | [] => []
  | name :: rest => name :: (distinct rest).filter (· ≠ name)

def hasRepeats (names : List String) : Bool :=
  (distinct names).length < names.length

def lastValue (name : String) (cells : List (String × String)) : String :=
  (cells.reverse.lookup name).getD ""

def record (names values : List String) : Record :=
  ⟨(distinct names).map fun name => (name, lastValue name (names.zip values))⟩

/-- The dataset below a header that has been read. -/
def dataset (names : List String) (rows : List Row) : Except Flaw Dataset := do
  let values ← readAll names.length rows.tail
  return { fields := distinct names, records := values.map (record names) }

def read (input : Bytes) : Except Flaw Dataset := do
  let names ← header (rows input)
  dataset names (rows input)

end LetterPages.Csv
