import LetterPages.Csv.Flaw
import LetterPages.Text.Utf8

/-!
# Rows of a CSV text

The bytes are read one at a time. Commas part fields, a carriage return or a line feed ends a row,
and terminators between rows are passed over. A quote opens a quoted field only as its first byte;
inside, a doubled quote stands for one, and what follows the closing quote belongs to the field as
written. The end of the input ends an open row. A byte order mark at the very start is dropped.
-/

namespace LetterPages.Csv

/-- A row as it stands in the bytes, with the place where the row before it ended. -/
structure Row where
  place : Place
  fields : List Bytes
  deriving DecidableEq, Repr

inductive Mode where
  | between
  | fieldStart
  | bare
  | quoted
  | quoteSeen
  deriving DecidableEq, Repr

/-- What one byte means: nothing for the field, one more byte of it, its end, or the row's end. -/
inductive Move where
  | pass (next : Mode)
  | take (next : Mode)
  | endField
  | endRow
  deriving DecidableEq, Repr

def quote : UInt8 := 0x22

def comma : UInt8 := 0x2C

def lineFeed : UInt8 := 0x0A

def carriageReturn : UInt8 := 0x0D

def isTerminator (b : UInt8) : Bool :=
  b == lineFeed || b == carriageReturn

/-- A byte outside quotes that is not the first of its field. -/
def Move.plain (b : UInt8) : Move :=
  if b = comma then .endField
  else if isTerminator b then .endRow
  else .take .bare

def Mode.move (m : Mode) (b : UInt8) : Move :=
  match m with
  | between =>
    if isTerminator b then .pass .between
    else if b = quote then .pass .quoted
    else .plain b
  | fieldStart => if b = quote then .pass .quoted else .plain b
  | bare => .plain b
  | quoted => if b = quote then .pass .quoteSeen else .take .quoted
  | quoteSeen => if b = quote then .take .quoted else .plain b

/-- Where the reading stands. The open field and the finished fields of the open row are kept in
reverse; `line` and `byte` count what has been consumed. -/
structure Scan where
  mode : Mode
  field : Bytes
  fields : List Bytes
  place : Place
  line : Nat
  byte : Nat
  deriving DecidableEq, Repr

namespace Scan

def start (skipped : Nat) : Scan :=
  { mode := .between, field := [], fields := [], place := ⟨0, 1, 0⟩, line := 1, byte := skipped }

def row (s : Scan) : Row :=
  ⟨s.place, (s.field.reverse :: s.fields).reverse⟩

def lineAfter (s : Scan) (b : UInt8) : Nat :=
  if b = lineFeed then s.line + 1 else s.line

def next (s : Scan) (b : UInt8) : Scan :=
  match s.mode.move b with
  | .pass m => { s with mode := m, line := s.lineAfter b, byte := s.byte + 1 }
  | .take m =>
    { s with
      mode := m, field := b :: s.field
      line := s.lineAfter b, byte := s.byte + 1 }
  | .endField =>
    { s with
      mode := .fieldStart, field := [], fields := s.field.reverse :: s.fields
      line := s.lineAfter b, byte := s.byte + 1 }
  | .endRow =>
    { mode := .between, field := [], fields := []
      place := ⟨s.place.row + 1, s.lineAfter b, s.byte + 1⟩
      line := s.lineAfter b, byte := s.byte + 1 }

def endsRow (s : Scan) (b : UInt8) : Bool :=
  s.mode.move b == .endRow

/-- The rows still to come. -/
def rows (s : Scan) : Bytes → List Row
  | [] => if s.mode = .between then [] else [s.row]
  | b :: rest => if s.endsRow b then s.row :: rows (s.next b) rest else rows (s.next b) rest

end Scan

/-- The rows of a CSV text, the header first. -/
def rows (input : Bytes) : List Row :=
  match input with
  | 0xEF :: 0xBB :: 0xBF :: rest => (Scan.start 3).rows rest
  | _ => (Scan.start 0).rows input

end LetterPages.Csv
