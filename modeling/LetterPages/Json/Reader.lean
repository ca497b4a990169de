import LetterPages.Json.Problem

/-!
# Reading JSON values

A reader takes one value from the front of a byte string and leaves the rest, which is shorter.
Blanks are skipped before every token.
-/

namespace LetterPages.Json

structure Reader (α : Type) where
  run : Bytes → Except Problem (α × Bytes)
  consumes : ∀ {s : Bytes} {a : α} {rest : Bytes}, run s = .ok (a, rest) → rest.length < s.length

def isBlank (b : UInt8) : Bool :=
  b == 0x20 || b == 0x0A || b == 0x09 || b == 0x0D

def skipBlanks (s : Bytes) : Bytes :=
  s.dropWhile isBlank

theorem length_skipBlanks_le (s : Bytes) : (skipBlanks s).length ≤ s.length :=
  (List.dropWhile_sublist _).length_le

theorem length_lt_of_skipBlanks {s rest : Bytes} {b : UInt8} (h : skipBlanks s = b :: rest) :
    rest.length < s.length := by
  have hle := length_skipBlanks_le s
  rw [h] at hle
  simp only [List.length_cons] at hle
  omega

/-- What follows the remaining letters of a word. -/
def word : Bytes → Bytes → Except Problem Bytes
  | [], s => .ok s
  | _ :: _, [] => .error .unfinished
  | letter :: letters, b :: s => if b = letter then word letters s else .error .malformed

def letters (w : String) : Bytes :=
  Utf8.ofString w

end LetterPages.Json
