import LetterPages.Decimal.Shortest
import LetterPages.Text.Quoted

/-!
# Problems of a JSON text

A text is refused at the first problem in reading order: a byte that cannot stand where it stands,
an end that comes too early, or a value of the wrong kind.
-/

namespace LetterPages.Json

/-- A number as read: a natural number, a negative one, or a fraction with its sign. -/
inductive Number where
  | natural (n : UInt64)
  | negative (n : Int)
  | fraction (isNegative : Bool) (x : Binary64)
  deriving DecidableEq, Repr

/-- A value that was found where another was wanted. -/
inductive Found where
  | null
  | boolean (b : Bool)
  | number (n : Number)
  | string (text : String)
  | sequence
  | map
  deriving DecidableEq, Repr

inductive Wanted where
  | sequence
  | record
  | string
  | size
  | metadata
  deriving DecidableEq, Repr

inductive Problem where
  | malformed
  | unfinished
  | mismatch (found : Found) (wanted : Wanted)
  | negativeSize (n : Int)
  | tooShort (length : Nat)
  | missing (field : String)
  | repeated (field : String)
  deriving DecidableEq, Repr

def Number.describe : Number → String
  | natural n => s!"integer `{n.toNat}`"
  | negative n => s!"integer `{n}`"
  | fraction isNegative x =>
    "floating point `" ++ (if isNegative then "-" else "") ++ String.ofList x.text ++ "`"

def Found.describe : Found → String
  | null => "null"
  | boolean b => "boolean `" ++ (if b then "true" else "false") ++ "`"
  | number n => n.describe
  | string text => "string " ++ Text.quoted text
  | sequence => "sequence"
  | map => "map"

def Wanted.describe : Wanted → String
  | sequence => "a sequence"
  | record => "an object of string fields"
  | string => "a string"
  | size => "usize"
  | metadata => "struct Metadata"

/-- The wording of a value of the wrong kind. The other problems have no wording of their own. -/
def Problem.message? : Problem → Option String
  | malformed => none
  | unfinished => none
  | mismatch found wanted =>
    some ("invalid type: " ++ found.describe ++ ", expected " ++ wanted.describe)
  | negativeSize n => some s!"invalid value: integer `{n}`, expected usize"
  | tooShort length => some s!"invalid length {length}, expected struct Metadata with 4 elements"
  | missing field => some ("missing field `" ++ field ++ "`")
  | repeated field => some ("duplicate field `" ++ field ++ "`")

end LetterPages.Json
