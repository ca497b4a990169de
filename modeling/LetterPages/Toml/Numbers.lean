import LetterPages.Decimal.Binary64
import LetterPages.Toml.Strings

/-!
# TOML numbers

Underscores may stand between digits. A whole number is decimal with an optional sign and no leading
zero, or hexadecimal, octal or binary after its mark; its digits are read only when its value is
wanted, and only then does a word such as `0x` or `1_f` turn out to have none. Of a fraction it only
matters whether it lies within the range of 64-bit binary floats.
-/

namespace LetterPages.Toml

def digitBelow? (radix : Nat) (c : Char) : Option Nat :=
  (hexValue? c).filter (· < radix)

def isDigitBelow (radix : Nat) (c : Char) : Bool :=
  (digitBelow? radix c).isSome

def digitsIn (radix : Nat) (s : List Char) : List Nat :=
  s.filterMap (digitBelow? radix)

def ofDigits (radix : Nat) (ds : List Nat) : Nat :=
  ds.foldl (fun n d => n * radix + d) 0

/-! ## Underscores -/

/-- The parts of a word between its underscores. -/
def parts : List Char → List (List Char)
  | [] => [[]]
  | c :: r =>
    if c = '_' then [] :: parts r
    else match parts r with
      | [] => [[c]]
      | part :: rest => (c :: part) :: rest

/-- Whether every underscore between parts stands between digits. -/
def areJoined (isDigit : Char → Bool) : List (List Char) → Bool
  | a :: b :: rest =>
    a.getLast?.any isDigit && b.head?.any isDigit && areJoined isDigit (b :: rest)
  | _ => true

def withoutUnderscores (s : List Char) : List Char :=
  s.filter (· ≠ '_')

/-! ## Whole numbers -/

/-- The value of digits, if there are any and no other character is among them. -/
def natural? (radix : Nat) (s : List Char) : Option Nat :=
  if s = [] then none else (s.mapM (digitBelow? radix)).map (ofDigits radix)

/-- The value of decimal digits after an optional sign. -/
def signed? (s : List Char) : Option Int :=
  match s with
  | '+' :: r => (natural? 10 r).map fun n => (n : Int)
  | '-' :: r => (natural? 10 r).map fun n => -(n : Int)
  | r => (natural? 10 r).map fun n => (n : Int)

/-- A decimal whole number. The outer option tells whether the word is one, the inner one is its
value. -/
def decimal? (w : List Char) : Option (Option Int) :=
  if areJoined (isDigitBelow 16) (parts w) then some (signed? (withoutUnderscores w)) else none

/-- What follows the mark of a radix, in the same way. -/
def marked? (radix : Nat) (s : List Char) : Option (Option Int) :=
  if s.all (fun c => c == '_' || isDigitBelow radix c) && areJoined (isDigitBelow radix) (parts s)
  then some ((natural? radix (withoutUnderscores s)).map fun n => (n : Int))
  else none

/-! ## Fractions -/

/-- Whether digits times a power of ten round to a finite value. -/
def isWithinRange (ds : List Nat) (exponent : Int) : Bool :=
  let n := ofDigits 10 ds
  if n = 0 then true
  else if 0 ≤ exponent then
    exponent ≤ 308 && (Binary64.ofRatio? (n * Binary64.power 10 exponent.natAbs) 1).isSome
  else if ds.length ≤ exponent.natAbs then true
  else (Binary64.ofRatio? n (Binary64.power 10 exponent.natAbs)).isSome

def isDigitOrUnderscore (c : Char) : Bool :=
  c == '_' || isDigitBelow 10 c

/-- The digits at the front and what follows them. There must be one. -/
def digitSpan? (s : List Char) : Option (List Nat × List Char) :=
  match digitsIn 10 (s.takeWhile isDigitOrUnderscore) with
  | [] => none
  | d :: ds => some (d :: ds, s.dropWhile isDigitOrUnderscore)

def exponent? (s : List Char) : Option Int :=
  match s with
  | '-' :: r => match digitSpan? r with
    | some (ds, []) => some (-(ofDigits 10 ds : Int))
    | _ => none
  | '+' :: r => match digitSpan? r with
    | some (ds, []) => some (ofDigits 10 ds : Int)
    | _ => none
  | r => match digitSpan? r with
    | some (ds, []) => some (ofDigits 10 ds : Int)
    | _ => none

/-- The exponent that ends a fraction; none is an exponent of zero. -/
def exponentPart? (s : List Char) : Option Int :=
  match s with
  | [] => some 0
  | 'e' :: r => exponent? r
  | 'E' :: r => exponent? r
  | _ => none

/-- Whether a fraction without its sign is within range. More than one digit before the point must
not begin with zero. -/
def unsignedFraction? (s : List Char) : Option Bool := do
  let (whole, r) ← digitSpan? s
  if s.head? = some '0' ∧ 1 < whole.length then none
  match r with
  | '.' :: r =>
    let (part, r) ← digitSpan? r
    let e ← exponentPart? r
    some (isWithinRange (whole ++ part) (e - part.length))
  | r => (exponentPart? r).map (isWithinRange whole)

/-- Whether the fraction that the word `w` spells is within range, `s` being the word without its
sign. -/
def fraction? (w s : List Char) : Option Bool :=
  if areJoined (isDigitBelow 10) (parts w) then unsignedFraction? s else none

end LetterPages.Toml
