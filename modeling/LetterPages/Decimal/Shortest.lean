import LetterPages.Decimal.Binary64

/-!
# Shortest decimals

The decimal of a binary fraction is the one with the fewest digits that reads back as it, and of
those the nearest. The values that read back reach half way to each neighbour, and include the ends
when the mantissa is even.
-/

namespace LetterPages.Binary64

/-- A decimal: a number times a power of ten. -/
structure Decimal where
  digits : Nat
  exponent : Int
  deriving DecidableEq, Repr

def tenfold (exponent : Int) (num den : Nat) : Nat × Nat :=
  if exponent < 0 then (num, den * power 10 exponent.natAbs)
  else (num * power 10 exponent.natAbs, den)

/-- Where the decimal point of a positive ratio stands: the least `p` with the ratio below
`10 ^ p`. -/
def pointOf (num den : Nat) : Int :=
  if den ≤ num then ((Nat.toDigits 10 (num / den)).length : Int)
  else 1 - ((Nat.toDigits 10 ((den + num - 1) / num - 1)).length : Int)

/-- Whether a positive decimal reads back as `x`. Quarters of the last place are compared, since
the neighbour below a power of two is only half a place away. -/
def readsBack (x : Binary64) (d : Decimal) : Bool :=
  let low := if x.mantissa = mantissaLimit / 2 ∧ -1074 < x.exponent then 1 else 2
  let (unitNum, unitDen) := (⟨1, x.exponent - 2⟩ : Binary64).ratio
  let (num, den) := tenfold d.exponent d.digits 1
  let value := num * unitDen
  let floor := (4 * x.mantissa - low) * unitNum * den
  let ceiling := (4 * x.mantissa + 2) * unitNum * den
  if x.mantissa % 2 = 0 then decide (floor ≤ value) && decide (value ≤ ceiling)
  else decide (floor < value) && decide (value < ceiling)

/-- The two decimals next to `x` on the grid of a power of ten, the nearer one first. -/
def neighbours (x : Binary64) (exponent : Int) : List Decimal :=
  let (num, den) := tenfold (-exponent) x.ratio.1 x.ratio.2
  let q := num / den
  let r := num % den
  if 2 * r < den ∨ 2 * r = den ∧ q % 2 = 0 then [⟨q, exponent⟩, ⟨q + 1, exponent⟩]
  else [⟨q + 1, exponent⟩, ⟨q, exponent⟩]

def stripZeros (fuel : Nat) (d : Decimal) : Decimal :=
  match fuel with
  | 0 => d
  | fuel + 1 =>
    if d.digits ≠ 0 ∧ d.digits % 10 = 0 then stripZeros fuel ⟨d.digits / 10, d.exponent + 1⟩ else d

/-- The shortest decimal of `x`; seventeen digits are always enough. -/
def shortest (x : Binary64) : Decimal :=
  if x.mantissa = 0 then ⟨0, 0⟩
  else
    let point := pointOf x.ratio.1 x.ratio.2
    let grids := (List.range 17).map fun (n : Nat) => point - (n : Int) - 1
    match (grids.flatMap (neighbours x)).find? (readsBack x) with
    | some d => stripZeros 20 d
    | none => ⟨0, 0⟩

/-- The text of a value: positional with the point from four places before the digits to the
sixteenth digit, and with a signed exponent otherwise. -/
def text (x : Binary64) : List Char :=
  let d := x.shortest
  let digits := Nat.toDigits 10 d.digits
  let point := (digits.length : Int) + d.exponent
  if d.digits = 0 then ['0', '.', '0']
  else if 0 ≤ d.exponent ∧ point ≤ 16 then
    digits ++ List.replicate d.exponent.natAbs '0' ++ ['.', '0']
  else if 0 < point ∧ point ≤ 16 then
    digits.take point.natAbs ++ '.' :: digits.drop point.natAbs
  else if -5 < point ∧ point ≤ 0 then
    ['0', '.'] ++ List.replicate point.natAbs '0' ++ digits
  else
    let sign := if 0 < point then ['+'] else ['-']
    let exponent := 'e' :: sign ++ Nat.toDigits 10 (point - 1).natAbs
    match digits with
    | [digit] => digit :: exponent
    | digit :: more => digit :: '.' :: more ++ exponent
    | [] => exponent

end LetterPages.Binary64
