/-!
# Binary fractions of 53 bits

The finite values of a 64-bit binary float without their sign: a mantissa below `2 ^ 53` times a
power of two not below `2 ^ (-1074)`. A ratio of natural numbers goes to the nearest of them, a tie
to the even mantissa, and to none when it lies beyond the largest.
-/

namespace LetterPages

structure Binary64 where
  mantissa : Nat
  exponent : Int
  deriving DecidableEq, Repr

namespace Binary64

def zero : Binary64 :=
  ⟨0, 0⟩

def power (base exponent : Nat) : Nat :=
  Nat.pow base exponent

def mantissaLimit : Nat :=
  power 2 53

/-- The quotient rounded to the nearest number, a tie to the even one. -/
def roundDiv (num den : Nat) : Nat :=
  let q := num / den
  let r := num % den
  if 2 * r < den then q
  else if 2 * r > den then q + 1
  else q + q % 2

/-- A ratio scaled down by a power of two, as numerator and denominator. -/
def scaled (num den : Nat) (exponent : Int) : Nat × Nat :=
  if exponent < 0 then (num * power 2 exponent.natAbs, den)
  else (num, den * power 2 exponent.natAbs)

/-- The exponent of the last place of a positive ratio. -/
def placeOf (num den : Nat) : Int :=
  let guess : Int := (num.log2 : Int) - (den.log2 : Int)
  let (n, d) := scaled num den guess
  let top : Int := if d ≤ n then guess else guess - 1
  max (top - 52) (-1074)

/-- The nearest value, if the ratio is not too large. -/
def ofRatio? (num den : Nat) : Option Binary64 :=
  if num = 0 then some zero
  else
    let place := placeOf num den
    let (n, d) := scaled num den place
    let m := roundDiv n d
    let (m, place) := if m = mantissaLimit then (mantissaLimit / 2, place + 1) else (m, place)
    if 971 < place then none else some ⟨m, place⟩

def ratio (x : Binary64) : Nat × Nat :=
  if x.exponent < 0 then (x.mantissa, power 2 x.exponent.natAbs)
  else (x.mantissa * power 2 x.exponent.natAbs, 1)

def ofPower? (exponent : Nat) : Option Binary64 :=
  ofRatio? (power 10 exponent) 1

def mul? (x y : Binary64) : Option Binary64 :=
  ofRatio? (x.ratio.1 * y.ratio.1) (x.ratio.2 * y.ratio.2)

def div? (x y : Binary64) : Option Binary64 :=
  ofRatio? (x.ratio.1 * y.ratio.2) (x.ratio.2 * y.ratio.1)

end Binary64

end LetterPages
