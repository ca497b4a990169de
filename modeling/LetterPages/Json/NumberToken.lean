import LetterPages.Json.Reader

/-!
# Reading JSON numbers

Digits are gathered into a 64-bit word while they fit. A number without fraction and exponent that
fits a word is whole; every other one is a fraction, rounded once for its word and once for its
power of ten.
-/

namespace LetterPages.Json

def digit? (b : UInt8) : Option Nat :=
  if 0x30 ≤ b ∧ b ≤ 0x39 then some (b.toNat - 0x30) else none

def isDigit (b : UInt8) : Bool :=
  (digit? b).isSome

def startsWithDigit (s : Bytes) : Bool :=
  s.head?.any isDigit

def digitRun (s : Bytes) : List Nat :=
  (s.takeWhile isDigit).filterMap digit?

def skipDigits (s : Bytes) : Bytes :=
  s.dropWhile isDigit

theorem length_skipDigits_le (s : Bytes) : (skipDigits s).length ≤ s.length :=
  (List.dropWhile_sublist _).length_le

/-- Digits taken into a 64-bit word while they fit, and how many are left out. -/
def gather (word : Nat) : List Nat → Nat × Nat
  | [] => (word, 0)
  | d :: ds =>
    if word * 10 + d < UInt64.size then gather (word * 10 + d) ds else (word, ds.length + 1)

/-- The largest exponent whose power of ten is still a value. -/
def reach : Nat :=
  308

/-- A value divided again and again, until nothing is left of it. -/
def lowered? (power : Binary64) : Nat → Binary64 → Option Binary64
  | 0, x => some x
  | times + 1, x =>
    if x = .zero then some x
    else match x.div? power with
      | none => none
      | some y => lowered? power times y

/-- A value times a power of ten, each step rounded. An exponent below the reach is taken in steps
of the whole reach and one of what remains. -/
def scale? (x : Binary64) (exponent : Int) : Option Binary64 := do
  if x = .zero then return x
  if (reach : Int) < exponent then none
  else if 0 ≤ exponent then x.mul? (← Binary64.ofPower? exponent.natAbs)
  else
    let steps := (exponent.natAbs - 1) / reach
    let y ← lowered? (← Binary64.ofPower? reach) steps x
    y.div? (← Binary64.ofPower? (exponent.natAbs - reach * steps))

/-- The fraction for a word and a power of ten; beyond the largest it is refused. -/
def fraction (isNegative : Bool) (word : Nat) (exponent : Int) : Except Problem Number :=
  match Binary64.ofRatio? word 1 with
  | none => .error .malformed
  | some x =>
    match scale? x exponent with
    | none => .error .malformed
    | some y => .ok (.fraction isNegative y)

/-- The digits of an exponent. One that does not fit a 32-bit word makes zero, or is refused. -/
def exponentDigits (isNegative : Bool) (word : Nat) (start : Int) (downward : Bool) (s : Bytes) :
    Except Problem (Number × Bytes) :=
  match s with
  | [] => .error .unfinished
  | b :: _ =>
    if !isDigit b then .error .malformed
    else
      let value : Nat := (digitRun s).foldl (fun n d => n * 10 + d) 0
      if 2147483648 ≤ value then
        if word ≠ 0 ∧ downward = false then .error .malformed
        else .ok (.fraction isNegative .zero, skipDigits s)
      else
        let exponent := if downward then start - (value : Int) else start + (value : Int)
        match fraction isNegative word exponent with
        | .error p => .error p
        | .ok n => .ok (n, skipDigits s)

/-- An exponent, its letter already read. -/
def exponentPart (isNegative : Bool) (word : Nat) (start : Int) (s : Bytes) :
    Except Problem (Number × Bytes) :=
  match s with
  | 0x2B :: r => exponentDigits isNegative word start false r
  | 0x2D :: r => exponentDigits isNegative word start true r
  | r => exponentDigits isNegative word start false r

def isExponentLetter (b : UInt8) : Bool :=
  b == 0x65 || b == 0x45

/-- The number that ends here or goes on with an exponent. -/
def fractionOrExponent (isNegative : Bool) (word : Nat) (exponent : Int) (s : Bytes) :
    Except Problem (Number × Bytes) :=
  let finish := match fraction isNegative word exponent with
    | .error p => Except.error p
    | .ok n => .ok (n, s)
  match s with
  | [] => finish
  | b :: r => if isExponentLetter b then exponentPart isNegative word exponent r else finish

def fractionPart (isNegative : Bool) (word : Nat) (exponent : Int) (s : Bytes) :
    Except Problem (Number × Bytes) :=
  match s with
  | [] => .error .unfinished
  | b :: _ =>
    if !isDigit b then .error .malformed
    else
      let (word', left) := gather word (digitRun s)
      let kept : Int := ((digitRun s).length - left : Nat)
      fractionOrExponent isNegative word' (exponent - kept) (skipDigits s)

/-- A whole number as a value: a negative one goes to 64 bits with sign, and to a fraction when it
does not fit, as does the negative zero. -/
def whole (isNegative : Bool) (word : Nat) : Except Problem Number :=
  if isNegative = false then .ok (.natural (UInt64.ofNat word))
  else if word = 0 ∨ 9223372036854775808 < word then fraction true word 0
  else .ok (.negative (-(word : Int)))

/-- What follows the whole digits of a number. -/
def afterWhole (isNegative : Bool) (word left : Nat) (s : Bytes) :
    Except Problem (Number × Bytes) :=
  let finish :=
    match if left = 0 then whole isNegative word else fraction isNegative word left with
    | .error p => Except.error p
    | .ok n => .ok (n, s)
  match s with
  | [] => finish
  | b :: r =>
    if b = 0x2E then fractionPart isNegative word left r
    else if isExponentLetter b then exponentPart isNegative word left r
    else finish

def unsigned (isNegative : Bool) (s : Bytes) : Except Problem (Number × Bytes) :=
  match s with
  | [] => .error .unfinished
  | b :: r =>
    if !isDigit b then .error .malformed
    else if b = 0x30 then
      if startsWithDigit r then .error .malformed else afterWhole isNegative 0 0 r
    else
      let (word, left) := gather 0 (digitRun (b :: r))
      afterWhole isNegative word left (skipDigits r)

theorem length_le_of_exponentDigits {isNegative downward : Bool} {word : Nat} {start : Int}
    {s rest : Bytes} {n : Number}
    (h : exponentDigits isNegative word start downward s = .ok (n, rest)) :
    rest.length ≤ s.length := by
  unfold exponentDigits at h
  split at h
  · cases h
  · rename_i b tail
    have hle := length_skipDigits_le (b :: tail)
    split at h
    · cases h
    · dsimp only at h
      split at h
      · split at h
        · cases h
        · cases h
          exact hle
      · split at h
        · cases h
        · cases h
          exact hle

theorem length_le_of_exponentPart {isNegative : Bool} {word : Nat} {start : Int} {s rest : Bytes}
    {n : Number} (h : exponentPart isNegative word start s = .ok (n, rest)) :
    rest.length ≤ s.length := by
  unfold exponentPart at h
  split at h
  · exact Nat.le_trans (length_le_of_exponentDigits h) (by simp)
  · exact Nat.le_trans (length_le_of_exponentDigits h) (by simp)
  · exact length_le_of_exponentDigits h

theorem length_le_of_finish {r : Except Problem Number} {s rest : Bytes} {n : Number}
    (h : (match r with
      | .error p => Except.error p
      | .ok m => Except.ok (m, s)) = (Except.ok (n, rest) : Except Problem (Number × Bytes))) :
    rest.length ≤ s.length := by
  split at h
  · cases h
  · cases h
    exact Nat.le_refl _

theorem length_le_of_fractionOrExponent {isNegative : Bool} {word : Nat} {exponent : Int}
    {s rest : Bytes} {n : Number}
    (h : fractionOrExponent isNegative word exponent s = .ok (n, rest)) :
    rest.length ≤ s.length := by
  unfold fractionOrExponent at h
  dsimp only at h
  split at h
  · exact length_le_of_finish h
  · split at h
    · exact Nat.le_trans (length_le_of_exponentPart h) (by simp)
    · exact length_le_of_finish h

theorem length_le_of_fractionPart {isNegative : Bool} {word : Nat} {exponent : Int}
    {s rest : Bytes} {n : Number} (h : fractionPart isNegative word exponent s = .ok (n, rest)) :
    rest.length ≤ s.length := by
  unfold fractionPart at h
  split at h
  · cases h
  · rename_i b tail
    split at h
    · cases h
    · exact Nat.le_trans (length_le_of_fractionOrExponent h) (length_skipDigits_le (b :: tail))

theorem length_le_of_afterWhole {isNegative : Bool} {word left : Nat} {s rest : Bytes}
    {n : Number} (h : afterWhole isNegative word left s = .ok (n, rest)) :
    rest.length ≤ s.length := by
  unfold afterWhole at h
  dsimp only at h
  split at h
  · exact length_le_of_finish h
  · split at h
    · exact Nat.le_trans (length_le_of_fractionPart h) (by simp)
    · split at h
      · exact Nat.le_trans (length_le_of_exponentPart h) (by simp)
      · exact length_le_of_finish h

theorem length_lt_of_unsigned {isNegative : Bool} {s rest : Bytes} {n : Number}
    (h : unsigned isNegative s = .ok (n, rest)) : rest.length < s.length := by
  unfold unsigned at h
  split at h
  · cases h
  · rename_i b tail
    split at h
    · cases h
    · split at h
      · split at h
        · cases h
        · have := length_le_of_afterWhole h
          simp only [List.length_cons]
          omega
      · have h₁ := length_le_of_afterWhole h
        have h₂ := length_skipDigits_le tail
        simp only [List.length_cons]
        omega

end LetterPages.Json
