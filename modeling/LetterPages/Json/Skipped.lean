import LetterPages.Json.Value

/-!
# Skipping JSON values

A value that nobody wants is passed over. Its strings and numbers are only outlined: bytes that are
not UTF-8, lone surrogates and numbers of any size pass, and a number cut off by the end of the
text is malformed. The open arrays and objects are kept on a stack.
-/

namespace LetterPages.Json

def skippedEscape : Bytes → Except Problem Bytes
  | [] => .error .unfinished
  | b :: s =>
    if b = 0x75 then (hexUnit s).map Prod.snd
    else if (simpleEscape? b).isSome then .ok s
    else .error .malformed

theorem length_lt_of_skippedEscape {s rest : Bytes} (h : skippedEscape s = .ok rest) :
    rest.length < s.length := by
  unfold skippedEscape at h
  split at h
  · cases h
  · rename_i b tail
    split at h
    · cases hunit : hexUnit tail with
      | error p =>
        rw [hunit] at h
        cases h
      | ok v =>
        obtain ⟨n, r⟩ := v
        rw [hunit] at h
        cases h
        have := length_lt_of_hexUnit hunit
        simp only [List.length_cons]
        omega
    · split at h
      · cases h
        simp
      · cases h

/-- What follows a string whose opening quote has been read. -/
def skippedString (s : Bytes) : Except Problem Bytes :=
  match s with
  | [] => .error .unfinished
  | b :: r =>
    if b = 0x22 then .ok r
    else if b = 0x5C then
      match _h : skippedEscape r with
      | .error p => .error p
      | .ok r => skippedString r
    else if b < 0x20 then .error .malformed
    else skippedString r
termination_by s.length
decreasing_by
  · have := length_lt_of_skippedEscape (by assumption)
    simp only [List.length_cons]
    omega
  · simp only [List.length_cons]
    omega

theorem length_lt_of_skippedString {s rest : Bytes} (h : skippedString s = .ok rest) :
    rest.length < s.length := by
  fun_induction skippedString s generalizing rest with
  | case1 => cases h
  | case2 => cases h; simp
  | case3 => cases h
  | case4 r r' hesc _ ih =>
    have h₁ := length_lt_of_skippedEscape hesc
    have h₂ := ih h
    simp only [List.length_cons]
    omega
  | case5 => cases h
  | case6 b r _ _ _ ih =>
    have h₂ := ih h
    simp only [List.length_cons]
    omega

def skippedSign (s : Bytes) : Bytes :=
  match s with
  | 0x2B :: r => r
  | 0x2D :: r => r
  | r => r

def skippedExponent (s : Bytes) : Except Problem Bytes :=
  match s with
  | [] => .ok []
  | b :: r =>
    if isExponentLetter b then
      if startsWithDigit (skippedSign r) then .ok (skipDigits (skippedSign r))
      else .error .malformed
    else .ok (b :: r)

def skippedFraction (s : Bytes) : Except Problem Bytes :=
  match s with
  | [] => .ok []
  | b :: r =>
    if b = 0x2E then
      if startsWithDigit r then skippedExponent (skipDigits r) else .error .malformed
    else skippedExponent (b :: r)

/-- What follows a number, its sign already read. -/
def skippedNumber (s : Bytes) : Except Problem Bytes :=
  match s with
  | [] => .error .malformed
  | b :: r =>
    if !isDigit b then .error .malformed
    else if b = 0x30 then
      if startsWithDigit r then .error .malformed else skippedFraction r
    else skippedFraction (skipDigits r)

theorem length_skippedSign_le (s : Bytes) : (skippedSign s).length ≤ s.length := by
  unfold skippedSign
  split <;> simp

theorem length_le_of_skippedExponent {s rest : Bytes} (h : skippedExponent s = .ok rest) :
    rest.length ≤ s.length := by
  unfold skippedExponent at h
  split at h
  · cases h
    exact Nat.le_refl _
  · rename_i b r
    split at h
    · split at h
      · cases h
        have h₁ := length_skipDigits_le (skippedSign r)
        have h₂ := length_skippedSign_le r
        simp only [List.length_cons]
        omega
      · cases h
    · cases h
      exact Nat.le_refl _

theorem length_le_of_skippedFraction {s rest : Bytes} (h : skippedFraction s = .ok rest) :
    rest.length ≤ s.length := by
  unfold skippedFraction at h
  split at h
  · cases h
    exact Nat.le_refl _
  · rename_i b r
    split at h
    · split at h
      · have h₁ := length_le_of_skippedExponent h
        have h₂ := length_skipDigits_le r
        simp only [List.length_cons]
        omega
      · cases h
    · exact length_le_of_skippedExponent h

theorem length_lt_of_skippedNumber {s rest : Bytes} (h : skippedNumber s = .ok rest) :
    rest.length < s.length := by
  unfold skippedNumber at h
  split at h
  · cases h
  · rename_i b r
    split at h
    · cases h
    · split at h
      · split at h
        · cases h
        · have := length_le_of_skippedFraction h
          simp only [List.length_cons]
          omega
      · have h₁ := length_le_of_skippedFraction h
        have h₂ := length_skipDigits_le r
        simp only [List.length_cons]
        omega

/-- What follows a value without items that begins with `b`. -/
def skippedScalar (b : UInt8) (r : Bytes) : Except Problem Bytes :=
  if b = 0x6E then word (letters "ull") r
  else if b = 0x74 then word (letters "rue") r
  else if b = 0x66 then word (letters "alse") r
  else if b = 0x22 then skippedString r
  else if b = 0x2D then skippedNumber r
  else skippedNumber (b :: r)

theorem length_le_of_word {w s rest : Bytes} (h : word w s = .ok rest) :
    rest.length ≤ s.length := by
  induction w generalizing s with
  | nil =>
    cases h
    exact Nat.le_refl _
  | cons letter w ih =>
    cases s with
    | nil => cases h
    | cons b s =>
      unfold word at h
      split at h
      · have := ih h
        simp only [List.length_cons]
        omega
      · cases h

theorem length_le_of_skippedScalar {b : UInt8} {r rest : Bytes}
    (h : skippedScalar b r = .ok rest) : rest.length ≤ r.length := by
  unfold skippedScalar at h
  split at h
  · exact length_le_of_word h
  · split at h
    · exact length_le_of_word h
    · split at h
      · exact length_le_of_word h
      · split at h
        · exact Nat.le_of_lt (length_lt_of_skippedString h)
        · split at h
          · exact Nat.le_of_lt (length_lt_of_skippedNumber h)
          · have := length_lt_of_skippedNumber h
            simp only [List.length_cons] at this
            omega

inductive Frame where
  | list
  | map
  deriving DecidableEq, Repr

def Frame.closing : Frame → UInt8
  | list => 0x5D
  | map => 0x7D

/-- What the skipping does next inside the open frames. -/
inductive Task where
  | value
  | name
  | after
  deriving DecidableEq, Repr

def Frame.entry : Frame → Task
  | list => .value
  | map => .name

/-- The rest after a task and the closing of all open frames. -/
def skipping (task : Task) (frames : List Frame) (s : Bytes) : Except Problem Bytes :=
  match task, frames with
  | .after, [] => .ok s
  | .after, frame :: outer =>
    match _hskip : skipBlanks s with
    | [] => .error .unfinished
    | b :: r =>
      if b = 0x2C then skipping frame.entry (frame :: outer) r
      else if b = frame.closing then skipping .after outer r
      else .error .malformed
  | .name, frames =>
    match _hskip : skipBlanks s with
    | [] => .error .unfinished
    | b :: r =>
      if b = 0x22 then
        match _hname : skippedString r with
        | .error p => .error p
        | .ok r =>
          match _hcolon : colon r with
          | .error p => .error p
          | .ok r => skipping .value frames r
      else .error .malformed
  | .value, frames =>
    match _hskip : skipBlanks s with
    | [] => .error .unfinished
    | b :: r =>
      if b = 0x5B ∨ b = 0x7B then
        let frame := if b = 0x5B then Frame.list else Frame.map
        match _hopen : skipBlanks r with
        | [] => .error .unfinished
        | c :: r' =>
          if c = frame.closing then skipping .after frames r'
          else skipping frame.entry (frame :: frames) r
      else match _hscalar : skippedScalar b r with
        | .error p => .error p
        | .ok r => skipping .after frames r
termination_by s.length
decreasing_by
  · exact length_lt_of_skipBlanks (by assumption)
  · exact length_lt_of_skipBlanks (by assumption)
  · have h₁ := length_lt_of_skipBlanks _hskip
    have h₂ := length_lt_of_skippedString _hname
    have h₃ := length_lt_of_colon _hcolon
    omega
  · have h₁ := length_lt_of_skipBlanks _hskip
    have h₂ := length_lt_of_skipBlanks _hopen
    omega
  · exact length_lt_of_skipBlanks (by assumption)
  · have h₁ := length_lt_of_skipBlanks _hskip
    have h₂ := length_le_of_skippedScalar _hscalar
    omega

def skipped (s : Bytes) : Except Problem Bytes :=
  skipping .value [] s

theorem length_le_of_skipping {task : Task} {frames : List Frame} {s rest : Bytes}
    (h : skipping task frames s = .ok rest) : rest.length ≤ s.length := by
  fun_induction skipping task frames s generalizing rest with
  | case1 => cases h; exact Nat.le_refl _
  | case2 => cases h
  | case3 s frame outer r hskip ih =>
    have h₁ := length_lt_of_skipBlanks hskip
    have h₂ := ih h
    omega
  | case4 s frame outer r hskip _ ih =>
    have h₁ := length_lt_of_skipBlanks hskip
    have h₂ := ih h
    omega
  | case5 => cases h
  | case6 => cases h
  | case7 => cases h
  | case8 => cases h
  | case9 s frames r r' hname r'' hcolon hskip ih =>
    have h₁ := length_lt_of_skipBlanks hskip
    have h₂ := length_lt_of_skippedString hname
    have h₃ := length_lt_of_colon hcolon
    have h₄ := ih h
    omega
  | case10 => cases h
  | case11 => cases h
  | case12 => cases h
  | case13 =>
    rename_i hskip _ _ _ hopen ih
    have h₁ := length_lt_of_skipBlanks hskip
    have h₂ := length_lt_of_skipBlanks hopen
    have h₃ := ih h
    omega
  | case14 =>
    rename_i hskip _ _ _ _ hopen _ ih
    have h₁ := length_lt_of_skipBlanks hskip
    have h₂ := ih h
    omega
  | case15 => cases h
  | case16 s frames b r hskip _ r' hscalar ih =>
    have h₁ := length_lt_of_skipBlanks hskip
    have h₂ := length_le_of_skippedScalar hscalar
    have h₃ := ih h
    omega

theorem length_le_of_skipped {s rest : Bytes} (h : skipped s = .ok rest) :
    rest.length ≤ s.length :=
  length_le_of_skipping h

end LetterPages.Json
