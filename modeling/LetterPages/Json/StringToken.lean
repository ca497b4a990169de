import LetterPages.Json.Reader

/-!
# Reading JSON strings

The bytes up to the closing quote stand for themselves, apart from escapes; control characters are
refused. The bytes together are checked as UTF-8 where the string closes.
-/

namespace LetterPages.Json

def hexValue? (b : UInt8) : Option Nat :=
  if 0x30 ≤ b ∧ b ≤ 0x39 then some (b.toNat - 0x30)
  else if 0x61 ≤ b ∧ b ≤ 0x66 then some (b.toNat - 0x57)
  else if 0x41 ≤ b ∧ b ≤ 0x46 then some (b.toNat - 0x37)
  else none

/-- Four hexadecimal digits. Fewer than four bytes are an end that comes too early. -/
def hexUnit : Bytes → Except Problem (Nat × Bytes)
  | a :: b :: c :: d :: rest =>
    match hexValue? a, hexValue? b, hexValue? c, hexValue? d with
    | some a, some b, some c, some d => .ok (a * 4096 + b * 256 + c * 16 + d, rest)
    | _, _, _, _ => .error .malformed
  | _ => .error .unfinished

theorem length_lt_of_hexUnit {s rest : Bytes} {n : Nat} (h : hexUnit s = .ok (n, rest)) :
    rest.length < s.length := by
  unfold hexUnit at h
  split at h
  · split at h
    · cases h
      simp only [List.length_cons]
      omega
    · cases h
  · cases h

def isLowSurrogate (n : Nat) : Bool :=
  0xDC00 ≤ n && n ≤ 0xDFFF

def isHighSurrogate (n : Nat) : Bool :=
  0xD800 ≤ n && n ≤ 0xDBFF

/-- The low half of a pair whose high half is `high`. -/
def lowHalf (high : Nat) : Bytes → Except Problem (Char × Bytes)
  | [] => .error .unfinished
  | [b] => if b = 0x5C then .error .unfinished else .error .malformed
  | b :: u :: s =>
    if b ≠ 0x5C ∨ u ≠ 0x75 then .error .malformed
    else match hexUnit s with
      | .error p => .error p
      | .ok (low, rest) =>
        if isLowSurrogate low then
          .ok (Char.ofNat (0x10000 + (high - 0xD800) * 1024 + (low - 0xDC00)), rest)
        else .error .malformed

/-- The scalar value after `\u`; surrogates count only in pairs. -/
def unicodeEscape (s : Bytes) : Except Problem (Char × Bytes) :=
  match hexUnit s with
  | .error p => .error p
  | .ok (n, rest) =>
    if isLowSurrogate n then .error .malformed
    else if isHighSurrogate n then lowHalf n rest
    else .ok (Char.ofNat n, rest)

def simpleEscape? (b : UInt8) : Option Char :=
  if b = 0x22 then some '"'
  else if b = 0x5C then some '\\'
  else if b = 0x2F then some '/'
  else if b = 0x62 then some '\x08'
  else if b = 0x66 then some '\x0c'
  else if b = 0x6E then some '\n'
  else if b = 0x72 then some '\r'
  else if b = 0x74 then some '\t'
  else none

def escape : Bytes → Except Problem (Char × Bytes)
  | [] => .error .unfinished
  | b :: s =>
    if b = 0x75 then unicodeEscape s
    else match simpleEscape? b with
      | some c => .ok (c, s)
      | none => .error .malformed

theorem length_lt_of_lowHalf {high : Nat} {s rest : Bytes} {c : Char}
    (h : lowHalf high s = .ok (c, rest)) : rest.length < s.length := by
  unfold lowHalf at h
  split at h
  · cases h
  · split at h <;> cases h
  · split at h
    · cases h
    · split at h
      · cases h
      · rename_i hunit
        split at h
        · simp only [Except.ok.injEq, Prod.mk.injEq] at h
          have := length_lt_of_hexUnit hunit
          rw [h.2] at this
          simp only [List.length_cons]
          omega
        · cases h

theorem length_lt_of_escape {s rest : Bytes} {c : Char} (h : escape s = .ok (c, rest)) :
    rest.length < s.length := by
  unfold escape at h
  split at h
  · cases h
  · split at h
    · unfold unicodeEscape at h
      split at h
      · cases h
      · rename_i hunit
        have hlt := length_lt_of_hexUnit hunit
        split at h
        · cases h
        · split at h
          · have := length_lt_of_lowHalf h
            simp only [List.length_cons]
            omega
          · cases h
            simp only [List.length_cons]
            omega
    · split at h
      · cases h
        simp
      · cases h

/-- The bytes of a string up to its closing quote, escapes replaced. -/
def stringBytes (s : Bytes) : Except Problem (Bytes × Bytes) :=
  match s with
  | [] => .error .unfinished
  | b :: r =>
    if b = 0x22 then .ok ([], r)
    else if b = 0x5C then
      match _h : escape r with
      | .error p => .error p
      | .ok (c, r) =>
        match stringBytes r with
        | .error p => .error p
        | .ok (t, rest) => .ok (String.utf8EncodeChar c ++ t, rest)
    else if b < 0x20 then .error .malformed
    else match stringBytes r with
      | .error p => .error p
      | .ok (t, rest) => .ok (b :: t, rest)
termination_by s.length
decreasing_by
  · have := length_lt_of_escape (by assumption)
    simp only [List.length_cons]
    omega
  · simp only [List.length_cons]
    omega

theorem length_lt_of_stringBytes {s t rest : Bytes} (h : stringBytes s = .ok (t, rest)) :
    rest.length < s.length := by
  fun_induction stringBytes s generalizing t rest with
  | case1 => cases h
  | case2 => cases h; simp
  | case3 => cases h
  | case4 => cases h
  | case5 r c r' hesc t' rest' hrest _ ih =>
    cases h
    have h₁ := length_lt_of_escape hesc
    have h₂ := ih hrest
    simp only [List.length_cons]
    omega
  | case6 => cases h
  | case7 => cases h
  | case8 b r _ _ _ t' rest' hrest ih =>
    cases h
    have h₂ := ih hrest
    simp only [List.length_cons]
    omega

/-- The text of a string whose opening quote has been read. -/
def stringText (s : Bytes) : Except Problem (String × Bytes) :=
  match stringBytes s with
  | .error p => .error p
  | .ok (t, rest) =>
    match Utf8.decode? t with
    | some cs => .ok (String.ofList cs, rest)
    | none => .error .malformed

theorem length_lt_of_stringText {s rest : Bytes} {text : String}
    (h : stringText s = .ok (text, rest)) : rest.length < s.length := by
  unfold stringText at h
  split at h
  · cases h
  · rename_i hbytes
    split at h
    · cases h
      exact length_lt_of_stringBytes hbytes
    · cases h

end LetterPages.Json
