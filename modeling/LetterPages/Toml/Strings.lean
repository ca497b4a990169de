import LetterPages.Toml.Reader

/-!
# TOML strings

A literal string stands for what is written between its apostrophes. A basic string stands between
quotes and has escapes. Either may be long: between tripled marks, it may break across lines, loses
a break right after its opening, and may hold marks as long as three do not stand together. In a
long basic string a backslash at the end of a line takes away the blanks and breaks that follow.
-/

namespace LetterPages.Toml

def hexValue? (c : Char) : Option Nat :=
  if '0' ≤ c ∧ c ≤ '9' then some (c.toNat - 48)
  else if 'a' ≤ c ∧ c ≤ 'f' then some (c.toNat - 87)
  else if 'A' ≤ c ∧ c ≤ 'F' then some (c.toNat - 55)
  else none

/-- The value of `count` hexadecimal digits after those of `n`. -/
def hexNumber : Nat → Nat → List Char → Option (Nat × List Char)
  | 0, n, s => some (n, s)
  | _ + 1, _, [] => none
  | count + 1, n, c :: r =>
    match hexValue? c with
    | none => none
    | some d => hexNumber count (n * 16 + d) r

def hexScalar (count : Nat) (s : List Char) : Option (Char × List Char) :=
  match hexNumber count 0 s with
  | none => none
  | some (n, rest) => if n.isValidChar then some (Char.ofNat n, rest) else none

def simpleEscape? (c : Char) : Option Char :=
  if c = 'b' then some '\x08'
  else if c = 't' then some '\t'
  else if c = 'n' then some '\n'
  else if c = 'f' then some '\x0c'
  else if c = 'r' then some '\r'
  else if c = 'e' then some '\x1b'
  else if c = '"' then some '"'
  else if c = '\\' then some '\\'
  else none

/-- The character that an escape stands for, its backslash already read. -/
def escape (s : List Char) : Option (Char × List Char) :=
  match s with
  | [] => none
  | 'x' :: r => hexScalar 2 r
  | 'u' :: r => hexScalar 4 r
  | 'U' :: r => hexScalar 8 r
  | c :: r => (simpleEscape? c).map fun e => (e, r)

theorem length_le_of_hexNumber {count n m : Nat} {s rest : List Char}
    (h : hexNumber count n s = some (m, rest)) : rest.length ≤ s.length := by
  fun_induction hexNumber count n s with
  | case1 =>
    cases h
    exact Nat.le_refl _
  | case2 => cases h
  | case3 => cases h
  | case4 count n c r d _ ih =>
    have := ih h
    simp only [List.length_cons]
    omega

theorem length_le_of_hexScalar {count : Nat} {c : Char} {s rest : List Char}
    (h : hexScalar count s = some (c, rest)) : rest.length ≤ s.length := by
  unfold hexScalar at h
  split at h
  · cases h
  · rename_i hnumber
    split at h
    · cases h
      exact length_le_of_hexNumber hnumber
    · cases h

theorem length_lt_of_escape {s rest : List Char} {c : Char} (h : escape s = some (c, rest)) :
    rest.length < s.length := by
  unfold escape at h
  split at h
  · cases h
  · exact Nat.lt_succ_of_le (length_le_of_hexScalar h)
  · exact Nat.lt_succ_of_le (length_le_of_hexScalar h)
  · exact Nat.lt_succ_of_le (length_le_of_hexScalar h)
  · obtain ⟨e, _, heq⟩ := Option.map_eq_some_iff.1 h
    cases heq
    simp

/-- Characters put in front of what has been read. -/
def after (cs : List Char) : Option (List Char × List Char) → Option (List Char × List Char)
  | none => none
  | some (text, rest) => some (cs ++ text, rest)

theorem eq_some_of_after {cs : List Char} {o : Option (List Char × List Char)}
    {text rest : List Char} (h : after cs o = some (text, rest)) :
    ∃ more, o = some (more, rest) ∧ text = cs ++ more := by
  unfold after at h
  split at h
  · cases h
  · cases h
    exact ⟨_, rfl, rfl⟩

/-! ## Strings on one line -/

def literal : List Char → Option (List Char × List Char)
  | [] => none
  | c :: r =>
    if c = '\x27' then some ([], r)
    else if isPlain c then after [c] (literal r)
    else none

/-- The characters up to the closing quote, escapes replaced. -/
def basic (s : List Char) : Option (List Char × List Char) :=
  match s with
  | [] => none
  | c :: r =>
    if c = '"' then some ([], r)
    else if c = '\\' then
      match _h : escape r with
      | none => none
      | some (e, r) => after [e] (basic r)
    else if isPlain c then after [c] (basic r)
    else none
termination_by s.length
decreasing_by
  · have := length_lt_of_escape _h
    simp only [List.length_cons]
    omega
  · simp

theorem length_lt_of_literal {s text rest : List Char} (h : literal s = some (text, rest)) :
    rest.length < s.length := by
  fun_induction literal s generalizing text rest with
  | case1 => cases h
  | case2 =>
    cases h
    simp
  | case3 c r _ _ ih =>
    obtain ⟨more, hmore, _⟩ := eq_some_of_after h
    have := ih hmore
    simp only [List.length_cons]
    omega
  | case4 => cases h

theorem length_lt_of_basic {s text rest : List Char} (h : basic s = some (text, rest)) :
    rest.length < s.length := by
  fun_induction basic s generalizing text rest with
  | case1 => cases h
  | case2 =>
    cases h
    simp
  | case3 => cases h
  | case4 r e r' hescape _ ih =>
    obtain ⟨more, hmore, _⟩ := eq_some_of_after h
    have h₁ := length_lt_of_escape hescape
    have h₂ := ih hmore
    simp only [List.length_cons]
    omega
  | case5 c r _ _ _ ih =>
    obtain ⟨more, hmore, _⟩ := eq_some_of_after h
    have := ih hmore
    simp only [List.length_cons]
    omega
  | case6 => cases h

/-! ## Long strings -/

/-- The end of a long string: three marks, with up to two more before them that belong to the
text. -/
def closing? (mark : Char) (s : List Char) : Option (List Char × List Char) :=
  let n := ((s.take 5).takeWhile (· == mark)).length
  if 3 ≤ n then some (List.replicate (n - 3) mark, s.drop n) else none

/-- What stands for itself at the front of a long string: a line break or one plain character. -/
def verbatim? (s : List Char) : Option (List Char × List Char) :=
  match s with
  | [] => none
  | '\n' :: r => some (['\n'], r)
  | '\r' :: '\n' :: r => some (['\r', '\n'], r)
  | c :: r => if isPlain c then some ([c], r) else none

/-- What follows the end of a line, and the blanks and breaks after it. -/
def continuation? (s : List Char) : Option (List Char) :=
  match afterBreak? (skipBlanks s) with
  | none => none
  | some r => some (skipLines r)

theorem length_le_of_closing? {mark : Char} {s text rest : List Char}
    (h : closing? mark s = some (text, rest)) : rest.length ≤ s.length := by
  unfold closing? at h
  simp only at h
  split at h
  · cases h
    simp
  · cases h

theorem length_lt_of_verbatim? {s cs rest : List Char} (h : verbatim? s = some (cs, rest)) :
    rest.length < s.length := by
  unfold verbatim? at h
  split at h
  · cases h
  · cases h
    simp
  · cases h
    simp only [List.length_cons]
    omega
  · split at h
    · cases h
      simp
    · cases h

theorem length_lt_of_continuation? {s rest : List Char} (h : continuation? s = some rest) :
    rest.length < s.length := by
  unfold continuation? at h
  split at h
  · cases h
  · rename_i r hbreak
    cases h
    have h₁ := length_lt_of_afterBreak? hbreak
    have h₂ := length_skipBlanks_le s
    have h₃ := length_skipLines_le r
    omega

def longLiteral (s : List Char) : Option (List Char × List Char) :=
  match closing? '\x27' s with
  | some (text, rest) => some (text, rest)
  | none =>
    match _h : verbatim? s with
    | none => none
    | some (cs, r) => after cs (longLiteral r)
termination_by s.length
decreasing_by exact length_lt_of_verbatim? _h

/-- The characters of a long basic string, escapes replaced. -/
def longBasic (s : List Char) : Option (List Char × List Char) :=
  match closing? '"' s with
  | some (text, rest) => some (text, rest)
  | none =>
    match s with
    | [] => none
    | c :: r =>
      if c = '\\' then
        match _hline : continuation? r with
        | some r => longBasic r
        | none =>
          match _hescape : escape r with
          | none => none
          | some (e, r) => after [e] (longBasic r)
      else match _hverbatim : verbatim? (c :: r) with
        | none => none
        | some (cs, r) => after cs (longBasic r)
termination_by s.length
decreasing_by
  · have := length_lt_of_continuation? _hline
    simp only [List.length_cons]
    omega
  · have := length_lt_of_escape _hescape
    simp only [List.length_cons]
    omega
  · exact length_lt_of_verbatim? _hverbatim

theorem length_le_of_longLiteral {s text rest : List Char}
    (h : longLiteral s = some (text, rest)) : rest.length ≤ s.length := by
  fun_induction longLiteral s generalizing text rest with
  | case1 s text' rest' hclosing =>
    cases h
    exact length_le_of_closing? hclosing
  | case2 => cases h
  | case3 s _ cs r hverbatim ih =>
    obtain ⟨more, hmore, _⟩ := eq_some_of_after h
    have h₁ := length_lt_of_verbatim? hverbatim
    have h₂ := ih hmore
    omega

theorem length_le_of_longBasic {s text rest : List Char}
    (h : longBasic s = some (text, rest)) : rest.length ≤ s.length := by
  fun_induction longBasic s generalizing text rest with
  | case1 s text' rest' hclosing =>
    cases h
    exact length_le_of_closing? hclosing
  | case2 => cases h
  | case3 =>
    rename_i hline _ ih
    have h₁ := length_lt_of_continuation? hline
    have h₂ := ih h
    simp only [List.length_cons]
    omega
  | case4 => cases h
  | case5 =>
    rename_i hescape _ ih
    obtain ⟨more, hmore, _⟩ := eq_some_of_after h
    have h₁ := length_lt_of_escape hescape
    have h₂ := ih hmore
    simp only [List.length_cons]
    omega
  | case6 => cases h
  | case7 =>
    rename_i hverbatim _ ih
    obtain ⟨more, hmore, _⟩ := eq_some_of_after h
    have h₁ := length_lt_of_verbatim? hverbatim
    have h₂ := ih hmore
    omega

def trimBreak (s : List Char) : List Char :=
  (afterBreak? s).getD s

theorem length_trimBreak_le (s : List Char) : (trimBreak s).length ≤ s.length := by
  unfold trimBreak
  cases h : afterBreak? s with
  | none => exact Nat.le_refl _
  | some r => exact Nat.le_of_lt (length_lt_of_afterBreak? h)

/-- The text of a string of any of the four forms. -/
def stringFrom (s : List Char) : Option (List Char × List Char) :=
  match s with
  | '"' :: '"' :: '"' :: r => longBasic (trimBreak r)
  | '"' :: r => basic r
  | '\x27' :: '\x27' :: '\x27' :: r => longLiteral (trimBreak r)
  | '\x27' :: r => literal r
  | _ => none

theorem length_lt_of_stringFrom {s text rest : List Char} (h : stringFrom s = some (text, rest)) :
    rest.length < s.length := by
  unfold stringFrom at h
  split at h
  · rename_i r
    have h₁ := length_le_of_longBasic h
    have h₂ := length_trimBreak_le r
    simp only [List.length_cons]
    omega
  · have := length_lt_of_basic h
    simp only [List.length_cons]
    omega
  · rename_i r
    have h₁ := length_le_of_longLiteral h
    have h₂ := length_trimBreak_le r
    simp only [List.length_cons]
    omega
  · have := length_lt_of_literal h
    simp only [List.length_cons]
    omega
  · cases h

end LetterPages.Toml
