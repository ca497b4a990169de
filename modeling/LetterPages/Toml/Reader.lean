/-!
# Reading TOML

A reader takes one item from the front of a text and leaves the rest, which is shorter. Blanks
stand between the items of a line; line breaks and comments may stand between the items of an array,
of an inline table and of the whole text.
-/

namespace LetterPages.Toml

structure Reader (α : Type) where
  run : List Char → Option (α × List Char)
  consumes : ∀ {s : List Char} {a : α} {rest : List Char},
    run s = some (a, rest) → rest.length < s.length

def isBlank (c : Char) : Bool :=
  c == ' ' || c == '\t'

/-- A tab, or a character that is not an ASCII control. -/
def isPlain (c : Char) : Bool :=
  c == '\t' || (' ' ≤ c && c != '\x7f')

def skipBlanks (s : List Char) : List Char :=
  s.dropWhile isBlank

/-- What follows a line break at the very front. -/
def afterBreak? (s : List Char) : Option (List Char) :=
  match s with
  | '\n' :: r => some r
  | '\r' :: '\n' :: r => some r
  | _ => none

theorem length_skipBlanks_le (s : List Char) : (skipBlanks s).length ≤ s.length :=
  (List.dropWhile_sublist _).length_le

theorem length_lt_of_afterBreak? {s rest : List Char} (h : afterBreak? s = some rest) :
    rest.length < s.length := by
  unfold afterBreak? at h
  split at h
  · cases h
    simp
  · cases h
    simp only [List.length_cons]
    omega
  · cases h

def skipLines (s : List Char) : List Char :=
  match s with
  | [] => []
  | c :: r =>
    if isBlank c then skipLines r
    else match _h : afterBreak? (c :: r) with
      | some rest => skipLines rest
      | none => c :: r
termination_by s.length
decreasing_by
  · simp
  · exact length_lt_of_afterBreak? (by assumption)

def skipGap (s : List Char) : List Char :=
  match s with
  | [] => []
  | c :: r =>
    if isBlank c then skipGap r
    else if c = '#' then skipGap (r.dropWhile isPlain)
    else match _h : afterBreak? (c :: r) with
      | some rest => skipGap rest
      | none => c :: r
termination_by s.length
decreasing_by
  · simp
  · have : (r.dropWhile isPlain).length ≤ r.length := (List.dropWhile_sublist _).length_le
    simp only [List.length_cons]
    omega
  · exact length_lt_of_afterBreak? (by assumption)

theorem length_skipLines_le (s : List Char) : (skipLines s).length ≤ s.length := by
  fun_induction skipLines s with
  | case1 => exact Nat.le_refl _
  | case2 c r _ ih =>
    simp only [List.length_cons]
    omega
  | case3 c r _ rest hbreak ih =>
    have := length_lt_of_afterBreak? hbreak
    omega
  | case4 => exact Nat.le_refl _

theorem length_skipGap_le (s : List Char) : (skipGap s).length ≤ s.length := by
  fun_induction skipGap s with
  | case1 => exact Nat.le_refl _
  | case2 c r _ ih =>
    simp only [List.length_cons]
    omega
  | case3 r _ ih =>
    have : (r.dropWhile isPlain).length ≤ r.length := (List.dropWhile_sublist _).length_le
    simp only [List.length_cons]
    omega
  | case4 c r _ _ rest hbreak ih =>
    have := length_lt_of_afterBreak? hbreak
    omega
  | case5 => exact Nat.le_refl _

theorem length_lt_of_skipGap {s r : List Char} {c : Char} (h : skipGap s = c :: r) :
    r.length < s.length := by
  have hle := length_skipGap_le s
  rw [h] at hle
  simp only [List.length_cons] at hle
  omega

def skipComment (s : List Char) : List Char :=
  match s with
  | '#' :: r => r.dropWhile isPlain
  | r => r

/-- What follows the end of a line that holds nothing more than blanks and a comment. -/
def lineEnd (s : List Char) : Option (List Char) :=
  match skipComment (skipBlanks s) with
  | [] => some []
  | c :: r => afterBreak? (c :: r)

theorem length_skipComment_le (s : List Char) : (skipComment s).length ≤ s.length := by
  unfold skipComment
  split
  · rename_i r
    have : (r.dropWhile isPlain).length ≤ r.length := (List.dropWhile_sublist _).length_le
    simp only [List.length_cons]
    omega
  · exact Nat.le_refl _

theorem length_le_of_lineEnd {s rest : List Char} (h : lineEnd s = some rest) :
    rest.length ≤ s.length := by
  have h₁ := length_skipBlanks_le s
  have h₂ := length_skipComment_le (skipBlanks s)
  unfold lineEnd at h
  split at h
  · cases h
    simp
  · rename_i hcomment
    have h₃ := length_lt_of_afterBreak? h
    rw [hcomment] at h₂
    omega

/-- What may stand between the parts of a pair: blanks where it has to end with its line, and breaks
and comments as well within brackets. -/
inductive Spacing where
  | line
  | free
  deriving DecidableEq, Repr

def Spacing.skip : Spacing → List Char → List Char
  | line => skipBlanks
  | free => skipGap

theorem Spacing.length_skip_le (spacing : Spacing) (s : List Char) :
    (spacing.skip s).length ≤ s.length := by
  cases spacing with
  | line => exact length_skipBlanks_le s
  | free => exact length_skipGap_le s

/-- The items of an array or of an inline table, up to the closing bracket. Commas part them and
one may follow the last. -/
def items {α : Type} (closing : Char) (item : Reader α) (s : List Char) :
    Option (List α × List Char) :=
  match _hstart : skipGap s with
  | [] => none
  | c :: r =>
    if c = closing then some ([], r)
    else match _hitem : item.run (c :: r) with
      | none => none
      | some (a, r) =>
        match _hnext : skipGap r with
        | [] => none
        | c :: r =>
          if c = closing then some ([a], r)
          else if c = ',' then
            match items closing item r with
            | none => none
            | some (more, rest) => some (a :: more, rest)
          else none
termination_by s.length
decreasing_by
  have h₁ := length_lt_of_skipGap _hstart
  have h₂ := item.consumes _hitem
  have h₃ := length_lt_of_skipGap _hnext
  simp only [List.length_cons] at h₂
  omega

theorem length_lt_of_items {α : Type} {closing : Char} {item : Reader α} {s rest : List Char}
    {l : List α} (h : items closing item s = some (l, rest)) : rest.length < s.length := by
  fun_induction items closing item s generalizing l rest with
  | case1 => cases h
  | case2 s r hstart =>
    cases h
    exact length_lt_of_skipGap hstart
  | case3 => cases h
  | case4 => cases h
  | case5 s c r hstart _ a r' hitem r'' hnext =>
    cases h
    have h₁ := length_lt_of_skipGap hstart
    have h₂ := item.consumes hitem
    have h₃ := length_lt_of_skipGap hnext
    simp only [List.length_cons] at h₂
    omega
  | case6 => cases h
  | case7 =>
    rename_i hstart _ _ _ hitem _ _ _ hmore hnext _ ih
    cases h
    have h₁ := length_lt_of_skipGap hstart
    have h₂ := item.consumes hitem
    have h₃ := length_lt_of_skipGap hnext
    have h₄ := ih hmore
    simp only [List.length_cons] at h₂
    omega
  | case8 => cases h

end LetterPages.Toml
