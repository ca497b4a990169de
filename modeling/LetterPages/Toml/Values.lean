import LetterPages.Toml.Moments

/-!
# TOML values

A value is a string, a word such as a number or a date, an array, or an inline table of keys with
values. A key is a path of names and a name. Arrays and inline tables nest, and keys are long, only
up to a limit.
-/

namespace LetterPages.Toml

/-- A value without items. A whole number has no value if its digits spell none. -/
inductive Scalar where
  | string (text : String)
  | integer (value? : Option Int)
  | fraction (isWithinRange : Bool)
  | boolean (b : Bool)
  | moment
  deriving DecidableEq, Repr

structure Key where
  path : List String
  name : String
  deriving DecidableEq, Repr

inductive Value where
  | scalar (s : Scalar)
  | array (items : List Value)
  | table (pairs : List (Key × Value))
  deriving Repr

/-! ## Keys -/

def isBare (c : Char) : Bool :=
  ('A' ≤ c && c ≤ 'Z') || ('a' ≤ c && c ≤ 'z') || ('0' ≤ c && c ≤ '9') || c == '_' || c == '-'

def bareName (s : List Char) : Option (List Char × List Char) :=
  match s with
  | [] => none
  | c :: r => if isBare c then some (c :: r.takeWhile isBare, r.dropWhile isBare) else none

/-- A name of a key: bare, or a string on one line. -/
def name (s : List Char) : Option (List Char × List Char) :=
  match s with
  | '"' :: r => basic r
  | '\x27' :: r => literal r
  | r => bareName r

theorem length_lt_of_bareName {s text rest : List Char} (h : bareName s = some (text, rest)) :
    rest.length < s.length := by
  unfold bareName at h
  split at h
  · cases h
  · rename_i c r
    split at h
    · cases h
      have : (r.dropWhile isBare).length ≤ r.length := (List.dropWhile_sublist _).length_le
      simp only [List.length_cons]
      omega
    · cases h

theorem length_lt_of_name {s text rest : List Char} (h : name s = some (text, rest)) :
    rest.length < s.length := by
  unfold name at h
  split at h
  · exact Nat.lt_succ_of_lt (length_lt_of_basic h)
  · exact Nat.lt_succ_of_lt (length_lt_of_literal h)
  · exact length_lt_of_bareName h

/-- What follows a point that may stand between blanks. -/
def point? (s : List Char) : Option (List Char) :=
  match skipBlanks s with
  | '.' :: r => some (skipBlanks r)
  | _ => none

theorem length_lt_of_point? {s rest : List Char} (h : point? s = some rest) :
    rest.length < s.length := by
  unfold point? at h
  split at h
  · rename_i r hblanks
    cases h
    have h₁ := length_skipBlanks_le s
    have h₂ := length_skipBlanks_le r
    rw [hblanks] at h₁
    simp only [List.length_cons] at h₁
    omega
  · cases h

def names (s : List Char) : Option (Key × List Char) :=
  match _hname : name s with
  | none => none
  | some (text, r) =>
    match _hpoint : point? r with
    | none => some (⟨[], String.ofList text⟩, r)
    | some r =>
      match names r with
      | none => none
      | some (k, rest) => some (⟨String.ofList text :: k.path, k.name⟩, rest)
termination_by s.length
decreasing_by
  have h₁ := length_lt_of_name _hname
  have h₂ := length_lt_of_point? _hpoint
  omega

theorem length_lt_of_names {s rest : List Char} {k : Key} (h : names s = some (k, rest)) :
    rest.length < s.length := by
  fun_induction names s generalizing k rest with
  | case1 => cases h
  | case2 s text r hname =>
    cases h
    exact length_lt_of_name hname
  | case3 => cases h
  | case4 s text r hname r' hpoint k' rest' hmore ih =>
    cases h
    have h₁ := length_lt_of_name hname
    have h₂ := length_lt_of_point? hpoint
    have h₃ := ih hmore
    omega

/-- How many names a key may have, and how deep values may nest. -/
def limit : Nat :=
  80

def key (s : List Char) : Option (Key × List Char) :=
  match names s with
  | none => none
  | some (k, rest) => if k.path.length < limit then some (k, rest) else none

theorem length_lt_of_key {s rest : List Char} {k : Key} (h : key s = some (k, rest)) :
    rest.length < s.length := by
  unfold key at h
  split at h
  · cases h
  · rename_i hnames
    split at h
    · cases h
      exact length_lt_of_names hnames
    · cases h

/-! ## Words -/

/-- A word goes on up to a mark that parts values, a blank, a comment or the end of the line. -/
def isWordPart (c : Char) : Bool :=
  c ∉ ['=', ',', '[', ']', '\x7b', '\x7d', ' ', '\t', '#', '\r', '\n']

/-- A word, or a date and a time with one blank between them. -/
def word (s : List Char) : List Char × List Char :=
  let first := s.takeWhile isWordPart
  match s.dropWhile isWordPart with
  | ' ' :: c :: r =>
    if isDate first && isDecimalDigit c then
      (first ++ ' ' :: (c :: r).takeWhile isWordPart, (c :: r).dropWhile isWordPart)
    else (first, ' ' :: c :: r)
  | rest => (first, rest)

namespace Scalar

/-- What the word `w` spells, `s` being the word without its sign, which begins with a digit or an
underscore. What follows the first digits tells a date or time, a fraction and a whole number
apart. -/
def ofNumeral? (w s : List Char) : Option Scalar :=
  let rest := s.dropWhile isDecimalDigit
  if rest = [] then
    if s.head? = some '0' ∧ 1 < s.length then none else (decimal? w).map integer
  else if rest.head? = some '-' ∨ rest.head? = some ':' then
    if isMoment w then some moment else none
  else if ' ' ∈ rest then none
  else if '.' ∈ rest ∨ 'e' ∈ rest ∨ 'E' ∈ rest then (fraction? w s).map fraction
  else if rest.head? = some '_' ∧ s.head? ≠ some '0' then (decimal? w).map integer
  else none

def isNumeral (s : List Char) : Bool :=
  s.head?.any isDigitOrUnderscore

/-- What a word with a sign spells. -/
def ofSigned? (w s : List Char) : Option Scalar :=
  match s with
  | ['i', 'n', 'f'] => some (.fraction true)
  | ['n', 'a', 'n'] => some (.fraction true)
  | _ => if isNumeral s then ofNumeral? w s else none

def ofWord? (w : List Char) : Option Scalar :=
  match w with
  | ['t', 'r', 'u', 'e'] => some (.boolean true)
  | ['f', 'a', 'l', 's', 'e'] => some (.boolean false)
  | ['i', 'n', 'f'] => some (.fraction true)
  | ['n', 'a', 'n'] => some (.fraction true)
  | '+' :: s => ofSigned? w s
  | '-' :: s => ofSigned? w s
  | '0' :: 'x' :: s => (marked? 16 s).map integer
  | '0' :: 'o' :: s => (marked? 8 s).map integer
  | '0' :: 'b' :: s => (marked? 2 s).map integer
  | _ => if isNumeral w then ofNumeral? w w else none

end Scalar

def scalar (s : List Char) : Option (Value × List Char) :=
  match stringFrom s with
  | some (text, rest) => some (.scalar (.string (String.ofList text)), rest)
  | none =>
    match Scalar.ofWord? (word s).1 with
    | some a => some (.scalar a, (word s).2)
    | none => none

theorem word_append (s : List Char) : (word s).1 ++ (word s).2 = s := by
  have hs : s.takeWhile isWordPart ++ s.dropWhile isWordPart = s := List.takeWhile_append_dropWhile
  unfold word
  simp only
  split
  · rename_i c r hdrop
    rw [hdrop] at hs
    split
    · rw [List.append_assoc, List.cons_append, List.takeWhile_append_dropWhile]
      exact hs
    · exact hs
  · exact hs

theorem length_lt_of_scalar {s rest : List Char} {v : Value} (h : scalar s = some (v, rest)) :
    rest.length < s.length := by
  unfold scalar at h
  split at h
  · rename_i hstring
    cases h
    exact length_lt_of_stringFrom hstring
  · split at h
    · rename_i a hword
      cases h
      have happ := congrArg List.length (word_append s)
      rw [List.length_append] at happ
      have hne : (word s).1 ≠ [] := by
        intro hnil
        have hnone : Scalar.ofWord? [] = none := by decide
        rw [hnil, hnone] at hword
        cases hword
      have := List.length_pos_iff.2 hne
      omega
    · cases h

/-! ## Values -/

def pairOf (spacing : Spacing) (value : Reader Value) (s : List Char) :
    Option ((Key × Value) × List Char) :=
  match key s with
  | none => none
  | some (k, r) =>
    match spacing.skip r with
    | '=' :: r =>
      match value.run (spacing.skip r) with
      | none => none
      | some (v, rest) => some ((k, v), rest)
    | _ => none

theorem length_lt_of_pairOf {spacing : Spacing} {value : Reader Value} {s rest : List Char}
    {p : Key × Value} (h : pairOf spacing value s = some (p, rest)) :
    rest.length < s.length := by
  unfold pairOf at h
  split at h
  · cases h
  · rename_i k r hkey
    have h₁ := length_lt_of_key hkey
    have h₂ := spacing.length_skip_le r
    split at h
    · rename_i r' hequals
      have h₃ := spacing.length_skip_le r'
      rw [hequals] at h₂
      simp only [List.length_cons] at h₂
      split at h
      · cases h
      · rename_i hvalue
        cases h
        have h₄ := value.consumes hvalue
        omega
    · cases h

def Reader.pair (spacing : Spacing) (value : Reader Value) : Reader (Key × Value) where
  run := pairOf spacing value
  consumes := length_lt_of_pairOf

/-- An array or an inline table whose items hold what `inner` reads, or a value without items. -/
def valueOver (inner : Reader Value) (s : List Char) : Option (Value × List Char) :=
  match s with
  | '[' :: r => (items ']' inner r).map fun v => (.array v.1, v.2)
  | '\x7b' :: r => (items '\x7d' (inner.pair .free) r).map fun v => (.table v.1, v.2)
  | r => scalar r

theorem length_lt_of_valueOver {inner : Reader Value} {s rest : List Char} {v : Value}
    (h : valueOver inner s = some (v, rest)) : rest.length < s.length := by
  unfold valueOver at h
  split at h
  · obtain ⟨⟨l, r⟩, hitems, heq⟩ := Option.map_eq_some_iff.1 h
    cases heq
    exact Nat.lt_succ_of_lt (length_lt_of_items hitems)
  · obtain ⟨⟨l, r⟩, hitems, heq⟩ := Option.map_eq_some_iff.1 h
    cases heq
    exact Nat.lt_succ_of_lt (length_lt_of_items hitems)
  · exact length_lt_of_scalar h

/-- Values that nest at most `depth` deep. -/
def Reader.value : Nat → Reader Value
  | 0 => ⟨scalar, length_lt_of_scalar⟩
  | depth + 1 => ⟨valueOver (Reader.value depth), length_lt_of_valueOver⟩

/-- A key with its value on a line of its own. -/
def pair : Reader (Key × Value) :=
  (Reader.value limit).pair .line

end LetterPages.Toml
