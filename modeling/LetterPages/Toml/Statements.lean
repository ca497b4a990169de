import LetterPages.Toml.Values

/-!
# TOML statements

A text is read line by line into pairs of a key and a value and headers of tables. A header opens a
section that holds the pairs up to the next header; the pairs before any header stand at the top.
-/

namespace LetterPages.Toml

inductive Statement where
  | pair (k : Key) (v : Value)
  | header (k : Key)
  | arrayHeader (k : Key)
  deriving Repr

/-- A key between blanks, up to a closing bracket. -/
def headerKey (s : List Char) : Option (Key × List Char) :=
  match key (skipBlanks s) with
  | none => none
  | some (k, r) =>
    match skipBlanks r with
    | ']' :: rest => some (k, rest)
    | _ => none

def arrayHeaderKey (s : List Char) : Option (Key × List Char) :=
  match headerKey s with
  | some (k, ']' :: rest) => some (k, rest)
  | _ => none

def statement (s : List Char) : Option (Statement × List Char) :=
  match s with
  | '[' :: '[' :: r => (arrayHeaderKey r).map fun v => (.arrayHeader v.1, v.2)
  | '[' :: r => (headerKey r).map fun v => (.header v.1, v.2)
  | r => (pair.run r).map fun v => (.pair v.1.1 v.1.2, v.2)

theorem length_lt_of_headerKey {s rest : List Char} {k : Key} (h : headerKey s = some (k, rest)) :
    rest.length < s.length := by
  unfold headerKey at h
  split at h
  · cases h
  · rename_i k' r hkey
    have h₁ := length_skipBlanks_le s
    have h₂ := length_lt_of_key hkey
    have h₃ := length_skipBlanks_le r
    split at h
    · rename_i hclosing
      cases h
      rw [hclosing] at h₃
      simp only [List.length_cons] at h₃
      omega
    · cases h

theorem length_lt_of_arrayHeaderKey {s rest : List Char} {k : Key}
    (h : arrayHeaderKey s = some (k, rest)) : rest.length < s.length := by
  unfold arrayHeaderKey at h
  split at h
  · rename_i hkey
    cases h
    have := length_lt_of_headerKey hkey
    simp only [List.length_cons] at this
    omega
  · cases h

theorem length_lt_of_statement {s rest : List Char} {a : Statement}
    (h : statement s = some (a, rest)) : rest.length < s.length := by
  unfold statement at h
  split at h
  · obtain ⟨⟨k, r⟩, hkey, heq⟩ := Option.map_eq_some_iff.1 h
    cases heq
    have := length_lt_of_arrayHeaderKey hkey
    simp only [List.length_cons]
    omega
  · obtain ⟨⟨k, r⟩, hkey, heq⟩ := Option.map_eq_some_iff.1 h
    cases heq
    exact Nat.lt_succ_of_lt (length_lt_of_headerKey hkey)
  · obtain ⟨⟨p, r⟩, hpair, heq⟩ := Option.map_eq_some_iff.1 h
    cases heq
    exact pair.consumes hpair

/-- The statements of a text, or what is left of it where it goes on with none. -/
def statements (s : List Char) : Except (List Char) (List Statement) :=
  match _hgap : skipGap s with
  | [] => .ok []
  | c :: r =>
    match _hstatement : statement (c :: r) with
    | none => .error (c :: r)
    | some (a, r) =>
      match _hline : lineEnd r with
      | none => .error r
      | some rest => (statements rest).map (a :: ·)
termination_by s.length
decreasing_by
  have h₁ := length_lt_of_skipGap _hgap
  have h₂ := length_lt_of_statement _hstatement
  have h₃ := length_le_of_lineEnd _hline
  simp only [List.length_cons] at h₂
  omega

/-! ## Sections -/

structure Section where
  isArray : Bool
  key : Key
  pairs : List (Key × Value)
  deriving Repr

structure Outline where
  pairs : List (Key × Value)
  sections : List Section
  deriving Repr

def Outline.ofStatements : List Statement → Outline
  | [] => ⟨[], []⟩
  | .pair k v :: rest =>
    let outline := ofStatements rest
    ⟨(k, v) :: outline.pairs, outline.sections⟩
  | .header k :: rest =>
    let outline := ofStatements rest
    ⟨[], ⟨false, k, outline.pairs⟩ :: outline.sections⟩
  | .arrayHeader k :: rest =>
    let outline := ofStatements rest
    ⟨[], ⟨true, k, outline.pairs⟩ :: outline.sections⟩

/-- The text without the byte order mark that may stand at its front. -/
def withoutMark (text : List Char) : List Char :=
  if text.head? = some '\uFEFF' then text.drop 1 else text

end LetterPages.Toml
