import LetterPages.Text.Utf8

/-!
# Environments

An environment gives byte strings to names. In a text, a name between `${` and `}` stands for the
value of its variable. The values are put in all at once; a variable that is not set, or whose value
is not text, leaves the text as written.
-/

namespace LetterPages

structure Environment where
  bindings : List (String × Bytes)
  deriving Repr

namespace Environment

def empty : Environment :=
  ⟨[]⟩

def text? (env : Environment) (name : List Char) : Option (List Char) := do
  Utf8.decode? (← env.bindings.lookup (String.ofList name))

def isNameStart (c : Char) : Bool :=
  ('A' ≤ c && c ≤ 'Z') || ('a' ≤ c && c ≤ 'z') || c == '_'

def isNamePart (c : Char) : Bool :=
  isNameStart c || ('0' ≤ c && c ≤ '9')

/-- The name that follows an opening `${`, and what follows its closing brace. -/
def reference? (s : List Char) : Option (List Char × List Char) :=
  match s with
  | [] => none
  | c :: r =>
    if isNameStart c then
      match r.dropWhile isNamePart with
      | '\x7d' :: rest => some (c :: r.takeWhile isNamePart, rest)
      | _ => none
    else none

theorem length_lt_of_reference? {s name rest : List Char} (h : reference? s = some (name, rest)) :
    rest.length < s.length := by
  unfold reference? at h
  split at h
  · cases h
  · rename_i c r
    split at h
    · split at h
      · rename_i hdrop
        cases h
        have hle : (r.dropWhile isNamePart).length ≤ r.length :=
          (List.dropWhile_sublist _).length_le
        rw [hdrop] at hle
        simp only [List.length_cons] at hle ⊢
        omega
      · cases h
    · cases h

def written (name : List Char) : List Char :=
  ['$', '\x7b'] ++ name ++ ['\x7d']

def expand (env : Environment) (s : List Char) : List Char :=
  match s with
  | [] => []
  | '$' :: '\x7b' :: r =>
    match _h : reference? r with
    | some (name, rest) => (env.text? name).getD (written name) ++ expand env rest
    | none => '$' :: expand env ('\x7b' :: r)
  | c :: r => c :: expand env r
termination_by s.length
decreasing_by
  · have := length_lt_of_reference? (by assumption)
    simp only [List.length_cons]
    omega
  · simp
  · simp

def references (s : List Char) : List (List Char) :=
  match s with
  | [] => []
  | '$' :: '\x7b' :: r =>
    match _h : reference? r with
    | some (name, rest) => name :: references rest
    | none => references ('\x7b' :: r)
  | _ :: r => references r
termination_by s.length
decreasing_by
  · have := length_lt_of_reference? (by assumption)
    simp only [List.length_cons]
    omega
  · simp
  · simp

end Environment

end LetterPages
