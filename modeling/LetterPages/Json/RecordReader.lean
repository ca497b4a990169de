import LetterPages.Json.Value
import LetterPages.Record

/-!
# Reading records from JSON

A record is an object of strings. Its members are kept in order, repeated names included. A chunk
file is an array of records.
-/

namespace LetterPages.Json

/-- A member whose opening quote has been read: its name, a colon and a string. -/
def textMember (s : Bytes) : Except Problem ((String × String) × Bytes) :=
  match stringText s with
  | .error p => .error p
  | .ok (name, r) =>
    match colon r with
    | .error p => .error p
    | .ok r =>
      match string.run r with
      | .error p => .error p
      | .ok (value, rest) => .ok ((name, value), rest)

theorem length_lt_of_textMember {s rest : Bytes} {m : String × String}
    (h : textMember s = .ok (m, rest)) : rest.length < s.length := by
  unfold textMember at h
  split at h
  · cases h
  · rename_i hname
    have h₁ := length_lt_of_stringText hname
    split at h
    · cases h
    · rename_i hcolon
      have h₂ := length_lt_of_colon hcolon
      split at h
      · cases h
      · rename_i hvalue
        cases h
        have h₃ := string.consumes hvalue
        omega

def textMembers (isFirst : Bool) (s : Bytes) :
    Except Problem (List (String × String) × Bytes) :=
  match _hnext : nextMember isFirst s with
  | .error p => .error p
  | .ok (.stop rest) => .ok ([], rest)
  | .ok (.item r) =>
    match _hmember : textMember r with
    | .error p => .error p
    | .ok (m, r) =>
      match textMembers false r with
      | .error p => .error p
      | .ok (more, rest) => .ok (m :: more, rest)
termination_by s.length
decreasing_by
  have h₁ := length_lt_of_nextMember (.inl (by assumption))
  have h₂ := length_lt_of_textMember (by assumption)
  omega

theorem length_lt_of_textMembers {isFirst : Bool} {s rest : Bytes} {l : List (String × String)}
    (h : textMembers isFirst s = .ok (l, rest)) : rest.length < s.length := by
  fun_induction textMembers isFirst s generalizing l rest with
  | case1 => cases h
  | case2 isFirst s r hnext =>
    cases h
    exact length_lt_of_nextMember (.inr hnext)
  | case3 => cases h
  | case4 => cases h
  | case5 isFirst s r hnext m r' hmember more rest' hmore ih =>
    cases h
    have h₁ := length_lt_of_nextMember (.inl hnext)
    have h₂ := length_lt_of_textMember hmember
    have h₃ := ih hmore
    omega

def recordFrom (b : UInt8) (r : Bytes) : Except Problem (Record × Bytes) :=
  if b = 0x7B then
    match textMembers true r with
    | .error p => .error p
    | .ok (fields, rest) => .ok (⟨fields⟩, rest)
  else .error (otherwise .record b r)

def record : Reader Record :=
  .ofFirst recordFrom (by
    intro b s a rest h
    unfold recordFrom at h
    split at h
    · split at h
      · cases h
      · rename_i hmembers
        cases h
        exact Nat.le_of_lt (length_lt_of_textMembers hmembers)
    · cases h)

def decodeRecords (text : Bytes) : Except Problem (List Record) :=
  (array record).whole text

end LetterPages.Json
