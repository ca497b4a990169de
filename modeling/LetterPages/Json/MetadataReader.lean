import LetterPages.Basic
import LetterPages.Json.Skipped
import LetterPages.Metadata

/-!
# Reading the metadata from JSON

The metadata is an object with four members in any order, or an array of their four values. A
member may not stand twice, and members with other names are passed over.
-/

namespace LetterPages.Json

structure Draft where
  totalLetters : Option UInt64
  chunks : Option UInt64
  chunkSize : Option UInt64
  fields : Option (List String)
  deriving DecidableEq, Repr

namespace Draft

def empty : Draft :=
  ⟨none, none, none, none⟩

/-- The metadata, or the first member that is missing. -/
def complete (d : Draft) : Except Problem Metadata :=
  match d.totalLetters, d.chunks, d.chunkSize, d.fields with
  | some totalLetters, some chunks, some chunkSize, some fields =>
    .ok ⟨totalLetters, chunks, chunkSize, fields⟩
  | none, _, _, _ => .error (.missing "total_letters")
  | _, none, _, _ => .error (.missing "chunks")
  | _, _, none, _ => .error (.missing "chunk_size")
  | _, _, _, none => .error (.missing "fields")

end Draft

/-- The value of the member `name`, which must be its first one. -/
def slot {α : Type} (name : String) (old : Option α) (reader : Reader α) (s : Bytes) :
    Except Problem (α × Bytes) :=
  if old.isSome then .error (.repeated name)
  else match colon s with
    | .error p => .error p
    | .ok r => reader.run r

theorem length_lt_of_slot {α : Type} {name : String} {old : Option α} {reader : Reader α}
    {s rest : Bytes} {a : α} (h : slot name old reader s = .ok (a, rest)) :
    rest.length < s.length := by
  unfold slot at h
  split at h
  · cases h
  · split at h
    · cases h
    · rename_i hcolon
      have h₁ := length_lt_of_colon hcolon
      have h₂ := reader.consumes h
      omega

/-- What follows the value of a member that nobody wants. -/
def passedOver (s : Bytes) : Except Problem Bytes :=
  match colon s with
  | .error p => .error p
  | .ok r => skipped r

theorem length_lt_of_passedOver {s rest : Bytes} (h : passedOver s = .ok rest) :
    rest.length < s.length := by
  unfold passedOver at h
  split at h
  · cases h
  · rename_i hcolon
    have h₁ := length_lt_of_colon hcolon
    have h₂ := length_le_of_skipped h
    omega

/-- The draft after the member `name`, whose name has been read. -/
def Draft.take (d : Draft) (name : String) (s : Bytes) : Except Problem (Draft × Bytes) :=
  if name = "total_letters" then
    (slot name d.totalLetters size s).map fun v => ({ d with totalLetters := some v.1 }, v.2)
  else if name = "chunks" then
    (slot name d.chunks size s).map fun v => ({ d with chunks := some v.1 }, v.2)
  else if name = "chunk_size" then
    (slot name d.chunkSize size s).map fun v => ({ d with chunkSize := some v.1 }, v.2)
  else if name = "fields" then
    (slot name d.fields (array string) s).map fun v => ({ d with fields := some v.1 }, v.2)
  else (passedOver s).map fun rest => (d, rest)

theorem length_lt_of_take {d d' : Draft} {name : String} {s rest : Bytes}
    (h : d.take name s = .ok (d', rest)) : rest.length < s.length := by
  unfold Draft.take at h
  split at h
  · obtain ⟨⟨_, _⟩, hslot, heq⟩ := exists_of_map_eq_ok h
    cases heq
    exact length_lt_of_slot hslot
  · split at h
    · obtain ⟨⟨_, _⟩, hslot, heq⟩ := exists_of_map_eq_ok h
      cases heq
      exact length_lt_of_slot hslot
    · split at h
      · obtain ⟨⟨_, _⟩, hslot, heq⟩ := exists_of_map_eq_ok h
        cases heq
        exact length_lt_of_slot hslot
      · split at h
        · obtain ⟨⟨_, _⟩, hslot, heq⟩ := exists_of_map_eq_ok h
          cases heq
          exact length_lt_of_slot hslot
        · obtain ⟨_, hpassed, heq⟩ := exists_of_map_eq_ok h
          cases heq
          exact length_lt_of_passedOver hpassed

/-- The draft at the closing brace. -/
def draftMembers (d : Draft) (isFirst : Bool) (s : Bytes) : Except Problem (Draft × Bytes) :=
  match _hnext : nextMember isFirst s with
  | .error p => .error p
  | .ok (.stop rest) => .ok (d, rest)
  | .ok (.item r) =>
    match _hname : stringText r with
    | .error p => .error p
    | .ok (name, r) =>
      match _htake : d.take name r with
      | .error p => .error p
      | .ok (d, r) => draftMembers d false r
termination_by s.length
decreasing_by
  have h₁ := length_lt_of_nextMember (.inl (by assumption))
  have h₂ := length_lt_of_stringText (by assumption)
  have h₃ := length_lt_of_take (by assumption)
  omega

/-- The value at a position of the array form. -/
def position {α : Type} (index : Nat) (reader : Reader α) (s : Bytes) :
    Except Problem (α × Bytes) :=
  match nextItem (index == 0) s with
  | .error p => .error p
  | .ok (.stop _) => .error (.tooShort index)
  | .ok (.item r) => reader.run r

def closingBracket (s : Bytes) : Except Problem Bytes :=
  match skipBlanks s with
  | [] => .error .unfinished
  | b :: r => if b = 0x5D then .ok r else .error .malformed

def metadataMembers (s : Bytes) : Except Problem (Metadata × Bytes) := do
  let (draft, rest) ← draftMembers .empty true s
  return (← draft.complete, rest)

def metadataItems (s : Bytes) : Except Problem (Metadata × Bytes) := do
  let (totalLetters, s) ← position 0 size s
  let (chunks, s) ← position 1 size s
  let (chunkSize, s) ← position 2 size s
  let (fields, s) ← position 3 (array string) s
  return (⟨totalLetters, chunks, chunkSize, fields⟩, ← closingBracket s)

def metadataFrom (b : UInt8) (r : Bytes) : Except Problem (Metadata × Bytes) :=
  if b = 0x7B then metadataMembers r
  else if b = 0x5B then metadataItems r
  else .error (otherwise .metadata b r)

def decodeMetadata (text : Bytes) : Except Problem Metadata := do
  match skipBlanks text with
  | [] => .error .unfinished
  | b :: r =>
    let (m, rest) ← metadataFrom b r
    ending m rest

end LetterPages.Json
