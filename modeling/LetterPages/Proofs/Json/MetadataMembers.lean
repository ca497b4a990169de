import LetterPages.Proofs.Json.SpelledSizes

/-!
# Members of the metadata

The members of a JSON object are taken into a draft one after the other. What the draft holds after
them is told slot by slot from the members with its name, wherever they stand, and a member whose
slot is filled already is a problem.
-/

namespace LetterPages.Json

/-! ## The grammar -/

/-- A member of an object: its name and what is written for its value. -/
inductive SpellsEntry : List Char → String × List Char → Prop
  | colon {n b b' w : List Char} {name : String} (hn : SpellsString n name) (hb : IsBlanks b)
      (hb' : IsBlanks b') (hw : IsValue w) :
      SpellsEntry (n ++ (b ++ ':' :: (b' ++ w))) (name, w)

inductive SpellsObject : List Char → List (String × List Char) → Prop
  | braces {s : List Char} {members : List (String × List Char)}
      (h : SpellsItems SpellsEntry s members) : SpellsObject ('\x7b' :: (s ++ ['\x7d'])) members

/-- A value that stands for what is written. -/
def IsWritten (s w : List Char) : Prop :=
  s = w ∧ IsValue w

/-- What is written for the members with this name, in order. -/
def valuesOf (name : String) (members : List (String × List Char)) : List (List Char) :=
  members.filterMap fun m => if m.1 = name then some m.2 else none

def fieldNames : List String :=
  ["total_letters", "chunks", "chunk_size", "fields"]

/-- There is one member with this name, and this is its value. -/
def Holds {α : Type} (name : String) (spells : List Char → α → Prop)
    (members : List (String × List Char)) (a : α) : Prop :=
  ∃ w, valuesOf name members = [w] ∧ spells w a

/-- The members give the metadata, in whatever order and among whatever others. -/
structure Describes (members : List (String × List Char)) (m : Metadata) : Prop where
  totalLetters : Holds "total_letters" SpellsSize members m.totalLetters
  chunks : Holds "chunks" SpellsSize members m.chunks
  chunkSize : Holds "chunk_size" SpellsSize members m.chunkSize
  fields : Holds "fields" (SpellsArray SpellsString) members m.fields

/-- The members of the metadata have values of the right kind. -/
structure Fits (members : List (String × List Char)) : Prop where
  sizes : ∀ name ∈ ["total_letters", "chunks", "chunk_size"], ∀ w ∈ valuesOf name members,
    ∃ n, SpellsSize w n
  fields : ∀ w ∈ valuesOf "fields" members, ∃ l, SpellsArray SpellsString w l

/-! ## Values of the right kind -/

theorem skipBlanks_value {b w : List Char} (hb : IsBlanks b) (hw : IsValue w) :
    skipBlanks (Utf8.encode (b ++ w)) = Utf8.encode w := by
  obtain ⟨x, t, hbytes, hx⟩ := hw.opening
  rw [Utf8.encode_append, hbytes]
  exact skipBlanks_append hb hx.1 t

theorem strings_read : ReadsValues (array string) (SpellsArray SpellsString) := by
  intro b w rest rest' l hb hw hrest
  rw [exact_string.array.run_eq_ok_iff]
  constructor
  · rintro ⟨b', w', hb', hw', hbytes⟩
    obtain ⟨s, rfl, hs⟩ := hw'.isPart
    have hpassed := skipped_isValue hb hw hrest
    have hpassed' : skipped (Utf8.encode (b' ++ Frame.list.left :: (s ++ [Frame.list.right])) ++
        rest') = .ok rest' := (hs.passes hb').trans (by rw [skipping])
    rw [← hbytes, hpassed] at hpassed'
    cases hpassed'
    have hsame := congrArg skipBlanks (List.append_cancel_right hbytes)
    rw [skipBlanks_value hb hw, skipBlanks_value hb' (.nested hs)] at hsame
    exact ⟨rfl, Utf8.encode_inj hsame ▸ hw'⟩
  · rintro ⟨rfl, hl⟩
    exact ⟨b, w, hb, hl, rfl⟩

/-- What stands behind the name of a member. -/
theorem colon_value {b b' w : List Char} (hb : IsBlanks b) (rest : Bytes) :
    colon (Utf8.encode (b ++ ':' :: (b' ++ w)) ++ rest) = .ok (Utf8.encode (b' ++ w) ++ rest) := by
  refine colon_eq_ok_iff.mpr ⟨b, hb, ?_⟩
  simp only [Utf8.encode_append, Utf8.encode_cons, Utf8.encode_nil, List.append_assoc,
    List.nil_append]

theorem slot_eq_ok_iff {α : Type} {reader : Reader α} {spells : List Char → α → Prop}
    (hreads : ReadsValues reader spells) {b b' w : List Char} (hb : IsBlanks b)
    (hb' : IsBlanks b') (hw : IsValue w) {rest rest' : Bytes} (hrest : Ended rest) {name : String}
    {old : Option α} {a : α} :
    slot name old reader (Utf8.encode (b ++ ':' :: (b' ++ w)) ++ rest) = .ok (a, rest') ↔
      rest' = rest ∧ old = none ∧ spells w a := by
  rw [slot, colon_value hb]
  cases old with
  | none => exact (hreads hb' hw hrest).trans (by rw [and_iff_right rfl])
  | some a' =>
    constructor
    · rintro ⟨⟩
    · rintro ⟨-, hold, -⟩
      cases hold

/-! ## Slots -/

section

variable {α : Type} {name : String} {spells : List Char → α → Prop}
  {members more : List (String × List Char)} {old new : Option α}

/-- What a slot holds after members: what it held before, or the value of the one with its name if
it was empty. -/
inductive SlotAfter (name : String) (spells : List Char → α → Prop)
    (members : List (String × List Char)) : Option α → Option α → Prop
  | kept {old : Option α} (h : valuesOf name members = []) : SlotAfter name spells members old old
  | filled {w : List Char} {a : α} (h : valuesOf name members = [w]) (hw : spells w a) :
      SlotAfter name spells members none (some a)

theorem mem_valuesOf {w : List Char} : w ∈ valuesOf name members ↔ (name, w) ∈ members := by
  rw [valuesOf, List.mem_filterMap]
  constructor
  · rintro ⟨⟨known, v⟩, hm, hw⟩
    split at hw
    next hname =>
      cases hw
      exact hname ▸ hm
    next => cases hw
  · exact fun h => ⟨_, h, if_pos rfl⟩

theorem valuesOf_append (name : String) (members more : List (String × List Char)) :
    valuesOf name (members ++ more) = valuesOf name members ++ valuesOf name more :=
  List.filterMap_append

theorem slotAfter_append : SlotAfter name spells (members ++ more) old new ↔
    ∃ mid, SlotAfter name spells members old mid ∧ SlotAfter name spells more mid new := by
  constructor
  · intro h
    cases h with
    | kept h =>
      rw [valuesOf_append, List.append_eq_nil_iff] at h
      exact ⟨old, .kept h.1, .kept h.2⟩
    | filled h hw =>
      rw [valuesOf_append, List.append_eq_singleton_iff] at h
      rcases h with ⟨hmembers, hmore⟩ | ⟨hmembers, hmore⟩
      · exact ⟨none, .kept hmembers, .filled hmore hw⟩
      · exact ⟨_, .filled hmembers hw, .kept hmore⟩
  · rintro ⟨mid, hmembers, hmore⟩
    cases hmembers with
    | kept h =>
      cases hmore with
      | kept h' => exact .kept (by rw [valuesOf_append, h, h']; rfl)
      | filled h' hw => exact .filled (by rw [valuesOf_append, h, h']; rfl) hw
    | filled h hw =>
      cases hmore with
      | kept h' => exact .filled (by rw [valuesOf_append, h, h']; rfl) hw

theorem slotAfter_nil : SlotAfter name spells [] old new ↔ new = old := by
  constructor
  · intro h
    cases h with
    | kept => rfl
    | filled h => cases h
  · rintro rfl
    exact .kept rfl

theorem slotAfter_same {w : List Char} : SlotAfter name spells [(name, w)] old new ↔
    old = none ∧ ∃ a, spells w a ∧ new = some a := by
  have hvalues : valuesOf name [(name, w)] = [w] := List.filterMap_cons_some (if_pos rfl)
  constructor
  · intro h
    cases h with
    | kept h =>
      rw [hvalues] at h
      cases h
    | filled h hw =>
      rw [hvalues] at h
      cases h
      exact ⟨rfl, _, hw, rfl⟩
  · rintro ⟨rfl, a, hw, rfl⟩
    exact .filled hvalues hw

theorem slotAfter_other {other : String} (hother : other ≠ name) {w : List Char} :
    SlotAfter name spells [(other, w)] old new ↔ new = old := by
  have hvalues : valuesOf name [(other, w)] = [] := List.filterMap_cons_none (if_neg hother)
  constructor
  · intro h
    cases h with
    | kept => rfl
    | filled h =>
      rw [hvalues] at h
      cases h
  · rintro rfl
    exact .kept hvalues

theorem slotAfter_none_some_iff {a : α} :
    SlotAfter name spells members none (some a) ↔ Holds name spells members a := by
  constructor
  · intro h
    cases h with
    | filled h hw => exact ⟨_, h, hw⟩
  · rintro ⟨w, h, hw⟩
    exact .filled h hw

theorem exists_slotAfter (hfits : ∀ w ∈ valuesOf name members, ∃ a, spells w a)
    (honce : (valuesOf name members).length ≤ 1) :
    ∃ new, SlotAfter name spells members none new := by
  cases hvalues : valuesOf name members with
  | nil => exact ⟨none, .kept hvalues⟩
  | cons w ws =>
    rw [hvalues] at hfits honce
    obtain rfl : ws = [] :=
      List.length_eq_zero_iff.mp (Nat.le_zero.mp (Nat.le_of_succ_le_succ honce))
    obtain ⟨a, ha⟩ := hfits w List.mem_cons_self
    exact ⟨some a, .filled hvalues ha⟩

theorem SlotAfter.isSome_iff (h : SlotAfter name spells members none new) :
    new.isSome = true ↔ valuesOf name members ≠ [] := by
  cases h with
  | kept h => rw [h]; simp
  | filled h => rw [h]; simp

end

/-! ## Drafts -/

/-- What a draft holds after members. -/
structure Draft.After (members : List (String × List Char)) (d d' : Draft) : Prop where
  totalLetters : SlotAfter "total_letters" SpellsSize members d.totalLetters d'.totalLetters
  chunks : SlotAfter "chunks" SpellsSize members d.chunks d'.chunks
  chunkSize : SlotAfter "chunk_size" SpellsSize members d.chunkSize d'.chunkSize
  fields : SlotAfter "fields" (SpellsArray SpellsString) members d.fields d'.fields

namespace Draft

variable {d d' : Draft} {members more : List (String × List Char)}

theorem eq_iff : d' = d ↔ d'.totalLetters = d.totalLetters ∧ d'.chunks = d.chunks ∧
    d'.chunkSize = d.chunkSize ∧ d'.fields = d.fields := by
  cases d
  cases d'
  rw [Draft.mk.injEq]

theorem after_iff : After members d d' ↔
    SlotAfter "total_letters" SpellsSize members d.totalLetters d'.totalLetters ∧
      SlotAfter "chunks" SpellsSize members d.chunks d'.chunks ∧
      SlotAfter "chunk_size" SpellsSize members d.chunkSize d'.chunkSize ∧
      SlotAfter "fields" (SpellsArray SpellsString) members d.fields d'.fields :=
  ⟨fun ⟨h₁, h₂, h₃, h₄⟩ => ⟨h₁, h₂, h₃, h₄⟩, fun ⟨h₁, h₂, h₃, h₄⟩ => ⟨h₁, h₂, h₃, h₄⟩⟩

theorem after_nil : After [] d d' ↔ d' = d := by
  rw [eq_iff, after_iff, slotAfter_nil, slotAfter_nil, slotAfter_nil, slotAfter_nil]

theorem after_append :
    After (members ++ more) d d' ↔ ∃ mid, After members d mid ∧ After more mid d' := by
  constructor
  · rintro ⟨h₁, h₂, h₃, h₄⟩
    obtain ⟨mid₁, hmid₁, hmore₁⟩ := slotAfter_append.mp h₁
    obtain ⟨mid₂, hmid₂, hmore₂⟩ := slotAfter_append.mp h₂
    obtain ⟨mid₃, hmid₃, hmore₃⟩ := slotAfter_append.mp h₃
    obtain ⟨mid₄, hmid₄, hmore₄⟩ := slotAfter_append.mp h₄
    exact ⟨⟨mid₁, mid₂, mid₃, mid₄⟩, ⟨hmid₁, hmid₂, hmid₃, hmid₄⟩,
      ⟨hmore₁, hmore₂, hmore₃, hmore₄⟩⟩
  · rintro ⟨mid, hmid, hmore⟩
    exact ⟨slotAfter_append.mpr ⟨_, hmid.totalLetters, hmore.totalLetters⟩,
      slotAfter_append.mpr ⟨_, hmid.chunks, hmore.chunks⟩,
      slotAfter_append.mpr ⟨_, hmid.chunkSize, hmore.chunkSize⟩,
      slotAfter_append.mpr ⟨_, hmid.fields, hmore.fields⟩⟩

theorem after_cons {e : String × List Char} :
    After (e :: more) d d' ↔ ∃ mid, After [e] d mid ∧ After more mid d' := by
  rw [← List.singleton_append, after_append]

section

variable {w : List Char}

/-- Only the slot of its name is changed by a member. -/
theorem after_totalLetters : After [("total_letters", w)] d d' ↔
    d.totalLetters = none ∧ ∃ n, SpellsSize w n ∧ d' = { d with totalLetters := some n } := by
  simp only [eq_iff, after_iff, slotAfter_same, slotAfter_other, ne_eq, String.reduceEq,
    not_false_eq_true]
  grind

theorem after_chunks : After [("chunks", w)] d d' ↔
    d.chunks = none ∧ ∃ n, SpellsSize w n ∧ d' = { d with chunks := some n } := by
  simp only [eq_iff, after_iff, slotAfter_same, slotAfter_other, ne_eq, String.reduceEq,
    not_false_eq_true]
  grind

theorem after_chunkSize : After [("chunk_size", w)] d d' ↔
    d.chunkSize = none ∧ ∃ n, SpellsSize w n ∧ d' = { d with chunkSize := some n } := by
  simp only [eq_iff, after_iff, slotAfter_same, slotAfter_other, ne_eq, String.reduceEq,
    not_false_eq_true]
  grind

theorem after_fields : After [("fields", w)] d d' ↔
    d.fields = none ∧ ∃ l, SpellsArray SpellsString w l ∧ d' = { d with fields := some l } := by
  simp only [eq_iff, after_iff, slotAfter_same, slotAfter_other, ne_eq, String.reduceEq,
    not_false_eq_true]
  grind

theorem after_other {name : String} (h : name ∉ fieldNames) : After [(name, w)] d d' ↔ d' = d := by
  simp only [fieldNames, List.mem_cons, List.not_mem_nil, or_false, not_or] at h
  obtain ⟨h₁, h₂, h₃, h₄⟩ := h
  rw [eq_iff, after_iff, slotAfter_other h₁, slotAfter_other h₂, slotAfter_other h₃,
    slotAfter_other h₄]

end

/-- The slot of this name is filled. -/
def holds (d : Draft) (name : String) : Bool :=
  if name = "total_letters" then d.totalLetters.isSome
  else if name = "chunks" then d.chunks.isSome
  else if name = "chunk_size" then d.chunkSize.isSome
  else if name = "fields" then d.fields.isSome
  else false

theorem After.holds_iff (h : After members .empty d) {name : String} (hname : name ∈ fieldNames) :
    d.holds name = true ↔ valuesOf name members ≠ [] := by
  simp only [fieldNames, List.mem_cons, List.not_mem_nil, or_false] at hname
  rcases hname with rfl | rfl | rfl | rfl
  · exact h.totalLetters.isSome_iff
  · exact h.chunks.isSome_iff
  · exact h.chunkSize.isSome_iff
  · exact h.fields.isSome_iff

theorem exists_after (hfits : Fits members)
    (honce : ∀ name ∈ fieldNames, (valuesOf name members).length ≤ 1) :
    ∃ d, After members .empty d := by
  obtain ⟨totalLetters, h₁⟩ :=
    exists_slotAfter (hfits.sizes "total_letters" (by decide)) (honce _ (by decide))
  obtain ⟨chunks, h₂⟩ := exists_slotAfter (hfits.sizes "chunks" (by decide)) (honce _ (by decide))
  obtain ⟨chunkSize, h₃⟩ :=
    exists_slotAfter (hfits.sizes "chunk_size" (by decide)) (honce _ (by decide))
  obtain ⟨fields, h₄⟩ := exists_slotAfter hfits.fields (honce _ (by decide))
  exact ⟨⟨totalLetters, chunks, chunkSize, fields⟩, h₁, h₂, h₃, h₄⟩

/-! ### Taking a member -/

theorem take_holds {name : String} (h : d.holds name = true) (s : Bytes) :
    d.take name s = .error (.repeated name) := by
  unfold holds at h
  unfold take slot
  split at h
  next hname => rw [if_pos hname, if_pos h]; rfl
  next hname =>
    rw [if_neg hname]
    split at h
    next hname => rw [if_pos hname, if_pos h]; rfl
    next hname =>
      rw [if_neg hname]
      split at h
      next hname => rw [if_pos hname, if_pos h]; rfl
      next hname =>
        rw [if_neg hname]
        split at h
        next hname => rw [if_pos hname, if_pos h]; rfl
        next => cases h

section

variable {b b' w : List Char} {rest rest' : Bytes} (hb : IsBlanks b) (hb' : IsBlanks b')
  (hw : IsValue w) (hrest : Ended rest)

include hb hb' hw hrest

theorem slot_map_eq_ok_iff {α : Type} {name : String} {old : Option α} {reader : Reader α}
    {spells : List Char → α → Prop} (hreads : ReadsValues reader spells) (set : α → Draft) :
    (slot name old reader (Utf8.encode (b ++ ':' :: (b' ++ w)) ++ rest)).map
      (fun v => (set v.1, v.2)) = .ok (d', rest') ↔
        rest' = rest ∧ old = none ∧ ∃ a, spells w a ∧ d' = set a := by
  constructor
  · intro h
    obtain ⟨⟨a, r⟩, hslot, heq⟩ := exists_of_map_eq_ok h
    obtain ⟨rfl, hold, ha⟩ := (slot_eq_ok_iff hreads hb hb' hw hrest).mp hslot
    cases heq
    exact ⟨rfl, hold, a, ha, rfl⟩
  · rintro ⟨rfl, hold, a, ha, rfl⟩
    rw [(slot_eq_ok_iff hreads hb hb' hw hrest).mpr ⟨rfl, hold, ha⟩]
    rfl

/-- A member is taken to its end, and what the draft holds then is told from its name and its
value. -/
theorem take_eq_ok_iff {name : String} :
    d.take name (Utf8.encode (b ++ ':' :: (b' ++ w)) ++ rest) = .ok (d', rest') ↔
      rest' = rest ∧ After [(name, w)] d d' := by
  unfold take
  split
  next hname =>
    rw [hname, after_totalLetters]
    exact slot_map_eq_ok_iff hb hb' hw hrest size_reads fun n => { d with totalLetters := some n }
  next h₁ =>
    split
    next hname =>
      rw [hname, after_chunks]
      exact slot_map_eq_ok_iff hb hb' hw hrest size_reads fun n => { d with chunks := some n }
    next h₂ =>
      split
      next hname =>
        rw [hname, after_chunkSize]
        exact slot_map_eq_ok_iff hb hb' hw hrest size_reads fun n => { d with chunkSize := some n }
      next h₃ =>
        split
        next hname =>
          rw [hname, after_fields]
          exact slot_map_eq_ok_iff hb hb' hw hrest strings_read fun l => { d with fields := some l }
        next h₄ =>
          have hother : name ∉ fieldNames := by simp [fieldNames, h₁, h₂, h₃, h₄]
          have hpassed : passedOver (Utf8.encode (b ++ ':' :: (b' ++ w)) ++ rest) = .ok rest := by
            rw [passedOver, colon_value hb]
            exact skipped_isValue hb' hw hrest
          rw [after_other hother, hpassed]
          constructor
          · rintro ⟨⟩
            exact ⟨rfl, rfl⟩
          · rintro ⟨rfl, rfl⟩
            rfl

end

end Draft

/-! ## Members of an object -/

theorem SpellsEntry.isPart {s : List Char} {e : String × List Char} (h : SpellsEntry s e) :
    IsPart (.entry .map) s := by
  obtain ⟨⟨hn⟩, hb, hb', hw⟩ := h
  rw [List.cons_append, List.append_assoc]
  exact .member hn.isOutline hb hb' hw

theorem draftMembers_bind {d : Draft} {isFirst : Bool} {s r r' : Bytes} {name : String}
    (hnext : nextMember isFirst s = .ok (.item r)) (hname : stringText r = .ok (name, r')) :
    draftMembers d isFirst s = d.take name r' >>= fun v => draftMembers v.1 false v.2 := by
  rw [draftMembers]
  split <;> rename_i heq <;> rw [hnext] at heq <;> cases heq
  split <;> rename_i heq <;> rw [hname] at heq <;> cases heq
  split <;> rename_i heq <;> rw [heq] <;> rfl

section

variable {d : Draft} {isFirst : Bool} {lead s : List Char} {e : String × List Char} {more : Bytes}
  (hnext : ∀ r, nextMember isFirst (Utf8.encode lead ++ 0x22 :: r) = .ok (.item r))
  (he : SpellsEntry s e)

include hnext he

variable (d more) in
theorem exists_take : ∃ x, (draftMembers d isFirst (Utf8.encode (lead ++ s) ++ more) =
      d.take e.1 x >>= fun v => draftMembers v.1 false v.2) ∧
    (Ended more → ∀ {d' rest'}, d.take e.1 x = .ok (d', rest') ↔
      rest' = more ∧ Draft.After [e] d d') := by
  obtain @⟨_, b, b', w, name, @⟨n, _, hn⟩, hb, hb', hw⟩ := he
  refine ⟨Utf8.encode (b ++ ':' :: (b' ++ w)) ++ more, ?_,
    fun hmore => Draft.take_eq_ok_iff hb hb' hw hmore⟩
  have hbytes : Utf8.encode (lead ++ ('"' :: (n ++ ['"']) ++ (b ++ ':' :: (b' ++ w)))) ++ more =
      Utf8.encode lead ++ 0x22 :: (Utf8.encode n ++ 0x22 ::
        (Utf8.encode (b ++ ':' :: (b' ++ w)) ++ more)) := by
    simp only [Utf8.encode_append, Utf8.encode_cons, List.append_assoc, List.cons_append,
      List.nil_append]
    rfl
  rw [hbytes]
  exact draftMembers_bind (hnext _) (stringText_eq_ok_iff.mpr ⟨n, hn, rfl⟩)

/-- A member that the draft takes leads to the members after it. -/
theorem draftMembers_entry (hmore : Ended more) {mid : Draft} (h : Draft.After [e] d mid) :
    draftMembers d isFirst (Utf8.encode (lead ++ s) ++ more) = draftMembers mid false more := by
  obtain ⟨x, hread, htake⟩ := exists_take d more hnext he
  rw [hread, (htake hmore).mpr ⟨rfl, h⟩]
  rfl

theorem exists_after_of_draftMembers (hmore : Ended more) {v : Draft × Bytes}
    (h : draftMembers d isFirst (Utf8.encode (lead ++ s) ++ more) = .ok v) :
    ∃ mid, Draft.After [e] d mid ∧ draftMembers mid false more = .ok v := by
  obtain ⟨x, hread, htake⟩ := exists_take d more hnext he
  rw [hread] at h
  obtain ⟨⟨mid, rest⟩, hmid, hrest⟩ := exists_of_bind_eq_ok h
  obtain ⟨rfl, hafter⟩ := (htake hmore).mp hmid
  exact ⟨mid, hafter, hrest⟩

variable (more) in
theorem draftMembers_entry_repeated (h : d.holds e.1 = true) :
    draftMembers d isFirst (Utf8.encode (lead ++ s) ++ more) = .error (.repeated e.1) := by
  obtain ⟨x, hread, -⟩ := exists_take d more hnext he
  rw [hread, Draft.take_holds h]
  rfl

end

/-- The members of an object from its first one on, or from a later one on. -/
def SpellsFrom : Bool → List Char → List (String × List Char) → Prop
  | true => SpellsItems SpellsEntry
  | false => SpellsMore SpellsEntry

section

variable {isFirst : Bool} {s : List Char} {d d' : Draft}

theorem SpellsFrom.isBlanks (h : SpellsFrom isFirst s []) : IsBlanks s := by
  cases isFirst with
  | true =>
    cases h with
    | none hb => exact hb
  | false =>
    cases h with
    | done hb => exact hb

theorem SpellsFrom.exists_cons {e : String × List Char} {members : List (String × List Char)}
    (h : SpellsFrom isFirst s (e :: members)) : ∃ lead t u, s = lead ++ (t ++ u) ∧
      (∀ r, nextMember isFirst (Utf8.encode lead ++ 0x22 :: r) = .ok (.item r)) ∧
        SpellsEntry t e ∧ SpellsFrom false u members := by
  cases isFirst with
  | true =>
    cases h with
    | @items b t u _ _ hb he hmore =>
      exact ⟨b, t, u, rfl,
        fun r => nextMember_eq_ok_iff.mpr (.inr (.inl ⟨rfl, b, r, hb, rfl, rfl⟩)), he, hmore⟩
  | false =>
    cases h with
    | @item v b t u _ _ hv hb he hmore =>
      refine ⟨v ++ ',' :: b, t, u, ?_,
        fun r => nextMember_eq_ok_iff.mpr (.inr (.inr ⟨rfl, v, b, r, hv, hb, rfl, rfl⟩)), he, hmore⟩
      rw [List.append_assoc, List.cons_append]

theorem SpellsFrom.ended {members : List (String × List Char)} (h : SpellsFrom false s members)
    (rest : Bytes) : Ended (Utf8.encode (s ++ ['\x7d']) ++ rest) :=
  (SpellsMore.isPart SpellsEntry.isPart h).ended rest

theorem draftMembers_close (hb : IsBlanks s) (rest : Bytes) :
    draftMembers d isFirst (Utf8.encode (s ++ ['\x7d']) ++ rest) = .ok (d, rest) :=
  draftMembers_stop d (nextMember_eq_ok_iff.mpr (.inl ⟨s, rest, hb, rfl, rfl⟩))

/-- The members of an object are read to the closing brace exactly where the draft takes them one
after the other. -/
theorem draftMembers_eq_ok_iff {members : List (String × List Char)}
    (h : SpellsFrom isFirst s members) {rest rest' : Bytes} :
    draftMembers d isFirst (Utf8.encode (s ++ ['\x7d']) ++ rest) = .ok (d', rest') ↔
      rest' = rest ∧ Draft.After members d d' := by
  -- The draft grows with each member, so both it and where the reading stands are general.
  induction members generalizing isFirst s d with
  | nil =>
    rw [draftMembers_close h.isBlanks, Draft.after_nil]
    constructor
    · rintro ⟨⟩
      exact ⟨rfl, rfl⟩
    · rintro ⟨rfl, rfl⟩
      rfl
  | cons e members ih =>
    obtain ⟨lead, t, u, rfl, hnext, he, hmore⟩ := h.exists_cons
    have hended := hmore.ended rest
    have hbytes : Utf8.encode (lead ++ (t ++ u) ++ ['\x7d']) ++ rest =
        Utf8.encode (lead ++ t) ++ (Utf8.encode (u ++ ['\x7d']) ++ rest) := by
      simp only [Utf8.encode_append, List.append_assoc]
    rw [hbytes, Draft.after_cons]
    constructor
    · intro h
      obtain ⟨mid, hmid, hrest⟩ := exists_after_of_draftMembers hnext he hended h
      obtain ⟨rfl, hafter⟩ := (ih hmore).mp hrest
      exact ⟨rfl, mid, hmid, hafter⟩
    · rintro ⟨hrest, mid, hmid, hafter⟩
      rw [draftMembers_entry hnext he hended hmid]
      exact (ih hmore).mpr ⟨hrest, hafter⟩

/-- The first member whose slot is filled already is the problem, whatever comes after it. -/
theorem draftMembers_repeated {before after : List (String × List Char)} {e : String × List Char}
    (h : SpellsFrom isFirst s (before ++ e :: after)) (hbefore : Draft.After before d d')
    (hholds : d'.holds e.1 = true) (rest : Bytes) :
    draftMembers d isFirst (Utf8.encode (s ++ ['\x7d']) ++ rest) = .error (.repeated e.1) := by
  induction before generalizing isFirst s d with
  | nil =>
    obtain rfl := Draft.after_nil.mp hbefore
    obtain ⟨lead, t, u, rfl, hnext, he, -⟩ := h.exists_cons
    have hread := draftMembers_entry_repeated (Utf8.encode (u ++ ['\x7d']) ++ rest) hnext he hholds
    simp only [Utf8.encode_append, List.append_assoc] at hread ⊢
    exact hread
  | cons e' before ih =>
    obtain ⟨mid, hmid, hafter⟩ := Draft.after_cons.mp hbefore
    obtain ⟨lead, t, u, rfl, hnext, he, hmore⟩ := h.exists_cons
    have hread := draftMembers_entry hnext he (hmore.ended rest) hmid
    rw [ih hmore hafter] at hread
    simp only [Utf8.encode_append, List.append_assoc] at hread ⊢
    exact hread

end

end LetterPages.Json
