import Mathlib.Data.List.Find
import LetterPages.Proofs.Json.MetadataMembers
import LetterPages.Proofs.Json.Tokens

/-!
# Spelled metadata

The many ways to write the metadata as a JSON object: its members in any order, other members with
values of any kind between them, and blanks wherever a token may begin or end. What is decoded, and
which problem comes first, depends on the members alone.
-/

namespace LetterPages.Json

/-! ## Whole objects -/

theorem ending_blanks {α : Type} {b : List Char} (hb : IsBlanks b) (a : α) :
    ending a (Utf8.encode b) = .ok a :=
  if_pos (skipBlanks_eq_nil_iff.mpr ⟨b, hb, rfl⟩)

theorem skipBlanks_nested (frame : Frame) {b : List Char} (hb : IsBlanks b) (s b' : List Char) :
    skipBlanks (Utf8.encode (b ++ (frame.left :: (s ++ [frame.right]) ++ b'))) =
      frame.opening :: (Utf8.encode (s ++ [frame.right]) ++ Utf8.encode b') := by
  rw [Utf8.encode_append, Utf8.encode_append, frame.encode_left]
  exact skipBlanks_append hb frame.isBlank_opening _

theorem Draft.complete_eq_ok_iff {d : Draft} {m : Metadata} : d.complete = .ok m ↔
    d = ⟨some m.totalLetters, some m.chunks, some m.chunkSize, some m.fields⟩ := by
  obtain ⟨totalLetters, chunks, chunkSize, fields⟩ := d
  constructor
  · intro h
    unfold complete at h
    split at h
    next h₁ h₂ h₃ h₄ =>
      cases h
      dsimp only at h₁ h₂ h₃ h₄
      rw [h₁, h₂, h₃, h₄]
    all_goals cases h
  · intro h
    rw [h]
    rfl

/-- The problem is the first field in the order of their declaration that is missing. -/
theorem Draft.complete_missing {d : Draft} {name : String}
    (h : fieldNames.find? (fun known => !d.holds known) = some name) :
    d.complete = .error (.missing name) := by
  obtain ⟨totalLetters, chunks, chunkSize, fields⟩ := d
  cases totalLetters <;> cases chunks <;> cases chunkSize <;> cases fields <;> cases h <;> rfl

theorem Draft.after_empty_iff {members : List (String × List Char)} {m : Metadata} :
    After members .empty ⟨some m.totalLetters, some m.chunks, some m.chunkSize, some m.fields⟩ ↔
      Describes members m := by
  constructor
  · rintro ⟨h₁, h₂, h₃, h₄⟩
    exact ⟨slotAfter_none_some_iff.mp h₁, slotAfter_none_some_iff.mp h₂,
      slotAfter_none_some_iff.mp h₃, slotAfter_none_some_iff.mp h₄⟩
  · rintro ⟨h₁, h₂, h₃, h₄⟩
    exact ⟨slotAfter_none_some_iff.mpr h₁, slotAfter_none_some_iff.mpr h₂,
      slotAfter_none_some_iff.mpr h₃, slotAfter_none_some_iff.mpr h₄⟩

section

variable {text : List Char} {members : List (String × List Char)}
  (h : SpellsWhole SpellsObject text members)

include h

theorem exists_draftMembers : ∃ s b, SpellsFrom true s members ∧ IsBlanks b ∧
    decodeMetadata (Utf8.encode text) =
      draftMembers .empty true (Utf8.encode (s ++ ['\x7d']) ++ Utf8.encode b) >>=
        fun v => v.1.complete >>= fun m => ending m v.2 := by
  obtain @⟨b, _, b', _, hb, @⟨s, _, hs⟩, hb'⟩ := h
  refine ⟨s, b', hs, hb', ?_⟩
  have hskip : skipBlanks (Utf8.encode (b ++ ('\x7b' :: (s ++ ['\x7d']) ++ b'))) =
      0x7B :: (Utf8.encode (s ++ ['\x7d']) ++ Utf8.encode b') := skipBlanks_nested .map hb s b'
  rw [decodeMetadata, hskip]
  dsimp only
  rw [metadataFrom, if_pos rfl, metadataMembers]
  cases draftMembers .empty true (Utf8.encode (s ++ ['\x7d']) ++ Utf8.encode b') with
  | error p => rfl
  | ok v =>
    cases hcomplete : v.1.complete with
    | error p => simp only [bind, Except.bind, hcomplete]
    | ok m =>
      simp only [bind, Except.bind, hcomplete]
      rfl

theorem decodeMetadata_object_iff {m : Metadata} :
    decodeMetadata (Utf8.encode text) = .ok m ↔ Describes members m := by
  obtain ⟨s, b, hs, hb, hread⟩ := exists_draftMembers h
  rw [hread, ← Draft.after_empty_iff]
  constructor
  · intro hm
    obtain ⟨⟨d, r⟩, hdraft, hm⟩ := exists_of_bind_eq_ok hm
    obtain ⟨m', hcomplete, hm⟩ := exists_of_bind_eq_ok hm
    obtain ⟨rfl, hafter⟩ := (draftMembers_eq_ok_iff hs).mp hdraft
    dsimp only at hcomplete hm
    rw [ending_blanks hb] at hm
    cases hm
    exact Draft.complete_eq_ok_iff.mp hcomplete ▸ hafter
  · intro hafter
    rw [(draftMembers_eq_ok_iff hs).mpr ⟨rfl, hafter⟩]
    exact ending_blanks hb m

theorem decodeMetadata_repeated {before after : List (String × List Char)} {name : String}
    {w : List Char} (hmembers : members = before ++ (name, w) :: after) (hfits : Fits before)
    (honce : ∀ known ∈ fieldNames, (valuesOf known before).length ≤ 1) (hname : name ∈ fieldNames)
    (hbefore : valuesOf name before ≠ []) :
    decodeMetadata (Utf8.encode text) = .error (.repeated name) := by
  obtain ⟨s, b, hs, -, hread⟩ := exists_draftMembers h
  obtain ⟨d, hd⟩ := Draft.exists_after hfits honce
  rw [hmembers] at hs
  rw [hread, draftMembers_repeated hs hd ((hd.holds_iff hname).mpr hbefore)]
  rfl

theorem decodeMetadata_missing (hfits : Fits members)
    (honce : ∀ known ∈ fieldNames, (valuesOf known members).length ≤ 1) {name : String}
    (hname : fieldNames.find? (fun known => valuesOf known members = []) = some name) :
    decodeMetadata (Utf8.encode text) = .error (.missing name) := by
  obtain ⟨s, b, hs, -, hread⟩ := exists_draftMembers h
  obtain ⟨d, hd⟩ := Draft.exists_after hfits honce
  have hmissing : fieldNames.find? (fun known => !d.holds known) = some name := by
    rw [← hname]
    refine List.find?_congr fun known hknown => ?_
    have hholds := hd.holds_iff hknown
    by_cases hvalues : valuesOf known members = []
    · have hempty : d.holds known = false := by
        rw [← Bool.not_eq_true, hholds]
        exact not_not.mpr hvalues
      rw [hempty, decide_eq_true hvalues]
      rfl
    · rw [hholds.mpr hvalues, decide_eq_false hvalues]
      rfl
  rw [hread, (draftMembers_eq_ok_iff hs).mpr ⟨rfl, hd⟩]
  change (d.complete >>= fun m => ending m (Utf8.encode b)) = _
  rw [Draft.complete_missing hmissing]
  rfl

end

/-! ## The array form -/

theorem nextItem_opening {isFirst : Bool} {lead w : List Char} {rest : Bytes}
    (hlead : ∀ x r, IsOpening x →
      nextItem isFirst (Utf8.encode lead ++ x :: r) = .ok (.item (x :: r)))
    (hw : IsValue w) :
    nextItem isFirst (Utf8.encode (lead ++ w) ++ rest) = .ok (.item (Utf8.encode w ++ rest)) := by
  obtain ⟨x, t, hbytes, hx⟩ := hw.opening
  rw [Utf8.encode_append, List.append_assoc, hbytes]
  exact hlead x _ hx

section

variable {α : Type} {reader : Reader α} {spells : List Char → α → Prop} {w : List Char}
  {l : List (List Char)} {a : α} {rest rest' : Bytes}

theorem position_eq_ok_iff (hreads : ReadsValues reader spells) {index : Nat} {lead : List Char}
    (hlead : ∀ x r, IsOpening x →
      nextItem (index == 0) (Utf8.encode lead ++ x :: r) = .ok (.item (x :: r)))
    (hw : IsValue w) (hrest : Ended rest) :
    position index reader (Utf8.encode (lead ++ w) ++ rest) = .ok (a, rest') ↔
      rest' = rest ∧ spells w a := by
  rw [position, nextItem_opening hlead hw]
  exact hreads isBlanks_nil hw hrest

/-- The items of an array from its first one on, or from a later one on. -/
def ItemsFrom : Nat → List Char → List (List Char) → Prop
  | 0 => SpellsItems IsWritten
  | _ + 1 => SpellsMore IsWritten

theorem IsWritten.isPart {s : List Char} (h : IsWritten s w) : IsPart (.entry .list) s := by
  obtain ⟨rfl, hw⟩ := h
  exact .item hw

theorem ItemsFrom.exists_rest {index : Nat} {s : List Char} (h : ItemsFrom index s (w :: l)) :
    ∃ u, ItemsFrom (index + 1) u l ∧ ∀ {α : Type} {reader : Reader α}
      {spells : List Char → α → Prop}, ReadsValues reader spells → ∀ {a : α} {rest rest' : Bytes},
        position index reader (Utf8.encode (s ++ [']']) ++ rest) = .ok (a, rest') ↔
          rest' = Utf8.encode (u ++ [']']) ++ rest ∧ spells w a := by
  have hsplit : ∃ lead u, s = lead ++ (w ++ u) ∧ IsValue w ∧ SpellsMore IsWritten u l ∧
      ∀ x r, IsOpening x →
        nextItem (index == 0) (Utf8.encode lead ++ x :: r) = .ok (.item (x :: r)) := by
    cases index with
    | zero =>
      cases h with
      | @items b _ u _ _ hb hw hmore =>
        obtain ⟨rfl, hw⟩ := hw
        exact ⟨b, u, rfl, hw, hmore, fun x r hx =>
          nextItem_eq_ok_iff.mpr (.inr (.inl ⟨rfl, b, x, r, hb, hx, rfl, rfl⟩))⟩
    | succ index =>
      cases h with
      | @item v b _ u _ _ hv hb hw hmore =>
        obtain ⟨rfl, hw⟩ := hw
        refine ⟨v ++ ',' :: b, u, ?_, hw, hmore, fun x r hx =>
          nextItem_eq_ok_iff.mpr (.inr (.inr ⟨rfl, v, b, x, r, hv, hb, hx, rfl, rfl⟩))⟩
        rw [List.append_assoc, List.cons_append]
  obtain ⟨lead, u, rfl, hw, hmore, hlead⟩ := hsplit
  refine ⟨u, hmore, fun {_ reader spells} hreads {a rest rest'} => ?_⟩
  have hended := (hmore.isPart IsWritten.isPart).ended rest
  have hread : position index reader (Utf8.encode (lead ++ w) ++
      (Utf8.encode (u ++ [']']) ++ rest)) = .ok (a, rest') ↔
        rest' = Utf8.encode (u ++ [']']) ++ rest ∧ spells w a :=
    position_eq_ok_iff hreads hlead hw hended
  simp only [Utf8.encode_append, List.append_assoc] at hread ⊢
  exact hread

theorem closingBracket_blanks {index : Nat} {s : List Char} (h : ItemsFrom (index + 1) s [])
    (rest : Bytes) :
    closingBracket (Utf8.encode (s ++ [']']) ++ rest) = .ok rest := by
  cases h with
  | done hb =>
    have hbytes : Utf8.encode (s ++ [']']) ++ rest = Utf8.encode s ++ 0x5D :: rest :=
      Frame.encode_right .list s rest
    rw [hbytes, closingBracket, skipBlanks_append hb rfl]
    rfl

end

theorem metadataItems_eq_ok_iff {s w₁ w₂ w₃ w₄ : List Char} (h : ItemsFrom 0 s [w₁, w₂, w₃, w₄])
    {m : Metadata} {rest rest' : Bytes} :
    metadataItems (Utf8.encode (s ++ [']']) ++ rest) = .ok (m, rest') ↔
      rest' = rest ∧ SpellsSize w₁ m.totalLetters ∧ SpellsSize w₂ m.chunks ∧
        SpellsSize w₃ m.chunkSize ∧ SpellsArray SpellsString w₄ m.fields := by
  obtain ⟨s₁, hs₁, h₁⟩ := h.exists_rest
  obtain ⟨s₂, hs₂, h₂⟩ := hs₁.exists_rest
  obtain ⟨s₃, hs₃, h₃⟩ := hs₂.exists_rest
  obtain ⟨s₄, hs₄, h₄⟩ := hs₃.exists_rest
  have hclose := closingBracket_blanks hs₄ rest
  unfold metadataItems
  constructor
  · intro hread
    obtain ⟨⟨totalLetters, _⟩, hread₁, hread⟩ := exists_of_bind_eq_ok hread
    obtain ⟨rfl, hw₁⟩ := (h₁ size_reads).mp hread₁
    obtain ⟨⟨chunks, _⟩, hread₂, hread⟩ := exists_of_bind_eq_ok hread
    obtain ⟨rfl, hw₂⟩ := (h₂ size_reads).mp hread₂
    obtain ⟨⟨chunkSize, _⟩, hread₃, hread⟩ := exists_of_bind_eq_ok hread
    obtain ⟨rfl, hw₃⟩ := (h₃ size_reads).mp hread₃
    obtain ⟨⟨fields, _⟩, hread₄, hread⟩ := exists_of_bind_eq_ok hread
    obtain ⟨rfl, hw₄⟩ := (h₄ strings_read).mp hread₄
    dsimp only at hread
    rw [hclose] at hread
    cases hread
    exact ⟨rfl, hw₁, hw₂, hw₃, hw₄⟩
  · rintro ⟨rfl, hw₁, hw₂, hw₃, hw₄⟩
    rw [(h₁ size_reads).mpr ⟨rfl, hw₁⟩]
    change (position 1 size _ >>= _) = _
    rw [(h₂ size_reads).mpr ⟨rfl, hw₂⟩]
    change (position 2 size _ >>= _) = _
    rw [(h₃ size_reads).mpr ⟨rfl, hw₃⟩]
    change (position 3 (array string) _ >>= _) = _
    rw [(h₄ strings_read).mpr ⟨rfl, hw₄⟩]
    change (closingBracket _ >>= _) = _
    rw [hclose]
    rfl

theorem decodeMetadata_array_iff {text w₁ w₂ w₃ w₄ : List Char}
    (h : SpellsWhole (SpellsArray IsWritten) text [w₁, w₂, w₃, w₄]) {m : Metadata} :
    decodeMetadata (Utf8.encode text) = .ok m ↔
      SpellsSize w₁ m.totalLetters ∧ SpellsSize w₂ m.chunks ∧ SpellsSize w₃ m.chunkSize ∧
        SpellsArray SpellsString w₄ m.fields := by
  obtain @⟨b, _, b', _, hb, @⟨s, _, hs⟩, hb'⟩ := h
  have hskip : skipBlanks (Utf8.encode (b ++ ('[' :: (s ++ [']']) ++ b'))) =
      0x5B :: (Utf8.encode (s ++ [']']) ++ Utf8.encode b') := skipBlanks_nested .list hb s b'
  rw [decodeMetadata, hskip]
  change (metadataItems _ >>= fun v => ending v.1 v.2) = _ ↔ _
  constructor
  · intro hread
    obtain ⟨⟨m', r⟩, hread, hending⟩ := exists_of_bind_eq_ok hread
    obtain ⟨rfl, hfields⟩ := (metadataItems_eq_ok_iff hs).mp hread
    dsimp only at hending
    rw [ending_blanks hb'] at hending
    cases hending
    exact hfields
  · intro hfields
    rw [(metadataItems_eq_ok_iff hs).mpr ⟨rfl, hfields⟩]
    exact ending_blanks hb' m

/-- What is decoded from an object is told from its members, in any order and among any others, and
it is what the array of the four values gives. A member that comes a second time is the problem, the
first of these in reading order, and otherwise the first field in declaration order that is missing.
A number is a size exactly when it has no sign, no fraction and no exponent and its value is one of
a word. -/
theorem decodeMetadata_spelled {text : List Char} {members : List (String × List Char)}
    (h : SpellsWhole SpellsObject text members) :
    (∀ m, decodeMetadata (Utf8.encode text) = .ok m ↔ Describes members m) ∧
    (∀ before name w after, members = before ++ (name, w) :: after → Fits before →
      (∀ known ∈ fieldNames, (valuesOf known before).length ≤ 1) →
      name ∈ fieldNames → valuesOf name before ≠ [] →
        (decodeMetadata (Utf8.encode text)).mapError Problem.message? =
          .error (some ("duplicate field `" ++ name ++ "`"))) ∧
    (Fits members → (∀ known ∈ fieldNames, (valuesOf known members).length ≤ 1) →
      ∀ name, fieldNames.find? (fun known => valuesOf known members = []) = some name →
        (decodeMetadata (Utf8.encode text)).mapError Problem.message? =
          .error (some ("missing field `" ++ name ++ "`"))) ∧
    (∀ list w₁ w₂ w₃ w₄, SpellsWhole (SpellsArray IsWritten) list [w₁, w₂, w₃, w₄] →
      ∀ m, decodeMetadata (Utf8.encode list) = .ok m ↔
        SpellsSize w₁ m.totalLetters ∧ SpellsSize w₂ m.chunks ∧ SpellsSize w₃ m.chunkSize ∧
          SpellsArray SpellsString w₄ m.fields) ∧
    ∀ sign w f e, (sign = [] ∨ sign = ['-']) → IsWhole w → IsFraction f → IsExponent e → ∀ n,
      SpellsSize (sign ++ (w ++ (f ++ e))) n ↔
        sign = [] ∧ f = [] ∧ e = [] ∧ Nat.ofDigitChars 10 w 0 = n.toNat := by
  refine ⟨fun m => decodeMetadata_object_iff h, ?_, ?_,
    fun _ _ _ _ _ hlist m => decodeMetadata_array_iff hlist,
    fun _ _ _ _ hsign hw hf he n => spellsSize_iff hsign hw hf he⟩
  · intro before name w after hmembers hfits honce hname hbefore
    rw [decodeMetadata_repeated h hmembers hfits honce hname hbefore]
    rfl
  · intro hfits honce name hname
    rw [decodeMetadata_missing h hfits honce hname]
    rfl

/-! ## Written texts are spelled -/

theorem IsWritten.isValue {s w : List Char} (h : IsWritten s w) : IsValue s := by
  obtain ⟨rfl, hw⟩ := h
  exact hw

theorem WritesText.spellsText {raw text : List Char} (h : WritesText raw text) :
    SpellsText raw text := by
  induction h with
  | nil => exact .nil
  | cons h _ ih =>
    cases h with
    | verbatim hc => exact .verbatim hc ih
    | letter _ hmark => exact .escape (.letter hmark) ih
    | digits _ _ hu => exact .escape (.unit hu) ih

theorem spellsString_quoted (text : String) : SpellsString (quoted text.toList) text :=
  .quotes (writesText_escaped text.toList).spellsText

theorem spellsSize_numeral (n : UInt64) : SpellsSize (numeral n) n := by
  have hdigits : ∀ c ∈ Nat.toDigits 10 n.toNat, c.isDigit = true :=
    fun c hc => Nat.isDigit_of_mem_toDigits (by decide) (by decide) hc
  rw [numeral, Nat.toString_eq_repr, Nat.toList_repr]
  refine ⟨⟨⟨Nat.toDigits_ne_nil, hdigits⟩, fun hzero => ?_⟩, Nat.ofDigitChars_ten_toDigits⟩
  by_cases hn : n.toNat = 0
  · rw [hn]
    rfl
  · exact absurd hzero (head?_toDigits hn)

theorem SpellsSize.isValue {w : List Char} {n : UInt64} (h : SpellsSize w n) : IsValue w := by
  have hnumber : IsNumber ([] ++ (w ++ ([] ++ []))) := .parts (.inl rfl) h.1 .none .none
  rw [List.nil_append, List.append_nil, List.append_nil] at hnumber
  exact .number hnumber

theorem SpellsArray.isValue {α : Type} {spells : List Char → α → Prop}
    (hspells : ∀ {s : List Char} {a : α}, spells s a → IsValue s) {w : List Char} {l : List α}
    (h : SpellsArray spells w l) : IsValue w := by
  obtain ⟨hitems⟩ := h
  exact @IsPart.nested .list _ (hitems.isPart fun hs => .item (hspells hs))

theorem SpellsObject.isValue {w : List Char} {members : List (String × List Char)}
    (h : SpellsObject w members) : IsValue w := by
  obtain ⟨hmembers⟩ := h
  exact @IsPart.nested .map _ (hmembers.isPart SpellsEntry.isPart)

theorem SpellsWhole.of_spells {α : Type} {spells : List Char → α → Prop} {w : List Char} {a : α}
    (h : spells w a) : SpellsWhole spells w a := by
  have hwhole : SpellsWhole spells ([] ++ (w ++ [])) a := .value isBlanks_nil h isBlanks_nil
  rwa [List.nil_append, List.append_nil] at hwhole

section

variable {gap : List Char} (hgap : IsBlanks gap)

include hgap

theorem spellsItems_separated {α : Type} {spells : List Char → α → Prop} {write : α → List Char}
    {l : List α} (h : ∀ a ∈ l, spells (write a) a) :
    SpellsItems spells (separated (',' :: gap) (l.map write)) l := by
  cases l with
  | nil => exact .none isBlanks_nil
  | cons a l =>
    obtain ⟨ha, hl⟩ := List.forall_mem_cons.mp h
    rw [List.map_cons, separated_cons, List.flatMap_map]
    refine .items isBlanks_nil ha ?_
    clear h
    induction l with
    | nil => exact .done isBlanks_nil
    | cons a' l ih =>
      obtain ⟨ha', hl⟩ := List.forall_mem_cons.mp hl
      have hitem : SpellsMore spells ([] ++ ',' :: (gap ++ (write a' ++
          l.flatMap fun a => ',' :: gap ++ write a))) (a' :: l) :=
        .item isBlanks_nil hgap ha' (ih hl)
      rw [List.flatMap_cons, List.append_assoc]
      exact hitem

theorem spellsArray_written {α : Type} {spells : List Char → α → Prop} {write : α → List Char}
    {l : List α} (h : ∀ a ∈ l, spells (write a) a) :
    SpellsArray spells ((Layout.withGap gap).array (l.map write)) l :=
  .brackets (spellsItems_separated hgap h)

theorem spellsObject_written {members : List (String × List Char)}
    (h : ∀ m ∈ members, IsValue m.2) :
    SpellsObject ((Layout.withGap gap).object members) members := by
  refine .braces (spellsItems_separated hgap fun m hm => ?_)
  have hentry : SpellsEntry (quoted m.1.toList ++ ([] ++ ':' :: (gap ++ m.2))) m :=
    .colon (spellsString_quoted m.1) isBlanks_nil hgap (h m hm)
  rw [Layout.member, List.append_assoc]
  exact hentry

end

/-- The members of the metadata in another order, behind one that no field has the name of. -/
def reordered (m : Metadata) : List (String × List Char) :=
  [("x", Layout.spaced.array [Layout.spaced.object []]), ("fields", Layout.spaced.strings m.fields),
    ("chunks", numeral m.chunks), ("chunk_size", numeral m.chunkSize),
    ("total_letters", numeral m.totalLetters)]

theorem isBlanks_space : IsBlanks [' '] := by
  intro c hc
  exact .inl (List.mem_singleton.mp hc)

theorem spellsArray_values {l : List (List Char)} (h : ∀ w ∈ l, IsValue w) :
    SpellsArray IsWritten (Layout.spaced.array l) l := by
  have hlist : SpellsArray IsWritten (Layout.spaced.array (l.map id)) l :=
    spellsArray_written isBlanks_space fun w hw => ⟨rfl, h w hw⟩
  rwa [List.map_id] at hlist

theorem spellsArray_strings (texts : List String) :
    SpellsArray SpellsString (Layout.spaced.strings texts) texts :=
  spellsArray_written isBlanks_space fun text _ => spellsString_quoted text

theorem reordered_spelled (m : Metadata) :
    SpellsWhole SpellsObject (Layout.spaced.object (reordered m)) (reordered m) := by
  refine .of_spells (spellsObject_written isBlanks_space ?_)
  have hempty : SpellsObject (Layout.spaced.object []) [] :=
    spellsObject_written isBlanks_space fun _ h => by cases h
  have hnested : IsValue (Layout.spaced.array [Layout.spaced.object []]) :=
    (spellsArray_values (List.forall_mem_singleton.mpr hempty.isValue)).isValue IsWritten.isValue
  simp only [reordered, List.forall_mem_cons]
  exact ⟨hnested, (spellsArray_strings _).isValue SpellsString.isValue,
    (spellsSize_numeral _).isValue, (spellsSize_numeral _).isValue, (spellsSize_numeral _).isValue,
    fun _ h => by cases h⟩

theorem reordered_describes (m : Metadata) : Describes (reordered m) m where
  totalLetters := ⟨_, rfl, spellsSize_numeral _⟩
  chunks := ⟨_, rfl, spellsSize_numeral _⟩
  chunkSize := ⟨_, rfl, spellsSize_numeral _⟩
  fields := ⟨_, rfl, spellsArray_strings _⟩

/-- An object with its members out of order, the array of its values, a member that comes twice,
and no member at all. -/
theorem decodeMetadata_spelled_reordered :
    decodeMetadata (Utf8.encode (Layout.spaced.object (reordered ⟨4, 2, 3, ["a"]⟩))) =
      .ok ⟨4, 2, 3, ["a"]⟩ ∧
    decodeMetadata (Utf8.encode (Layout.spaced.array
      [numeral 4, numeral 2, numeral 3, Layout.spaced.strings ["a"]])) = .ok ⟨4, 2, 3, ["a"]⟩ ∧
    (decodeMetadata (Utf8.encode (Layout.spaced.object
      [("chunks", numeral 2), ("chunks", ['n', 'u', 'l', 'l'])]))).mapError Problem.message? =
        .error (some "duplicate field `chunks`") ∧
    (decodeMetadata (Utf8.encode (Layout.spaced.object []))).mapError Problem.message? =
      .error (some "missing field `total_letters`") := by
  obtain ⟨hobject, -, -, harray, -⟩ :=
    decodeMetadata_spelled (reordered_spelled ⟨4, 2, 3, ["a"]⟩)
  have hvalues : SpellsWhole (SpellsArray IsWritten) (Layout.spaced.array
      [numeral 4, numeral 2, numeral 3, Layout.spaced.strings ["a"]])
        [numeral 4, numeral 2, numeral 3, Layout.spaced.strings ["a"]] := by
    refine .of_spells (spellsArray_values ?_)
    simp only [List.forall_mem_cons]
    exact ⟨(spellsSize_numeral _).isValue, (spellsSize_numeral _).isValue,
      (spellsSize_numeral _).isValue, (spellsArray_strings _).isValue SpellsString.isValue,
      fun _ h => by cases h⟩
  have htwice : SpellsWhole SpellsObject (Layout.spaced.object
      [("chunks", numeral 2), ("chunks", ['n', 'u', 'l', 'l'])])
        [("chunks", numeral 2), ("chunks", ['n', 'u', 'l', 'l'])] := by
    refine .of_spells (spellsObject_written isBlanks_space ?_)
    simp only [List.forall_mem_cons]
    exact ⟨(spellsSize_numeral _).isValue, @IsPart.word "null" (by decide), fun _ h => by cases h⟩
  have hempty : SpellsWhole SpellsObject (Layout.spaced.object []) [] :=
    .of_spells (spellsObject_written isBlanks_space fun _ h => by cases h)
  refine ⟨(hobject _).mpr (reordered_describes _),
    (harray _ _ _ _ _ hvalues _).mpr ⟨spellsSize_numeral _, spellsSize_numeral _,
      spellsSize_numeral _, spellsArray_strings _⟩,
    (decodeMetadata_spelled htwice).2.1 [("chunks", numeral 2)] "chunks" _ [] rfl ⟨?_, ?_⟩ ?_
      (by decide) (by decide),
    (decodeMetadata_spelled hempty).2.2.1 ⟨?_, ?_⟩ ?_ _ rfl⟩
  · intro name _ w hw
    have hentry := mem_valuesOf.mp hw
    rw [List.mem_singleton, Prod.mk.injEq] at hentry
    exact ⟨2, hentry.2 ▸ spellsSize_numeral 2⟩
  · intro w hw
    have hentry := mem_valuesOf.mp hw
    rw [List.mem_singleton, Prod.mk.injEq] at hentry
    exact absurd hentry.1 (by decide)
  · exact fun known _ => List.length_filterMap_le _ _
  · exact fun _ _ _ h => by cases h
  · exact fun _ h => by cases h
  · exact fun known _ => Nat.zero_le 1

end LetterPages.Json
