import Mathlib.Data.List.TakeWhile
import LetterPages.Proofs.Json.DocumentText
import LetterPages.Proofs.Json.SpelledStrings

/-!
# Spelled records

The many ways to write a list of records as a JSON text: blanks wherever a token may begin or end,
and any spelling of each string. Decoding accepts what is spelled and nothing else.
-/

namespace LetterPages.Json

/-! ## The grammar -/

/-- Blanks between tokens. -/
def IsBlanks (s : List Char) : Prop :=
  ∀ c ∈ s, c = ' ' ∨ c = '\t' ∨ c = '\n' ∨ c = '\r'

section Grammar

variable {α : Type} (spells : List Char → α → Prop)

/-- The items after the first one, each behind its comma, up to what closes the list. -/
inductive SpellsMore : List Char → List α → Prop
  | done {b : List Char} (hb : IsBlanks b) : SpellsMore b []
  | item {b b' s t : List Char} {a : α} {l : List α} (hb : IsBlanks b) (hb' : IsBlanks b')
      (h : spells s a) (hmore : SpellsMore t l) :
      SpellsMore (b ++ ',' :: (b' ++ (s ++ t))) (a :: l)

/-- Items with commas between them, and blanks around each. -/
inductive SpellsItems : List Char → List α → Prop
  | none {b : List Char} (hb : IsBlanks b) : SpellsItems b []
  | items {b s t : List Char} {a : α} {l : List α} (hb : IsBlanks b) (h : spells s a)
      (hmore : SpellsMore spells t l) : SpellsItems (b ++ (s ++ t)) (a :: l)

inductive SpellsArray : List Char → List α → Prop
  | brackets {s : List Char} {l : List α} (h : SpellsItems spells s l) :
      SpellsArray ('[' :: (s ++ [']'])) l

/-- One value with blanks around it. -/
inductive SpellsWhole : List Char → α → Prop
  | value {b s b' : List Char} {a : α} (hb : IsBlanks b) (h : spells s a) (hb' : IsBlanks b') :
      SpellsWhole (b ++ (s ++ b')) a

end Grammar

/-- A name and a value, both strings. -/
inductive SpellsMember : List Char → String × String → Prop
  | colon {n b b' v : List Char} {name value : String} (hn : SpellsString n name)
      (hb : IsBlanks b) (hb' : IsBlanks b') (hv : SpellsString v value) :
      SpellsMember (n ++ (b ++ ':' :: (b' ++ v))) (name, value)

/-- An object whose members are the fields of the record, in order. -/
inductive SpellsRecord : List Char → Record → Prop
  | braces {s : List Char} {r : Record} (h : SpellsItems SpellsMember s r.fields) :
      SpellsRecord ('\x7b' :: (s ++ ['\x7d'])) r

/-! ## Blanks -/

theorem isBlanks_nil : IsBlanks [] := by
  intro c hc
  cases hc

theorem isBlank_of_mem_encode {w : List Char} (h : IsBlanks w) :
    ∀ b ∈ Utf8.encode w, isBlank b = true := by
  intro b hb
  obtain ⟨c, hc, hbc⟩ := List.mem_flatMap.mp hb
  rcases h c hc with rfl | rfl | rfl | rfl <;>
    · rw [List.mem_singleton.mp hbc]
      rfl

theorem exists_blanks {s : Bytes} (h : ∀ b ∈ s, isBlank b = true) :
    ∃ w, IsBlanks w ∧ s = Utf8.encode w := by
  induction s with
  | nil => exact ⟨[], isBlanks_nil, rfl⟩
  | cons b s ih =>
    obtain ⟨w, hw, rfl⟩ := ih fun x hx => h x (List.mem_cons_of_mem b hx)
    have hb := h b List.mem_cons_self
    simp only [isBlank, Bool.or_eq_true, beq_iff_eq] at hb
    obtain ⟨c, hc, hbytes⟩ : ∃ c, (c = ' ' ∨ c = '\t' ∨ c = '\n' ∨ c = '\r') ∧
        String.utf8EncodeChar c = [b] := by
      rcases hb with ((rfl | rfl) | rfl) | rfl
      · exact ⟨' ', by decide, rfl⟩
      · exact ⟨'\n', by decide, rfl⟩
      · exact ⟨'\t', by decide, rfl⟩
      · exact ⟨'\r', by decide, rfl⟩
    refine ⟨c :: w, ?_, ?_⟩
    · intro x hx
      rcases List.mem_cons.mp hx with rfl | hx
      · exact hc
      · exact hw x hx
    · rw [Utf8.encode_cons, hbytes]
      rfl

theorem IsBlanks.append {v w : List Char} (hv : IsBlanks v) (hw : IsBlanks w) :
    IsBlanks (v ++ w) := by
  intro c hc
  rcases List.mem_append.mp hc with hc | hc
  · exact hv c hc
  · exact hw c hc

theorem skipBlanks_eq_nil_iff {s : Bytes} :
    skipBlanks s = [] ↔ ∃ w, IsBlanks w ∧ s = Utf8.encode w := by
  rw [skipBlanks, List.dropWhile_eq_nil_iff]
  constructor
  · exact exists_blanks
  · rintro ⟨w, hw, rfl⟩
    exact isBlank_of_mem_encode hw

theorem skipBlanks_eq_cons_iff {s r : Bytes} {b : UInt8} :
    skipBlanks s = b :: r ↔
      isBlank b = false ∧ ∃ w, IsBlanks w ∧ s = Utf8.encode w ++ b :: r := by
  unfold skipBlanks
  constructor
  · intro h
    have hb : isBlank b = false := by
      have hhead := List.head?_dropWhile_not isBlank s
      rw [h] at hhead
      simpa using hhead
    obtain ⟨w, hw, hbytes⟩ :=
      exists_blanks fun x (hx : x ∈ s.takeWhile isBlank) => List.mem_takeWhile_imp hx
    refine ⟨hb, w, hw, ?_⟩
    rw [← hbytes, ← h, List.takeWhile_append_dropWhile]
  · rintro ⟨hb, w, hw, rfl⟩
    rw [List.dropWhile_append_of_pos (isBlank_of_mem_encode hw),
      List.dropWhile_cons_of_neg (by rw [hb]; exact Bool.false_ne_true)]

/-! ## Tokens between values -/

theorem encode_concat_append (w : List Char) (c : Char) (rest : Bytes) :
    Utf8.encode (w ++ [c]) ++ rest = Utf8.encode w ++ (String.utf8EncodeChar c ++ rest) := by
  rw [Utf8.encode_append, Utf8.encode_cons, Utf8.encode_nil, List.append_nil, List.append_assoc]

theorem encode_comma_append (v w : List Char) (rest : Bytes) :
    Utf8.encode (v ++ ',' :: w) ++ rest = Utf8.encode v ++ 0x2C :: (Utf8.encode w ++ rest) := by
  rw [Utf8.encode_append, List.append_assoc]
  rfl

theorem skipBlanks_append {w : List Char} (hw : IsBlanks w) {b : UInt8} (hb : isBlank b = false)
    (r : Bytes) : skipBlanks (Utf8.encode w ++ b :: r) = b :: r :=
  skipBlanks_eq_cons_iff.mpr ⟨hb, w, hw, rfl⟩

theorem colon_eq_ok_iff {s r : Bytes} :
    colon s = .ok r ↔ ∃ w, IsBlanks w ∧ s = Utf8.encode (w ++ [':']) ++ r := by
  constructor
  · intro h
    unfold colon at h
    split at h
    next => cases h
    next b t hskip =>
      obtain ⟨-, w, hw, rfl⟩ := skipBlanks_eq_cons_iff.mp hskip
      split at h
      next hb =>
        cases h
        exact ⟨w, hw, by rw [hb, encode_concat_append]; rfl⟩
      next => cases h
  · rintro ⟨w, hw, rfl⟩
    rw [encode_concat_append]
    change colon (Utf8.encode w ++ 0x3A :: r) = _
    rw [colon, skipBlanks_append hw rfl]
    rfl

/-- The items of an array end at its bracket, or go on: with the first item, or after a comma with
one that is not the bracket. -/
theorem nextItem_eq_ok_iff {isFirst : Bool} {s : Bytes} {next : Next} :
    nextItem isFirst s = .ok next ↔
      (∃ w rest, IsBlanks w ∧ s = Utf8.encode (w ++ [']']) ++ rest ∧ next = .stop rest) ∨
      (isFirst = true ∧ ∃ w b r, IsBlanks w ∧ IsOpening b ∧ s = Utf8.encode w ++ b :: r ∧
        next = .item (b :: r)) ∨
      (isFirst = false ∧ ∃ v w b r, IsBlanks v ∧ IsBlanks w ∧ IsOpening b ∧
        s = Utf8.encode (v ++ ',' :: w) ++ b :: r ∧ next = .item (b :: r)) := by
  constructor
  · intro h
    unfold nextItem at h
    split at h
    next => cases h
    next b r hskip =>
      obtain ⟨hb, w, hw, rfl⟩ := skipBlanks_eq_cons_iff.mp hskip
      split at h
      next hclose =>
        cases h
        exact .inl ⟨w, r, hw, by rw [hclose, encode_concat_append]; rfl, rfl⟩
      next hclose =>
        split at h
        next hfirst =>
          cases h
          exact .inr (.inl ⟨hfirst, w, b, r, hw, ⟨hb, hclose⟩, rfl, rfl⟩)
        next hfirst =>
          split at h
          next hcomma =>
            split at h
            next => cases h
            next c r' hskip' =>
              obtain ⟨hc, w', hw', rfl⟩ := skipBlanks_eq_cons_iff.mp hskip'
              obtain ⟨hopen, heq⟩ := of_guard_eq_ok h
              cases heq
              refine .inr (.inr ⟨Bool.eq_false_iff.mpr hfirst, w, w', c, r', hw, hw', ⟨hc, hopen⟩,
                ?_, rfl⟩)
              rw [hcomma, encode_comma_append]
          next => cases h
  · rintro (⟨w, rest, hw, rfl, rfl⟩ | ⟨rfl, w, b, r, hw, hb, rfl, rfl⟩ |
      ⟨rfl, v, w, b, r, hv, hw, hb, rfl, rfl⟩)
    · rw [encode_concat_append]
      change nextItem isFirst (Utf8.encode w ++ 0x5D :: rest) = _
      rw [nextItem, skipBlanks_append hw rfl]
      rfl
    · rw [nextItem, skipBlanks_append hw hb.1]
      exact if_neg hb.2
    · rw [encode_comma_append, nextItem, skipBlanks_append hv rfl]
      dsimp only
      rw [if_neg (by decide), if_neg Bool.false_ne_true, if_pos rfl, skipBlanks_append hw hb.1]
      exact if_neg hb.2

/-- The members of an object end at its brace, or go on with the quote of a name. -/
theorem nextMember_eq_ok_iff {isFirst : Bool} {s : Bytes} {next : Next} :
    nextMember isFirst s = .ok next ↔
      (∃ w rest, IsBlanks w ∧ s = Utf8.encode (w ++ ['\x7d']) ++ rest ∧ next = .stop rest) ∨
      (isFirst = true ∧ ∃ w r, IsBlanks w ∧ s = Utf8.encode w ++ 0x22 :: r ∧ next = .item r) ∨
      (isFirst = false ∧ ∃ v w r, IsBlanks v ∧ IsBlanks w ∧
        s = Utf8.encode (v ++ ',' :: w) ++ 0x22 :: r ∧ next = .item r) := by
  constructor
  · intro h
    unfold nextMember at h
    split at h
    next => cases h
    next b r hskip =>
      obtain ⟨-, w, hw, rfl⟩ := skipBlanks_eq_cons_iff.mp hskip
      split at h
      next hclose =>
        cases h
        exact .inl ⟨w, r, hw, by rw [hclose, encode_concat_append]; rfl, rfl⟩
      next =>
        split at h
        next hfirst =>
          split at h
          next hquote =>
            cases h
            exact .inr (.inl ⟨hfirst, w, r, hw, by rw [hquote], rfl⟩)
          next => cases h
        next hfirst =>
          split at h
          next hcomma =>
            split at h
            next => cases h
            next c r' hskip' =>
              obtain ⟨-, w', hw', rfl⟩ := skipBlanks_eq_cons_iff.mp hskip'
              split at h
              next hquote =>
                cases h
                refine .inr (.inr ⟨Bool.eq_false_iff.mpr hfirst, w, w', r', hw, hw', ?_, rfl⟩)
                rw [hcomma, hquote, encode_comma_append]
              next => cases h
          next => cases h
  · rintro (⟨w, rest, hw, rfl, rfl⟩ | ⟨rfl, w, r, hw, rfl, rfl⟩ | ⟨rfl, v, w, r, hv, hw, rfl, rfl⟩)
    · rw [encode_concat_append]
      change nextMember isFirst (Utf8.encode w ++ 0x7D :: rest) = _
      rw [nextMember, skipBlanks_append hw rfl]
      rfl
    · rw [nextMember, skipBlanks_append hw rfl]
      rfl
    · rw [encode_comma_append, nextMember, skipBlanks_append hv rfl]
      dsimp only
      rw [if_neg (by decide), if_neg Bool.false_ne_true, if_pos rfl, skipBlanks_append hw rfl]
      rfl

/-! ## Readers that read what is spelled -/

/-- The reader reads what is spelled, after blanks and whatever follows, and it reads nothing
else. -/
structure Exact {α : Type} (reader : Reader α) (spells : List Char → α → Prop) : Prop where
  run_eq_ok_iff : ∀ {s rest : Bytes} {a : α}, reader.run s = .ok (a, rest) ↔
    ∃ b w, IsBlanks b ∧ spells w a ∧ s = Utf8.encode (b ++ w) ++ rest
  opening : ∀ {w : List Char} {a : α}, spells w a → ∃ b t, Utf8.encode w = b :: t ∧ IsOpening b

theorem exact_of_firstOf {α : Type} {reader : Reader α}
    {read : UInt8 → Bytes → Except Problem (α × Bytes)} {spells : List Char → α → Prop}
    (hrun : reader.run = firstOf read)
    (hread : ∀ {b : UInt8} {r rest : Bytes} {a : α}, read b r = .ok (a, rest) ↔
      ∃ w, spells w a ∧ b :: r = Utf8.encode w ++ rest)
    (hopening : ∀ {w : List Char} {a : α}, spells w a →
      ∃ b t, Utf8.encode w = b :: t ∧ IsOpening b) : Exact reader spells where
  run_eq_ok_iff {s rest a} := by
    rw [hrun]
    constructor
    · intro h
      unfold firstOf at h
      split at h
      next => cases h
      next x r hskip =>
        obtain ⟨-, b, hb, rfl⟩ := skipBlanks_eq_cons_iff.mp hskip
        obtain ⟨w, hw, hbytes⟩ := hread.mp h
        refine ⟨b, w, hb, hw, ?_⟩
        rw [hbytes, Utf8.encode_append, List.append_assoc]
    · rintro ⟨b, w, hb, hw, rfl⟩
      obtain ⟨x, t, hbytes, hx⟩ := hopening hw
      rw [Utf8.encode_append, List.append_assoc, hbytes, List.cons_append, firstOf,
        skipBlanks_append hb hx.1]
      exact hread.mpr ⟨w, hw, by rw [hbytes]; rfl⟩
  opening := hopening

/-- Reading the items of a list up to the mark that closes it. -/
structure Lists {α : Type} (all : Bool → Bytes → Except Problem (List α × Bytes)) (close : Char)
    (spells : List Char → α → Prop) : Prop where
  nil_iff : ∀ {isFirst : Bool} {s rest : Bytes}, all isFirst s = .ok ([], rest) ↔
    ∃ b, IsBlanks b ∧ s = Utf8.encode (b ++ [close]) ++ rest
  first_iff : ∀ {s rest : Bytes} {a : α} {l : List α}, all true s = .ok (a :: l, rest) ↔
    ∃ b w more, IsBlanks b ∧ spells w a ∧ s = Utf8.encode (b ++ w) ++ more ∧
      all false more = .ok (l, rest)
  later_iff : ∀ {s rest : Bytes} {a : α} {l : List α}, all false s = .ok (a :: l, rest) ↔
    ∃ v b w more, IsBlanks v ∧ IsBlanks b ∧ spells w a ∧
      s = Utf8.encode (v ++ ',' :: (b ++ w)) ++ more ∧ all false more = .ok (l, rest)

section Lists

variable {α : Type} {all : Bool → Bytes → Except Problem (List α × Bytes)} {close : Char}
  {spells : List Char → α → Prop} (h : Lists all close spells) {s rest : Bytes} {l : List α}

include h

theorem Lists.more_iff : all false s = .ok (l, rest) ↔
    ∃ w, SpellsMore spells w l ∧ s = Utf8.encode (w ++ [close]) ++ rest := by
  induction l generalizing s with
  | nil =>
    rw [h.nil_iff]
    constructor
    · rintro ⟨b, hb, rfl⟩
      exact ⟨b, .done hb, rfl⟩
    · rintro ⟨w, hw, rfl⟩
      cases hw with
      | done hb => exact ⟨w, hb, rfl⟩
  | cons a l ih =>
    rw [h.later_iff]
    constructor
    · rintro ⟨v, b, w, more, hv, hb, hw, rfl, hmore⟩
      obtain ⟨t, ht, rfl⟩ := ih.mp hmore
      refine ⟨_, .item hv hb hw ht, ?_⟩
      simp only [Utf8.encode_append, Utf8.encode_cons, List.append_assoc]
    · rintro ⟨_, hmore, rfl⟩
      cases hmore with
      | @item v b w t _ _ hv hb hw ht =>
        refine ⟨v, b, w, Utf8.encode (t ++ [close]) ++ rest, hv, hb, hw, ?_, ih.mpr ⟨t, ht, rfl⟩⟩
        simp only [Utf8.encode_append, Utf8.encode_cons, List.append_assoc]

theorem Lists.items_iff : all true s = .ok (l, rest) ↔
    ∃ w, SpellsItems spells w l ∧ s = Utf8.encode (w ++ [close]) ++ rest := by
  cases l with
  | nil =>
    rw [h.nil_iff]
    constructor
    · rintro ⟨b, hb, rfl⟩
      exact ⟨b, .none hb, rfl⟩
    · rintro ⟨w, hw, rfl⟩
      cases hw with
      | none hb => exact ⟨w, hb, rfl⟩
  | cons a l =>
    rw [h.first_iff]
    constructor
    · rintro ⟨b, w, more, hb, hw, rfl, hmore⟩
      obtain ⟨t, ht, rfl⟩ := h.more_iff.mp hmore
      refine ⟨_, .items hb hw ht, ?_⟩
      simp only [Utf8.encode_append, Utf8.encode_cons, List.append_assoc]
    · rintro ⟨_, hitems, rfl⟩
      cases hitems with
      | @items b w t _ _ hb hw ht =>
        refine ⟨b, w, Utf8.encode (t ++ [close]) ++ rest, hb, hw, ?_, h.more_iff.mpr ⟨t, ht, rfl⟩⟩
        simp only [Utf8.encode_append, Utf8.encode_cons, List.append_assoc]

end Lists

/-! ## Arrays -/

section Array

variable {α : Type} {item : Reader α} {spells : List Char → α → Prop}

theorem items_cases {isFirst : Bool} {s rest : Bytes} {l : List α}
    (h : items item isFirst s = .ok (l, rest)) :
    (l = [] ∧ nextItem isFirst s = .ok (.stop rest)) ∨
    ∃ a more r t, l = a :: more ∧ nextItem isFirst s = .ok (.item r) ∧
      item.run r = .ok (a, t) ∧ items item false t = .ok (more, rest) := by
  fun_induction items item isFirst s generalizing l rest with
  | case2 isFirst s r hnext =>
    cases h
    exact .inl ⟨rfl, hnext⟩
  | case5 isFirst s r hnext a t hitem more rest' hmore =>
    cases h
    exact .inr ⟨a, more, r, t, rfl, hnext, hitem, hmore⟩
  | case1 | case3 | case4 => cases h

theorem items_eq_nil_iff {isFirst : Bool} {s rest : Bytes} :
    items item isFirst s = .ok ([], rest) ↔ nextItem isFirst s = .ok (.stop rest) := by
  refine ⟨fun h => ?_, items_stop item⟩
  rcases items_cases h with ⟨-, hstop⟩ | ⟨a, more, r, t, hl, -⟩
  · exact hstop
  · cases hl

theorem items_eq_cons_iff {isFirst : Bool} {s rest : Bytes} {a : α} {l : List α} :
    items item isFirst s = .ok (a :: l, rest) ↔ ∃ r t, nextItem isFirst s = .ok (.item r) ∧
      item.run r = .ok (a, t) ∧ items item false t = .ok (l, rest) := by
  constructor
  · intro h
    rcases items_cases h with ⟨hl, -⟩ | ⟨a, more, r, t, hl, hnext, hitem, hmore⟩
    · cases hl
    · cases hl
      exact ⟨r, t, hnext, hitem, hmore⟩
  · rintro ⟨r, t, hnext, hitem, hmore⟩
    exact items_item hnext hitem hmore

theorem Exact.lists_items (h : Exact item spells) : Lists (items item) ']' spells where
  nil_iff {isFirst s rest} := by
    rw [items_eq_nil_iff, nextItem_eq_ok_iff]
    constructor
    · rintro (⟨w, _, hw, rfl, hrest⟩ | ⟨-, w, b, r, -, -, -, hr⟩ | ⟨-, v, w, b, r, -, -, -, -, hr⟩)
      · cases hrest
        exact ⟨w, hw, rfl⟩
      · cases hr
      · cases hr
    · rintro ⟨w, hw, rfl⟩
      exact .inl ⟨w, rest, hw, rfl, rfl⟩
  first_iff {s rest a l} := by
    rw [items_eq_cons_iff]
    constructor
    · rintro ⟨r, more, hnext, hitem, hmore⟩
      obtain ⟨b, w, hb, hw, rfl⟩ := h.run_eq_ok_iff.mp hitem
      rcases nextItem_eq_ok_iff.mp hnext with
        ⟨_, _, -, -, hr⟩ | ⟨-, v, x, t, hv, -, rfl, hr⟩ | ⟨hfirst, -⟩
      · cases hr
      -- blanks are passed over before the item is met and once more by its own reader
      · rw [← Next.item.inj hr]
        refine ⟨v ++ b, w, more, hv.append hb, hw, ?_, hmore⟩
        simp only [Utf8.encode_append, List.append_assoc]
      · cases hfirst
    · rintro ⟨b, w, more, hb, hw, rfl, hmore⟩
      obtain ⟨x, t, hbytes, hx⟩ := h.opening hw
      refine ⟨Utf8.encode w ++ more, more, ?_,
        h.run_eq_ok_iff.mpr ⟨[], w, isBlanks_nil, hw, rfl⟩, hmore⟩
      refine nextItem_eq_ok_iff.mpr (.inr (.inl ⟨rfl, b, x, t ++ more, hb, hx, ?_, ?_⟩))
      · rw [Utf8.encode_append, List.append_assoc, hbytes]
        rfl
      · rw [hbytes]
        rfl
  later_iff {s rest a l} := by
    rw [items_eq_cons_iff]
    constructor
    · rintro ⟨r, more, hnext, hitem, hmore⟩
      obtain ⟨b, w, hb, hw, rfl⟩ := h.run_eq_ok_iff.mp hitem
      rcases nextItem_eq_ok_iff.mp hnext with
        ⟨_, _, -, -, hr⟩ | ⟨hfirst, -⟩ | ⟨-, u, v, x, t, hu, hv, -, rfl, hr⟩
      · cases hr
      · cases hfirst
      · rw [← Next.item.inj hr]
        refine ⟨u, v ++ b, w, more, hu, hv.append hb, hw, ?_, hmore⟩
        simp only [Utf8.encode_append, Utf8.encode_cons, List.append_assoc]
    · rintro ⟨v, b, w, more, hv, hb, hw, rfl, hmore⟩
      obtain ⟨x, t, hbytes, hx⟩ := h.opening hw
      refine ⟨Utf8.encode w ++ more, more, ?_,
        h.run_eq_ok_iff.mpr ⟨[], w, isBlanks_nil, hw, rfl⟩, hmore⟩
      refine nextItem_eq_ok_iff.mpr (.inr (.inr ⟨rfl, v, b, x, t ++ more, hv, hb, hx, ?_, ?_⟩))
      · simp only [Utf8.encode_append, Utf8.encode_cons, List.append_assoc, hbytes,
          List.cons_append]
      · rw [hbytes]
        rfl

theorem arrayFrom_eq_ok_iff (h : Exact item spells) {b : UInt8} {r rest : Bytes} {l : List α} :
    arrayFrom item b r = .ok (l, rest) ↔
      ∃ w, SpellsArray spells w l ∧ b :: r = Utf8.encode w ++ rest := by
  constructor
  · intro hread
    unfold arrayFrom at hread
    split at hread
    next hb =>
      obtain ⟨w, hw, rfl⟩ := h.lists_items.items_iff.mp hread
      exact ⟨_, .brackets hw, by rw [hb]; rfl⟩
    next => cases hread
  · rintro ⟨_, ⟨hw⟩, hbytes⟩
    obtain ⟨rfl, rfl⟩ := List.cons.inj hbytes
    exact h.lists_items.items_iff.mpr ⟨_, hw, rfl⟩

theorem Exact.array (h : Exact item spells) : Exact (array item) (SpellsArray spells) := by
  refine exact_of_firstOf rfl (arrayFrom_eq_ok_iff h) ?_
  rintro _ l ⟨hw⟩
  exact ⟨0x5B, _, rfl, rfl, by decide⟩

end Array

/-! ## Strings and records -/

theorem stringFrom_eq_ok_iff {b : UInt8} {r rest : Bytes} {text : String} :
    stringFrom b r = .ok (text, rest) ↔
      ∃ w, SpellsString w text ∧ b :: r = Utf8.encode w ++ rest := by
  constructor
  · intro h
    unfold stringFrom at h
    split at h
    next hb =>
      obtain ⟨w, hw, rfl⟩ := stringText_eq_ok_iff.mp h
      refine ⟨_, .quotes hw, ?_⟩
      rw [hb, Utf8.encode_cons, List.append_assoc, encode_concat_append]
      rfl
    next => cases h
  · rintro ⟨_, ⟨hw⟩, hbytes⟩
    rw [Utf8.encode_cons, List.append_assoc, encode_concat_append] at hbytes
    obtain ⟨rfl, rfl⟩ := List.cons.inj hbytes
    exact stringText_eq_ok_iff.mpr ⟨_, hw, rfl⟩

theorem exact_string : Exact string SpellsString := by
  refine exact_of_firstOf rfl stringFrom_eq_ok_iff ?_
  rintro _ text ⟨hw⟩
  exact ⟨0x22, _, rfl, rfl, by decide⟩

/-- The quote of the name has been read before the member. -/
theorem textMember_eq_ok_iff {r rest : Bytes} {m : String × String} :
    textMember r = .ok (m, rest) ↔
      ∃ w, SpellsMember w m ∧ 0x22 :: r = Utf8.encode w ++ rest := by
  unfold textMember
  constructor
  · intro h
    split at h
    next => cases h
    next name r₁ hname =>
      split at h
      next => cases h
      next r₂ hcolon =>
        split at h
        next => cases h
        next value r₃ hvalue =>
          cases h
          obtain ⟨n, hn, rfl⟩ := stringText_eq_ok_iff.mp hname
          obtain ⟨b, hb, rfl⟩ := colon_eq_ok_iff.mp hcolon
          obtain ⟨b', v, hb', hv, rfl⟩ := exact_string.run_eq_ok_iff.mp hvalue
          refine ⟨_, .colon (.quotes hn) hb hb' hv, ?_⟩
          simp only [Utf8.encode_append, Utf8.encode_cons, Utf8.encode_nil, List.append_assoc,
            List.nil_append]
          rfl
  · rintro ⟨_, hmember, hbytes⟩
    cases hmember with
    | @colon _ b b' v name value hn hb hb' hv =>
      obtain @⟨n, _, hn⟩ := hn
      have hname : stringText r =
          .ok (name, Utf8.encode (b ++ [':']) ++ (Utf8.encode (b' ++ v) ++ rest)) := by
        rw [stringText_eq_ok_iff]
        refine ⟨n, hn, ?_⟩
        simp only [Utf8.encode_append, Utf8.encode_cons, Utf8.encode_nil, List.append_assoc,
          List.nil_append] at hbytes ⊢
        exact (List.cons.inj hbytes).2
      have hvalue : string.run (Utf8.encode (b' ++ v) ++ rest) = .ok (value, rest) :=
        exact_string.run_eq_ok_iff.mpr ⟨b', v, hb', hv, rfl⟩
      rw [hname]
      dsimp only
      rw [colon_eq_ok_iff.mpr ⟨b, hb, rfl⟩]
      dsimp only
      rw [hvalue]

theorem SpellsMember.exists_quote {w : List Char} {m : String × String} (h : SpellsMember w m) :
    ∃ t, w = '"' :: t := by
  obtain ⟨⟨_⟩, -, -, -⟩ := h
  exact ⟨_, rfl⟩

theorem textMembers_cases {isFirst : Bool} {s rest : Bytes} {l : List (String × String)}
    (h : textMembers isFirst s = .ok (l, rest)) :
    (l = [] ∧ nextMember isFirst s = .ok (.stop rest)) ∨
    ∃ m more r t, l = m :: more ∧ nextMember isFirst s = .ok (.item r) ∧
      textMember r = .ok (m, t) ∧ textMembers false t = .ok (more, rest) := by
  fun_induction textMembers isFirst s generalizing l rest with
  | case2 isFirst s r hnext =>
    cases h
    exact .inl ⟨rfl, hnext⟩
  | case5 isFirst s r hnext m t hmember more rest' hmore =>
    cases h
    exact .inr ⟨m, more, r, t, rfl, hnext, hmember, hmore⟩
  | case1 | case3 | case4 => cases h

theorem textMembers_eq_nil_iff {isFirst : Bool} {s rest : Bytes} :
    textMembers isFirst s = .ok ([], rest) ↔ nextMember isFirst s = .ok (.stop rest) := by
  refine ⟨fun h => ?_, textMembers_stop⟩
  rcases textMembers_cases h with ⟨-, hstop⟩ | ⟨m, more, r, t, hl, -⟩
  · exact hstop
  · cases hl

theorem textMembers_eq_cons_iff {isFirst : Bool} {s rest : Bytes} {m : String × String}
    {l : List (String × String)} :
    textMembers isFirst s = .ok (m :: l, rest) ↔ ∃ r t, nextMember isFirst s = .ok (.item r) ∧
      textMember r = .ok (m, t) ∧ textMembers false t = .ok (l, rest) := by
  constructor
  · intro h
    rcases textMembers_cases h with ⟨hl, -⟩ | ⟨m', more, r, t, hl, hnext, hmember, hmore⟩
    · cases hl
    · cases hl
      exact ⟨r, t, hnext, hmember, hmore⟩
  · rintro ⟨r, t, hnext, hmember, hmore⟩
    exact textMembers_item hnext hmember hmore

theorem lists_textMembers : Lists textMembers '\x7d' SpellsMember where
  nil_iff {isFirst s rest} := by
    rw [textMembers_eq_nil_iff, nextMember_eq_ok_iff]
    constructor
    · rintro (⟨w, _, hw, rfl, hrest⟩ | ⟨-, w, r, -, -, hr⟩ | ⟨-, v, w, r, -, -, -, hr⟩)
      · cases hrest
        exact ⟨w, hw, rfl⟩
      · cases hr
      · cases hr
    · rintro ⟨w, hw, rfl⟩
      exact .inl ⟨w, rest, hw, rfl, rfl⟩
  first_iff {s rest m l} := by
    rw [textMembers_eq_cons_iff]
    constructor
    · rintro ⟨r, more, hnext, hmember, hmore⟩
      obtain ⟨w, hw, hbytes⟩ := textMember_eq_ok_iff.mp hmember
      rcases nextMember_eq_ok_iff.mp hnext with
        ⟨_, _, -, -, hr⟩ | ⟨-, b, _, hb, rfl, hr⟩ | ⟨hfirst, -⟩
      · cases hr
      · cases hr
        refine ⟨b, w, more, hb, hw, ?_, hmore⟩
        rw [hbytes, Utf8.encode_append, List.append_assoc]
      · cases hfirst
    · rintro ⟨b, w, more, hb, hw, rfl, hmore⟩
      obtain ⟨t, rfl⟩ := hw.exists_quote
      refine ⟨Utf8.encode t ++ more, more, ?_, textMember_eq_ok_iff.mpr ⟨_, hw, rfl⟩, hmore⟩
      refine nextMember_eq_ok_iff.mpr (.inr (.inl ⟨rfl, b, _, hb, ?_, rfl⟩))
      rw [Utf8.encode_append, List.append_assoc]
      rfl
  later_iff {s rest m l} := by
    rw [textMembers_eq_cons_iff]
    constructor
    · rintro ⟨r, more, hnext, hmember, hmore⟩
      obtain ⟨w, hw, hbytes⟩ := textMember_eq_ok_iff.mp hmember
      rcases nextMember_eq_ok_iff.mp hnext with
        ⟨_, _, -, -, hr⟩ | ⟨hfirst, -⟩ | ⟨-, v, b, _, hv, hb, rfl, hr⟩
      · cases hr
      · cases hfirst
      · cases hr
        refine ⟨v, b, w, more, hv, hb, hw, ?_, hmore⟩
        rw [hbytes]
        simp only [Utf8.encode_append, Utf8.encode_cons, List.append_assoc]
    · rintro ⟨v, b, w, more, hv, hb, hw, rfl, hmore⟩
      obtain ⟨t, rfl⟩ := hw.exists_quote
      refine ⟨Utf8.encode t ++ more, more, ?_, textMember_eq_ok_iff.mpr ⟨_, hw, rfl⟩, hmore⟩
      refine nextMember_eq_ok_iff.mpr (.inr (.inr ⟨rfl, v, b, _, hv, hb, ?_, rfl⟩))
      simp only [Utf8.encode_append, Utf8.encode_cons, List.append_assoc]
      rfl

theorem recordFrom_eq_ok_iff {b : UInt8} {r rest : Bytes} {a : Record} :
    recordFrom b r = .ok (a, rest) ↔
      ∃ w, SpellsRecord w a ∧ b :: r = Utf8.encode w ++ rest := by
  unfold recordFrom
  constructor
  · intro h
    split at h
    next hb =>
      split at h
      next => cases h
      next fields t hmembers =>
        cases h
        obtain ⟨w, hw, rfl⟩ := lists_textMembers.items_iff.mp hmembers
        exact ⟨_, .braces hw, by rw [hb]; rfl⟩
    next => cases h
  · rintro ⟨_, @⟨s, _, hw⟩, hbytes⟩
    rw [Utf8.encode_cons, List.append_assoc] at hbytes
    change b :: r = 0x7B :: (Utf8.encode (s ++ ['\x7d']) ++ rest) at hbytes
    obtain ⟨rfl, rfl⟩ := List.cons.inj hbytes
    rw [if_pos rfl, lists_textMembers.items_iff.mpr ⟨_, hw, rfl⟩]

theorem exact_record : Exact record SpellsRecord := by
  refine exact_of_firstOf rfl recordFrom_eq_ok_iff ?_
  rintro _ r ⟨hw⟩
  exact ⟨0x7B, _, rfl, rfl, by decide⟩

/-! ## Whole texts -/

section Whole

variable {α : Type} {reader : Reader α} {spells : List Char → α → Prop} (h : Exact reader spells)
  {s : Bytes} {a : α}

theorem Reader.whole_eq_ok_iff :
    reader.whole s = .ok a ↔ ∃ b, IsBlanks b ∧ reader.run s = .ok (a, Utf8.encode b) := by
  unfold Reader.whole
  constructor
  · intro hread
    split at hread
    next => cases hread
    next a' rest hrun =>
      unfold ending at hread
      split at hread
      next hskip =>
        cases hread
        obtain ⟨b, hb, rfl⟩ := skipBlanks_eq_nil_iff.mp hskip
        exact ⟨b, hb, hrun⟩
      next => cases hread
  · rintro ⟨b, hb, hrun⟩
    rw [hrun]
    exact if_pos (skipBlanks_eq_nil_iff.mpr ⟨b, hb, rfl⟩)

include h

theorem Exact.whole_eq_ok_iff :
    reader.whole s = .ok a ↔ ∃ w, SpellsWhole spells w a ∧ s = Utf8.encode w := by
  rw [Reader.whole_eq_ok_iff]
  constructor
  · rintro ⟨b', hb', hrun⟩
    obtain ⟨b, w, hb, hw, rfl⟩ := h.run_eq_ok_iff.mp hrun
    refine ⟨_, .value hb hw hb', ?_⟩
    simp only [Utf8.encode_append, List.append_assoc]
  · rintro ⟨_, @⟨b, w, b', _, hb, hw, hb'⟩, rfl⟩
    refine ⟨b', hb', h.run_eq_ok_iff.mpr ⟨b, w, hb, hw, ?_⟩⟩
    simp only [Utf8.encode_append, List.append_assoc]

/-- After a whole text nothing but blanks is accepted. -/
theorem Exact.whole_append (hread : reader.whole s = .ok a) (more : Bytes) (a' : α) :
    reader.whole (s ++ more) = .ok a' ↔ a' = a ∧ ∀ b ∈ more, isBlank b = true := by
  obtain ⟨b', hb', hrun⟩ := Reader.whole_eq_ok_iff.mp hread
  obtain ⟨b, w, hb, hw, rfl⟩ := h.run_eq_ok_iff.mp hrun
  have hlonger : reader.run (Utf8.encode (b ++ w) ++ Utf8.encode b' ++ more) =
      .ok (a, Utf8.encode b' ++ more) :=
    h.run_eq_ok_iff.mpr ⟨b, w, hb, hw, List.append_assoc _ _ _⟩
  rw [Reader.whole_eq_ok_iff, hlonger]
  constructor
  · rintro ⟨b'', hb'', heq⟩
    obtain ⟨rfl, hbytes⟩ := Prod.mk.inj (Except.ok.inj heq)
    refine ⟨rfl, fun x hx => isBlank_of_mem_encode hb'' x ?_⟩
    rw [← hbytes]
    exact List.mem_append_right _ hx
  · rintro ⟨rfl, hmore⟩
    obtain ⟨m, hm, rfl⟩ := exists_blanks hmore
    exact ⟨b' ++ m, hb'.append hm, by rw [Utf8.encode_append]⟩

end Whole

/-- A byte string is decoded to a list of records exactly when it is the UTF-8 of a text that spells
an array of them, each an object with strings for members and these in the order of the fields. A
text that is accepted may go on with blanks, which change nothing, and with nothing else. -/
theorem decodeRecords_exact (x : Bytes) (records : List Record) :
    (decodeRecords x = .ok records ↔
      ∃ text, SpellsWhole (SpellsArray SpellsRecord) text records ∧ x = Utf8.encode text) ∧
    (decodeRecords x = .ok records → ∀ more others,
      decodeRecords (x ++ more) = .ok others ↔ others = records ∧ ∀ b ∈ more, isBlank b = true) :=
  ⟨exact_record.array.whole_eq_ok_iff, exact_record.array.whole_append⟩

/-- Blanks, a repeated name, and a clef spelled as it is, by its surrogates in either case, or with
an escaped slash beside it. -/
example : (decodeRecords (Utf8.ofString
    " [\t\x7b\"a\" : \"𝄞\", \"a\":\"\\ud834\\uDD1E\\/\"\x7d\n,\x7b \x7d ]\r")).toOption =
      some [⟨[("a", "𝄞"), ("a", "𝄞/")]⟩, ⟨[]⟩] := by
  decide +kernel

/-- A trailing comma, a value that is no string, and half of a pair are refused. -/
example :
    ["[\x7b\"a\":\"1\"\x7d,]", "[\x7b\"a\":\"1\",\x7d]", "[\x7b\"a\":1\x7d]",
      "[\x7b\"a\":\"\\ud834\"\x7d]"].map
        (fun text => (decodeRecords (Utf8.ofString text)).toOption) =
      [none, none, none, none] := by
  decide +kernel

end LetterPages.Json
