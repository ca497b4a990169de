import LetterPages.Proofs.Toml.SpelledScalars

/-!
# Spelled documents

What may stand between the parts of a document, and how keys, values, statements and whole documents
are written. Again each is a relation between what is written and what it stands for, and the reader
of a part finds what is spelled when a part that can follow it comes next.
-/

namespace LetterPages.Toml

/-! ## Gaps -/

/-- The rest of a line with nothing but blanks and perhaps a comment. -/
inductive IsLineRest : List Char → Prop
  | nil : IsLineRest []
  | blank {c : Char} {s : List Char} (hc : isBlank c = true) (h : IsLineRest s) : IsLineRest (c :: s)
  | comment {s : List Char} (h : ∀ c ∈ s, isPlain c = true) : IsLineRest ('#' :: s)

/-- The rests of any number of lines, and blanks on the next one. -/
inductive IsGap : List Char → Prop
  | blanks {s : List Char} (h : IsBlanks s) : IsGap s
  | line {s b g : List Char} (hs : IsLineRest s) (hb : IsBreak b) (h : IsGap g) :
      IsGap (s ++ (b ++ g))

theorem isBlanks_nil : IsBlanks [] := by
  rintro c ⟨⟩

theorem isGap_nil : IsGap [] :=
  .blanks isBlanks_nil

/-- A character that no gap goes on with. -/
def EndsGap (c : Char) : Prop :=
  c ∉ [' ', '\t', '#', '\r', '\n']

instance (c : Char) : Decidable (EndsGap c) :=
  inferInstanceAs (Decidable (¬ _))

theorem EndsGap.endsLines {c : Char} (h : EndsGap c) : EndsLines c := by
  intro hmem
  simp only [List.mem_cons, List.not_mem_nil, or_false] at hmem
  rcases hmem with rfl | rfl | rfl | rfl <;> exact h (by simp)

theorem skipBlanks_of_endsGap {c : Char} (h : EndsGap c) (r : List Char) :
    skipBlanks (c :: r) = c :: r :=
  skipBlanks_of_not_isBlank h.endsLines.not_isBlank r

theorem skipGap_of_endsGap {c : Char} (h : EndsGap c) (r : List Char) :
    skipGap (c :: r) = c :: r := by
  apply skipGap_of_stop _ _ (h.endsLines.afterBreak?_eq_none r)
  · simp [h.endsLines.not_isBlank]
  · rintro rfl
    exact h (by simp)

theorem dropWhile_isPlain {s b : List Char} (hs : ∀ c ∈ s, isPlain c = true) (hb : IsBreak b)
    (r : List Char) : (s ++ (b ++ r)).dropWhile isPlain = b ++ r := by
  rw [List.dropWhile_append_of_pos hs]
  cases hb <;> rfl

theorem dropWhile_isPlain_eq_nil {s : List Char} (hs : ∀ c ∈ s, isPlain c = true) :
    s.dropWhile isPlain = [] := by
  rw [← List.append_nil s, List.dropWhile_append_of_pos hs, List.dropWhile_nil]

theorem skipGap_break {b : List Char} (h : IsBreak b) (r : List Char) :
    skipGap (b ++ r) = skipGap r := by
  cases h with
  | lineFeed => exact skipGap_of_break (by decide) (by decide) rfl
  | carriageReturn => exact skipGap_of_break (by decide) (by decide) rfl

theorem skipGap_of_isBlank {c : Char} (hc : isBlank c = true) (r : List Char) :
    skipGap (c :: r) = skipGap r := by
  rw [skipGap, if_pos hc]

theorem skipGap_comment (r : List Char) : skipGap ('#' :: r) = skipGap (r.dropWhile isPlain) := by
  rw [skipGap, if_neg (by decide), if_pos rfl]

namespace IsLineRest

variable {s b : List Char} (h : IsLineRest s) (hb : IsBreak b)

include h

theorem lineEnd_eq_nil : lineEnd s = some [] := by
  induction h with
  | nil => rfl
  | blank hc _ ih => rwa [lineEnd, skipBlanks_of_isBlank hc]
  | comment h =>
    rw [lineEnd, skipBlanks_of_not_isBlank rfl, skipComment, dropWhile_isPlain_eq_nil h]

theorem skipGap_eq_nil : skipGap s = [] := by
  induction h with
  | nil => rw [skipGap]
  | blank hc _ ih => rwa [skipGap_of_isBlank hc]
  | comment h => rw [skipGap_comment, dropWhile_isPlain_eq_nil h, skipGap]

theorem stopped : Stopped s := by
  induction h with
  | nil => rintro c ⟨⟩
  | blank hc _ ih => rwa [Stopped, skipBlanks_of_isBlank hc]
  | comment =>
    rw [Stopped, skipBlanks_of_not_isBlank rfl]
    rintro c ⟨⟩
    decide

include hb

theorem lineEnd_append (r : List Char) : lineEnd (s ++ (b ++ r)) = some r := by
  induction h with
  | nil => cases hb <;> rfl
  | blank hc _ ih => rwa [List.cons_append, lineEnd, skipBlanks_of_isBlank hc]
  | comment h =>
    rw [List.cons_append, lineEnd, skipBlanks_of_not_isBlank rfl, skipComment,
      dropWhile_isPlain h hb]
    cases hb <;> rfl

theorem skipGap_append (r : List Char) : skipGap (s ++ (b ++ r)) = skipGap r := by
  induction h with
  | nil => exact skipGap_break hb r
  | blank hc _ ih => rwa [List.cons_append, skipGap_of_isBlank hc]
  | comment h => rw [List.cons_append, skipGap_comment, dropWhile_isPlain h hb, skipGap_break hb]

theorem stopped_append (r : List Char) : Stopped (s ++ (b ++ r)) := by
  induction h with
  | nil =>
    cases hb <;>
      (rw [Stopped, List.nil_append, List.cons_append, skipBlanks_of_not_isBlank rfl]
       rintro c ⟨⟩
       decide)
  | blank hc _ ih => rwa [List.cons_append, Stopped, skipBlanks_of_isBlank hc]
  | comment =>
    rw [List.cons_append, Stopped, skipBlanks_of_not_isBlank rfl]
    rintro c ⟨⟩
    decide

end IsLineRest

theorem IsGap.skipGap_append {g : List Char} (h : IsGap g) (r : List Char) :
    skipGap (g ++ r) = skipGap r := by
  induction h with
  | @blanks s h =>
    induction s with
    | nil => rfl
    | cons c s ih =>
      rw [List.cons_append, skipGap_of_isBlank (h c List.mem_cons_self),
        ih fun c hc => h c (List.mem_cons_of_mem _ hc)]
  | line hs hb _ ih => rw [List.append_assoc, List.append_assoc, hs.skipGap_append hb, ih]

/-- A value may be followed by a gap before a comma or a closing bracket. -/
theorem IsGap.stopped {g : List Char} (h : IsGap g) {c : Char}
    (hc : c ∈ [',', ']', '\x7d']) (r : List Char) : Stopped (g ++ c :: r) := by
  cases h with
  | blanks h =>
    have hall : ∀ c ∈ [',', ']', '\x7d'],
        isBlank c = false ∧ c ∈ [',', ']', '\x7d', '#', '\r', '\n'] := forall_of_all (by decide)
    obtain ⟨hblank, hmem⟩ := hall c hc
    rw [Stopped, skipBlanks_append h, skipBlanks_of_not_isBlank hblank]
    rintro d ⟨⟩
    exact hmem
  | line hs hb _ =>
    rw [List.append_assoc, List.append_assoc]
    exact hs.stopped_append hb _

/-- What may stand around the marks of a pair, within brackets and without. -/
def Spacing.Fills : Spacing → List Char → Prop
  | line => IsBlanks
  | free => IsGap

theorem Spacing.skip_append {spacing : Spacing} {g : List Char} (h : spacing.Fills g) {c : Char}
    (hc : EndsGap c) (r : List Char) : spacing.skip (g ++ c :: r) = c :: r := by
  cases spacing with
  | line => exact (skipBlanks_append h _).trans (skipBlanks_of_endsGap hc r)
  | free => exact (IsGap.skipGap_append h _).trans (skipGap_of_endsGap hc r)

theorem Spacing.Fills.isGap {spacing : Spacing} {g : List Char} (h : spacing.Fills g) : IsGap g := by
  cases spacing with
  | line => exact .blanks h
  | free => exact h

/-! ## Keys -/

inductive SpellsName : List Char → List Char → Prop
  | bare {text : List Char} (hne : text ≠ []) (h : ∀ c ∈ text, isBare c = true) :
      SpellsName text text
  | quoted {s text : List Char} (h : SpellsString s text) : SpellsName s text

/-- Names with points between them, around which there may be blanks. -/
inductive SpellsKey : List Char → Key → Prop
  | name {s text : List Char} (h : SpellsName s text) : SpellsKey s ⟨[], String.ofList text⟩
  | dotted {s text before after r : List Char} {k : Key} (h : SpellsName s text)
      (hbefore : IsBlanks before) (hafter : IsBlanks after) (hk : SpellsKey r k) :
      SpellsKey (s ++ (before ++ '.' :: (after ++ r))) ⟨String.ofList text :: k.path, k.name⟩

/-- A rest in which a key cannot go on. -/
def EndsKey (rest : List Char) : Prop :=
  (∀ c ∈ rest.head?, isBare c = false) ∧ point? rest = none

/-- A character that can begin a name. -/
def BeginsName (c : Char) : Prop :=
  isBare c = true ∨ c = '"' ∨ c = '\x27'

theorem BeginsName.not_mem {c : Char} (h : BeginsName c) :
    c ∉ [' ', '\t', '#', '\r', '\n', '[', ']', '\x7d'] := by
  intro hmem
  have hall : ∀ c ∈ [' ', '\t', '#', '\r', '\n', '[', ']', '\x7d'],
      isBare c = false ∧ c ≠ '"' ∧ c ≠ '\x27' := forall_of_all (by decide)
  obtain ⟨hbare, hquote, happ⟩ := hall c hmem
  rcases h with h | h | h
  · cases hbare.symm.trans h
  · exact hquote h
  · exact happ h

theorem BeginsName.endsGap {c : Char} (h : BeginsName c) : EndsGap c :=
  fun hmem => h.not_mem (List.mem_append_left ['[', ']', '\x7d'] hmem)

theorem SpellsName.exists_cons {s text : List Char} (h : SpellsName s text) :
    ∃ c r, s = c :: r ∧ BeginsName c := by
  cases h with
  | bare hne h =>
    obtain ⟨c, r, rfl⟩ := List.exists_cons_of_ne_nil hne
    exact ⟨c, r, rfl, .inl (h c List.mem_cons_self)⟩
  | quoted h =>
    cases h with
    | basic => exact ⟨_, _, rfl, .inr (.inl rfl)⟩
    | literal => exact ⟨_, _, rfl, .inr (.inr rfl)⟩

theorem SpellsKey.exists_cons {s : List Char} {k : Key} (h : SpellsKey s k) :
    ∃ c r, s = c :: r ∧ BeginsName c := by
  cases h with
  | name h => exact h.exists_cons
  | dotted h =>
    obtain ⟨c, r, rfl, hc⟩ := h.exists_cons
    exact ⟨c, _, rfl, hc⟩

/-- A name of letters, digits and the like, which needs no quotes. -/
def IsBareName (name : String) : Prop :=
  name.toList ≠ [] ∧ name.toList.all isBare = true

instance (name : String) : Decidable (IsBareName name) :=
  inferInstanceAs (Decidable (_ ∧ _))

theorem spellsKey_bare {name : String} (h : IsBareName name) :
    SpellsKey name.toList ⟨[], name⟩ := by
  have hkey := SpellsKey.name (.bare h.1 (List.all_eq_true.mp h.2))
  rwa [String.ofList_toList] at hkey

theorem spellsKey_dotted {step : String} {s : List Char} {k : Key} (h : IsBareName step)
    (hk : SpellsKey s k) : SpellsKey (step.toList ++ '.' :: s) ⟨step :: k.path, k.name⟩ := by
  have hkey := SpellsKey.dotted (.bare h.1 (List.all_eq_true.mp h.2)) isBlanks_nil isBlanks_nil hk
  rwa [String.ofList_toList] at hkey

theorem bareName_spelled {text rest : List Char} (hne : text ≠ [])
    (h : ∀ c ∈ text, isBare c = true) (hrest : ∀ c ∈ rest.head?, isBare c = false) :
    bareName (text ++ rest) = some (text, rest) := by
  obtain ⟨c, r, rfl⟩ := List.exists_cons_of_ne_nil hne
  obtain ⟨hc, hr⟩ := List.forall_mem_cons.mp h
  obtain ⟨htake, hdrop⟩ := span_append hr hrest
  rw [List.cons_append, bareName, if_pos hc, htake, hdrop]

theorem name_spelled {s text rest : List Char} (h : SpellsName s text)
    (hrest : ∀ c ∈ rest.head?, isBare c = false) : name (s ++ rest) = some (text, rest) := by
  cases h with
  | bare hne h =>
    obtain ⟨c, r, rfl⟩ := List.exists_cons_of_ne_nil hne
    have hc := h c List.mem_cons_self
    rw [name.eq_3 _ _ _, bareName_spelled hne h hrest]
    all_goals
      intro r' heq
      cases heq
      cases hc
  | quoted h =>
    cases h with
    | basic h =>
      rw [List.cons_append, List.append_assoc, List.singleton_append, name, basic_spelled h]
    | literal h =>
      rw [List.cons_append, List.append_assoc, List.singleton_append, name, literal_spelled h]

theorem names_spelled {s rest : List Char} {k : Key} (h : SpellsKey s k) (hrest : EndsKey rest) :
    names (s ++ rest) = some (k, rest) := by
  induction h with
  | name h => exact names_of_end (name_spelled h hrest.1) hrest.2
  | @dotted s text before after r k h hbefore hafter hk ih =>
    obtain ⟨c, r', rfl, hc⟩ := hk.exists_cons
    have hname : ∀ d ∈ (before ++ '.' :: (after ++ (c :: r' ++ rest))).head?, isBare d = false := by
      cases before with
      | nil =>
        rintro d ⟨⟩
        rfl
      | cons b before =>
        rintro d ⟨⟩
        rcases isBlank_iff.mp (hbefore b List.mem_cons_self) with rfl | rfl <;> rfl
    have hpoint : point? (before ++ '.' :: (after ++ (c :: r' ++ rest))) = some (c :: r' ++ rest) := by
      rw [point?, skipBlanks_append hbefore, skipBlanks_of_not_isBlank rfl]
      change some (skipBlanks _) = _
      rw [skipBlanks_append hafter, List.cons_append, skipBlanks_of_endsGap hc.endsGap]
    simp only [List.append_assoc, List.cons_append] at hname hpoint ih ⊢
    exact names_of_point (name_spelled h hname) hpoint ih

theorem endsKey_of_isBlank {c : Char} {r : List Char} (hc : isBlank c = true) (h : EndsKey r) :
    EndsKey (c :: r) := by
  refine ⟨?_, ?_⟩
  · rcases isBlank_iff.mp hc with rfl | rfl <;>
      (rintro d ⟨⟩
       rfl)
  · rw [point?, skipBlanks_of_isBlank hc]
    exact h.2

theorem endsKey_of_mem {c : Char} (hc : c ∈ ['=', ']', '#', '\r', '\n']) (r : List Char) :
    EndsKey (c :: r) := by
  have hall : ∀ c ∈ ['=', ']', '#', '\r', '\n'],
      isBare c = false ∧ isBlank c = false ∧ c ≠ '.' := forall_of_all (by decide)
  obtain ⟨hbare, hblank, hpoint⟩ := hall c hc
  refine ⟨?_, ?_⟩
  · rintro d ⟨⟩
    exact hbare
  · rw [point?, skipBlanks_of_not_isBlank hblank]
    split
    next heq =>
      cases heq
      exact absurd rfl hpoint
    next => rfl

/-- Neither an equals sign nor a closing bracket goes on with a key, nor does a gap before it. -/
theorem IsGap.endsKey {g : List Char} (hg : IsGap g) {c : Char} (hc : c ∈ ['=', ']'])
    (r : List Char) : EndsKey (g ++ c :: r) := by
  cases hg with
  | blanks h =>
    induction g with
    | nil => exact endsKey_of_mem (List.mem_append_left ['#', '\r', '\n'] hc) r
    | cons b g ih =>
      obtain ⟨hb, h⟩ := List.forall_mem_cons.mp h
      exact endsKey_of_isBlank hb (ih h)
  | @line s b g hs hb _ =>
    rw [List.append_assoc, List.append_assoc]
    induction hs with
    | nil => cases hb <;> exact endsKey_of_mem (by simp) _
    | blank hc _ ih => exact endsKey_of_isBlank hc ih
    | comment => exact endsKey_of_mem (by simp) _

theorem key_spelled {s rest : List Char} {k : Key} (h : SpellsKey s k)
    (hlimit : k.path.length < limit) (hrest : EndsKey rest) : key (s ++ rest) = some (k, rest) := by
  rw [key, names_spelled h hrest]
  exact if_pos hlimit

/-! ## Items -/

/-- The reader finds the item in what is written, which begins no gap and closes no bracket. -/
structure Finds {α : Type} (item : Reader α) (s : List Char) (a : α) : Prop where
  front : ∃ c r, s = c :: r ∧ EndsGap c ∧ c ≠ ']' ∧ c ≠ '\x7d'
  run : ∀ rest, Stopped rest → item.run (s ++ rest) = some (a, rest)

/-- Items with gaps around them and commas between them, of which one may follow the last. -/
inductive SpellsItems {α : Type} (P : List Char → α → Prop) : List Char → List α → Prop
  | nil {g : List Char} (hg : IsGap g) : SpellsItems P g []
  | last {g s g' : List Char} {a : α} (hg : IsGap g) (hs : P s a) (hg' : IsGap g') :
      SpellsItems P (g ++ (s ++ g')) [a]
  | cons {g s g' r : List Char} {a : α} {l : List α} (hg : IsGap g) (hs : P s a) (hg' : IsGap g')
      (h : SpellsItems P r l) : SpellsItems P (g ++ (s ++ (g' ++ ',' :: r))) (a :: l)

theorem items_spelled {α : Type} {P : List Char → α → Prop} {closing : Char} {item : Reader α}
    (hclosing : closing ∈ [']', '\x7d']) (hitem : ∀ s a, P s a → Finds item s a) {s : List Char}
    {l : List α} (h : SpellsItems P s l) (rest : List Char) :
    items closing item (s ++ closing :: rest) = some (l, rest) := by
  have hall : ∀ c ∈ [']', '\x7d'], EndsGap c ∧ c ≠ ',' ∧ c ∈ [',', ']', '\x7d'] :=
    forall_of_all (by decide)
  have hends := hall closing hclosing
  have hfront : ∀ {c}, c ≠ ']' ∧ c ≠ '\x7d' → c ≠ closing := by
    rintro c ⟨hbracket, hbrace⟩ rfl
    simp_all
  induction h with
  | nil hg =>
    apply items_eq_nil
    rw [hg.skipGap_append, skipGap_of_endsGap hends.1]
  | @last g s g' a hg hs hg' =>
    obtain ⟨⟨c, r, rfl, hc, hopen⟩, hrun⟩ := hitem s a hs
    have hread := hrun _ (hg'.stopped hends.2.2 rest)
    rw [List.append_assoc, List.append_assoc]
    refine items_eq_singleton ?_ (hfront hopen) hread ?_
    · rw [hg.skipGap_append]
      exact skipGap_of_endsGap hc _
    · rw [hg'.skipGap_append, skipGap_of_endsGap hends.1]
  | @cons g s g' r a l hg hs hg' _ ih =>
    obtain ⟨⟨c, t, rfl, hc, hopen⟩, hrun⟩ := hitem s a hs
    have hread := hrun _ (hg'.stopped (c := ',') (by simp) (r ++ closing :: rest))
    rw [List.append_assoc, List.append_assoc, List.append_assoc]
    refine items_eq_cons ?_ (hfront hopen) hread ?_ hends.2.1 ih
    · rw [hg.skipGap_append]
      exact skipGap_of_endsGap hc _
    · rw [hg'.skipGap_append, skipGap_of_endsGap (by decide)]

/-! ## Values -/

/-- A key and a value with an equals sign between them. -/
inductive SpellsPair (spacing : Spacing) (P : List Char → Value → Prop) :
    List Char → Key × Value → Prop
  | mk {s before after x : List Char} {k : Key} {v : Value} (hk : SpellsKey s k)
      (hlimit : k.path.length < limit) (hbefore : spacing.Fills before)
      (hafter : spacing.Fills after) (hx : P x v) :
      SpellsPair spacing P (s ++ (before ++ '=' :: (after ++ x))) (k, v)

theorem SpellsPair.tight {spacing : Spacing} {P : List Char → Value → Prop} {s x : List Char}
    {k : Key} {v : Value} (hk : SpellsKey s k) (hlimit : k.path.length < limit) (hx : P x v) :
    SpellsPair spacing P (s ++ '=' :: x) (k, v) := by
  have hfills : spacing.Fills [] := by
    cases spacing with
    | line => exact isBlanks_nil
    | free => exact isGap_nil
  exact .mk hk hlimit hfills hfills hx

inductive SpellsLeaf : List Char → Value → Prop
  | scalar {s : List Char} {a : Scalar} (h : SpellsScalar s a) : SpellsLeaf s (.scalar a)

/-- A value whose items, if it has any, are written as `P` says. -/
inductive SpellsOver (P : List Char → Value → Prop) : List Char → Value → Prop
  | leaf {s : List Char} {v : Value} (h : SpellsLeaf s v) : SpellsOver P s v
  | array {s : List Char} {l : List Value} (h : SpellsItems P s l) :
      SpellsOver P ('[' :: (s ++ [']'])) (.array l)
  | table {s : List Char} {l : List (Key × Value)} (h : SpellsItems (SpellsPair .free P) s l) :
      SpellsOver P ('\x7b' :: (s ++ ['\x7d'])) (.table l)

/-- Values that nest at most `depth` deep. -/
def SpellsValue : Nat → List Char → Value → Prop
  | 0 => SpellsLeaf
  | depth + 1 => SpellsOver (SpellsValue depth)

theorem scalar_of_leaf {s rest : List Char} {v : Value} (h : SpellsLeaf s v)
    (hrest : Stopped rest) : Toml.scalar (s ++ rest) = some (v, rest) := by
  obtain ⟨h⟩ := h
  exact scalar_spelled h hrest

/-- No bracket, no blank and no mark stands at the front of a value without items. -/
theorem SpellsLeaf.front {s : List Char} {v : Value} (h : SpellsLeaf s v) :
    ∃ c r, s = c :: r ∧ c ∉ [' ', '\t', '#', '\r', '\n', '[', ']', '\x7b', '\x7d'] := by
  have hread := scalar_of_leaf h IsLineRest.nil.stopped
  rw [List.append_nil] at hread
  cases s with
  | nil => cases length_lt_of_scalar hread
  | cons c r =>
    refine ⟨c, r, rfl, fun hmem => ?_⟩
    have hall : ∀ c ∈ [' ', '\t', '#', '\r', '\n', '[', ']', '\x7b', '\x7d'],
        isWordPart c = false ∧ c ≠ '"' ∧ c ≠ '\x27' := forall_of_all (by decide)
    obtain ⟨hword, hquote, happ⟩ := hall c hmem
    rcases scalar_front hread with h | h | h
    · exact hquote h
    · exact happ h
    · cases hword.symm.trans h

theorem keyUpTo_spelled {spacing : Spacing} {s before after r : List Char} {k : Key} {c : Char}
    (hk : SpellsKey s k) (hlimit : k.path.length < limit) (hbefore : spacing.Fills before)
    (hafter : spacing.Fills after) (hc : EndsGap c) :
    KeyUpTo spacing (s ++ (before ++ '=' :: (after ++ c :: r))) k (c :: r) := by
  have hends := hbefore.isGap.endsKey (c := '=') (by simp) (after ++ c :: r)
  exact ⟨_, _, key_spelled hk hlimit hends, spacing.skip_append hbefore (by decide) _,
    spacing.skip_append hafter hc _⟩

theorem finds_pair {spacing : Spacing} {P : List Char → Value → Prop} {value : Reader Value}
    (hvalue : ∀ x v, P x v → Finds value x v) {s : List Char} {p : Key × Value}
    (h : SpellsPair spacing P s p) : Finds (value.pair spacing) s p := by
  obtain @⟨s, before, after, x, k, v, hk, hlimit, hbefore, hafter, hx⟩ := h
  obtain ⟨⟨d, t, rfl, hd, -⟩, hrun⟩ := hvalue x v hx
  constructor
  · obtain ⟨c, r, rfl, hc⟩ := hk.exists_cons
    refine ⟨c, _, rfl, hc.endsGap, ?_, ?_⟩ <;>
      (rintro rfl
       exact hc.not_mem (by simp))
  · intro rest hrest
    have hkey := keyUpTo_spelled (r := t ++ rest) hk hlimit hbefore hafter hd
    apply pairOf_eq_some_iff.mpr
    exact ⟨d :: (t ++ rest), by simpa using hkey, hrun rest hrest⟩

theorem finds_leaf (depth : Nat) {s : List Char} {v : Value} (h : SpellsLeaf s v) :
    Finds (Reader.value depth) s v := by
  obtain ⟨c, r, rfl, hc⟩ := h.front
  simp only [List.mem_cons, List.not_mem_nil, or_false, not_or] at hc
  refine ⟨⟨c, r, rfl, by simp [EndsGap, hc], hc.2.2.2.2.2.2.1, hc.2.2.2.2.2.2.2.2⟩, ?_⟩
  intro rest hrest
  have hscalar := scalar_of_leaf h hrest
  cases depth with
  | zero => exact hscalar
  | succ depth =>
    exact (valueOver.eq_3 (Reader.value depth) _ (by simp [hc]) (by simp [hc])).trans hscalar

theorem finds_value (depth : Nat) {s : List Char} {v : Value} (h : SpellsValue depth s v) :
    Finds (Reader.value depth) s v := by
  induction depth generalizing s v with
  | zero => exact finds_leaf 0 h
  | succ depth ih =>
    cases h with
    | leaf h => exact finds_leaf (depth + 1) h
    | @array s l h =>
      refine ⟨⟨_, _, rfl, by decide, by decide, by decide⟩, fun rest _ => ?_⟩
      have hitems : items ']' (Reader.value depth) (s ++ ']' :: rest) = some (l, rest) :=
        items_spelled (by simp) (fun _ _ => ih) h rest
      rw [List.cons_append, List.append_assoc, List.singleton_append]
      change (items ']' (Reader.value depth) (s ++ ']' :: rest)).map _ = _
      rw [hitems]
      rfl
    | @table s l h =>
      refine ⟨⟨_, _, rfl, by decide, by decide, by decide⟩, fun rest _ => ?_⟩
      have hitems : items '\x7d' ((Reader.value depth).pair .free) (s ++ '\x7d' :: rest) =
          some (l, rest) :=
        items_spelled (by simp) (fun _ _ => finds_pair fun _ _ => ih) h rest
      rw [List.cons_append, List.append_assoc, List.singleton_append]
      change (items '\x7d' ((Reader.value depth).pair .free) (s ++ '\x7d' :: rest)).map _ = _
      rw [hitems]
      rfl

/-! ## Statements -/

inductive SpellsStatement : List Char → Statement → Prop
  | pair {s : List Char} {k : Key} {v : Value} (h : SpellsPair .line (SpellsValue limit) s (k, v)) :
      SpellsStatement s (.pair k v)
  | header {s before after : List Char} {k : Key} (hk : SpellsKey s k)
      (hlimit : k.path.length < limit) (hbefore : IsBlanks before) (hafter : IsBlanks after) :
      SpellsStatement ('[' :: (before ++ (s ++ (after ++ [']'])))) (.header k)
  | arrayHeader {s before after : List Char} {k : Key} (hk : SpellsKey s k)
      (hlimit : k.path.length < limit) (hbefore : IsBlanks before) (hafter : IsBlanks after) :
      SpellsStatement ('[' :: '[' :: (before ++ (s ++ (after ++ [']', ']'])))) (.arrayHeader k)

/-- Statements, each on a line of its own, with lines without statements between them. -/
inductive SpellsDocument : List Char → List Statement → Prop
  | done {g t : List Char} (hg : IsGap g) (ht : IsLineRest t) : SpellsDocument (g ++ t) []
  | last {g s t : List Char} {a : Statement} (hg : IsGap g) (hs : SpellsStatement s a)
      (ht : IsLineRest t) : SpellsDocument (g ++ (s ++ t)) [a]
  | next {g s t b r : List Char} {a : Statement} {l : List Statement} (hg : IsGap g)
      (hs : SpellsStatement s a) (ht : IsLineRest t) (hb : IsBreak b) (h : SpellsDocument r l) :
      SpellsDocument (g ++ (s ++ (t ++ (b ++ r)))) (a :: l)

theorem SpellsDocument.line {s r : List Char} {a : Statement} {l : List Statement}
    (hs : SpellsStatement s a) (h : SpellsDocument r l) : SpellsDocument (s ++ '\n' :: r) (a :: l) :=
  .next isGap_nil hs .nil .lineFeed h

theorem headerKey_spelled {s before after : List Char} {k : Key} (hk : SpellsKey s k)
    (hlimit : k.path.length < limit) (hbefore : IsBlanks before) (hafter : IsBlanks after)
    (rest : List Char) : headerKey (before ++ (s ++ (after ++ ']' :: rest))) = some (k, rest) := by
  have hkey := key_spelled hk hlimit ((IsGap.blanks hafter).endsKey (c := ']') (by simp) rest)
  obtain ⟨c, r, rfl, hc⟩ := hk.exists_cons
  refine headerKey_eq_some_iff.mpr ⟨after ++ ']' :: rest, ?_, ?_⟩
  · rw [skipBlanks_append hbefore, List.cons_append, skipBlanks_of_endsGap hc.endsGap]
    exact hkey
  · rw [skipBlanks_append hafter, skipBlanks_of_endsGap (by decide)]

theorem SpellsStatement.front {s : List Char} {a : Statement} (h : SpellsStatement s a) :
    ∃ c r, s = c :: r ∧ EndsGap c := by
  cases h with
  | pair h =>
    obtain ⟨c, r, rfl, hc, -⟩ := (finds_pair (fun _ _ => finds_value limit) h).front
    exact ⟨c, r, rfl, hc⟩
  | header | arrayHeader => exact ⟨_, _, rfl, by decide⟩

theorem statement_spelled {s rest : List Char} {a : Statement} (h : SpellsStatement s a)
    (hrest : Stopped rest) : statement (s ++ rest) = some (a, rest) := by
  cases h with
  | @pair s k v h =>
    obtain @⟨s, before, after, x, k, v, hk, hlimit, hbefore, hafter, hx⟩ := h
    obtain ⟨⟨d, t, rfl, hd, -⟩, hrun⟩ := finds_value limit hx
    have hkey := keyUpTo_spelled (r := t ++ rest) hk hlimit hbefore hafter hd
    simp only [List.append_assoc, List.cons_append] at hkey ⊢
    exact (statement_eq_some_iff hkey).mpr ⟨v, rfl, hrun rest hrest⟩
  | @header s before after k hk hlimit hbefore hafter =>
    have hheader := headerKey_spelled hk hlimit hbefore hafter rest
    have hopen : ∀ r, before ++ (s ++ (after ++ ']' :: rest)) ≠ '[' :: r := by
      intro r heq
      obtain ⟨c, t, rfl, hc⟩ := hk.exists_cons
      cases before with
      | nil =>
        obtain ⟨rfl, -⟩ := List.cons.inj heq
        exact hc.not_mem (by simp)
      | cons b before =>
        obtain ⟨rfl, -⟩ := List.cons.inj heq
        cases hbefore '[' List.mem_cons_self
    simp only [List.append_assoc, List.cons_append, List.nil_append]
    rw [statement.eq_2 _ hopen, hheader]
    rfl
  | @arrayHeader s before after k hk hlimit hbefore hafter =>
    have hheader := headerKey_spelled hk hlimit hbefore hafter (']' :: rest)
    simp only [List.append_assoc, List.cons_append, List.nil_append]
    rw [statement, arrayHeaderKey, hheader]
    rfl

theorem statements_spelled {s : List Char} {l : List Statement} (h : SpellsDocument s l) :
    statements s = .ok l := by
  induction h with
  | @done g t hg ht =>
    have hgap : skipGap (g ++ t) = [] := (hg.skipGap_append t).trans ht.skipGap_eq_nil
    rw [statements.eq_def, hgap]
  | @last g s t a hg hs ht =>
    obtain ⟨c, r, rfl, hc⟩ := hs.front
    have hgap : skipGap (g ++ (c :: r ++ t)) = c :: r ++ t :=
      (hg.skipGap_append _).trans (skipGap_of_endsGap hc _)
    refine statements_eq_cons_iff.mpr ⟨t, [], ?_, ht.lineEnd_eq_nil, ?_⟩
    · rw [hgap, statement_spelled hs ht.stopped]
    · have hgap : skipGap [] = [] := IsLineRest.nil.skipGap_eq_nil
      rw [statements.eq_def, hgap]
  | @next g s t b r a l hg hs ht hb _ ih =>
    obtain ⟨c, s, rfl, hc⟩ := hs.front
    have hgap : skipGap (g ++ (c :: s ++ (t ++ (b ++ r)))) = c :: s ++ (t ++ (b ++ r)) :=
      (hg.skipGap_append _).trans (skipGap_of_endsGap hc _)
    refine statements_eq_cons_iff.mpr ⟨t ++ (b ++ r), r, ?_, ht.lineEnd_append hb r, ih⟩
    rw [hgap, statement_spelled hs (ht.stopped_append hb r)]

end LetterPages.Toml
