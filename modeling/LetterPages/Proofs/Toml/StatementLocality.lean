import LetterPages.Proofs.Toml.StringLocality

/-!
# Keys, values and statements that end before a quote
-/

namespace LetterPages.Toml

variable {w w' s s' : List Char}

/-! ## Keys -/

theorem isLocal_bareName : IsLocal w w' bareName := by
  apply isLocal_of_cons length_lt_of_bareName
  intro c s s' text rest h hs hlength
  rw [bareName] at hs ⊢
  split_ifs at hs ⊢ with hc
  cases hs
  obtain ⟨htake, hdrop⟩ := h.span hlength
  exact ⟨_, by rw [htake], hdrop⟩

theorem isLocal_name : IsLocal w w' name := by
  apply isLocal_of_cons length_lt_of_name
  intro c s s' text rest h hs hlength
  rw [name.eq_def] at hs
  split at hs
  · rename_i heq
    cases heq
    exact isLocal_basic h hs hlength
  · rename_i heq
    cases heq
    exact isLocal_literal h hs hlength
  · rename_i hquote hliteral
    have hc : c ≠ '"' ∧ c ≠ '\x27' := ⟨fun hc => hquote s (by rw [hc]), fun hc => hliteral s (by rw [hc])⟩
    rw [name.eq_3 (c :: s') (by simp [hc]) (by simp [hc])]
    exact isLocal_bareName (h.cons c) hs hlength

theorem InStep.point?_eq_some (h : InStep w w' s s') {r : List Char} (hs : point? s = some r) :
    ∃ r', point? s' = some r' ∧ InStep w w' r r' := by
  rw [point?.eq_def] at hs
  split at hs
  · rename_i r hblanks
    cases hs
    have hstep := h.skipBlanks
    rw [hblanks] at hstep
    obtain ⟨r', hblanks', hr⟩ := hstep.tail (by decide)
    exact ⟨_, by rw [point?, hblanks']; rfl, hr.skipBlanks⟩
  · cases hs

theorem InStep.point?_eq_none (h : InStep w w' s s') (hs : point? s = none) :
    point? s' = none := by
  cases hs' : point? s' with
  | none => rfl
  | some r' =>
    obtain ⟨r, hsome, -⟩ := h.symm.point?_eq_some hs'
    rw [hs] at hsome
    cases hsome

theorem names_of_end {s text r : List Char} (hname : name s = some (text, r))
    (hpoint : point? r = none) : names s = some (⟨[], String.ofList text⟩, r) := by
  grind [names]

theorem names_of_point {s text r r' rest : List Char} {k : Key} (hname : name s = some (text, r))
    (hpoint : point? r = some r') (hmore : names r' = some (k, rest)) :
    names s = some (⟨String.ofList text :: k.path, k.name⟩, rest) := by
  grind [names]

theorem isLocal_names : IsLocal w w' names := by
  intro s s' k rest h hs hlength
  fun_induction names s generalizing s' k rest with
  | case1 => cases hs
  | case2 s text r hname hpoint =>
    cases hs
    obtain ⟨r', hname', hr⟩ := isLocal_name h hname hlength
    exact ⟨r', names_of_end hname' (hr.point?_eq_none hpoint), hr⟩
  | case3 => cases hs
  | case4 s text r hname r₁ hpoint k₁ rest₁ hmore ih =>
    cases hs
    have hlength₁ := length_lt_of_names hmore
    have hlength₂ := length_lt_of_point? hpoint
    obtain ⟨r', hname', hr⟩ := isLocal_name h hname (by omega)
    obtain ⟨r₁', hpoint', hr₁⟩ := hr.point?_eq_some hpoint
    obtain ⟨rest', hmore', hrest⟩ := ih hr₁ hmore hlength
    exact ⟨rest', names_of_point hname' hpoint' hmore', hrest⟩

theorem isLocal_key : IsLocal w w' key := by
  intro s s' k rest h hs hlength
  rw [key] at hs ⊢
  split at hs
  · cases hs
  · rename_i hnames
    split_ifs at hs with hlimit
    cases hs
    obtain ⟨rest', hnames', hrest⟩ := isLocal_names h hnames hlength
    exact ⟨rest', by rw [hnames']; exact if_pos hlimit, hrest⟩

/-! ## Words -/

theorem word_of_joint {s r : List Char} {c : Char}
    (h : s.dropWhile isWordPart = ' ' :: c :: r) :
    word s = if isDate (s.takeWhile isWordPart) && isDecimalDigit c then
        (s.takeWhile isWordPart ++ ' ' :: (c :: r).takeWhile isWordPart,
          (c :: r).dropWhile isWordPart)
      else (s.takeWhile isWordPart, ' ' :: c :: r) := by
  rw [word, h]
  rfl

theorem word_of_end {s : List Char} (h : ∀ c r, s.dropWhile isWordPart ≠ ' ' :: c :: r) :
    word s = (s.takeWhile isWordPart, s.dropWhile isWordPart) := by
  rw [word]
  split
  · rename_i heq
    exact absurd heq (h _ _)
  · rfl

theorem length_word_le (s : List Char) : (word s).2.length ≤ (s.dropWhile isWordPart).length := by
  rw [word]
  split
  · rename_i c r hdrop
    have := (List.dropWhile_sublist isWordPart (l := c :: r)).length_le
    rw [hdrop]
    simp only [List.length_cons] at this ⊢
    split
    · simp only
      omega
    · exact Nat.le_refl _
  · exact Nat.le_refl _

theorem InStep.word (h : InStep w w' s s') (hlength : w.length < (word s).2.length) :
    (Toml.word s').1 = (Toml.word s).1 ∧ InStep w w' (Toml.word s).2 (Toml.word s').2 := by
  obtain ⟨htake, hdrop⟩ := h.span (Nat.lt_of_lt_of_le hlength (length_word_le s))
  by_cases hjoint : ∃ c r, s.dropWhile isWordPart = ' ' :: c :: r
  · obtain ⟨c, r, hs⟩ := hjoint
    rw [hs] at hdrop
    obtain ⟨r₁, hr₁, hnext⟩ := hdrop.tail (by decide)
    obtain ⟨r', rfl⟩ := hnext.exists_cons
    rw [word_of_joint hs] at hlength ⊢
    rw [word_of_joint hr₁, ← htake]
    split_ifs at hlength ⊢ with hdate
    · obtain ⟨htake', hdrop'⟩ := hnext.span hlength
      exact ⟨by rw [htake'], hdrop'⟩
    · exact ⟨rfl, hnext.cons ' '⟩
  · have hend : ∀ c r, s.dropWhile isWordPart ≠ ' ' :: c :: r := by
      intro c r heq
      exact hjoint ⟨c, r, heq⟩
    rw [word_of_end hend, word_of_end, htake]
    · exact ⟨rfl, hdrop⟩
    · intro c r heq
      rw [heq] at hdrop
      obtain ⟨r₁, hs, hnext⟩ := hdrop.symm.tail (by decide)
      obtain ⟨r', rfl⟩ := hnext.exists_cons
      exact hend c r' hs

/-- What begins a string begins no word that has a value. -/
theorem ofWord?_quote (t : List Char) : Scalar.ofWord? ('"' :: t) = none := by
  simp [Scalar.ofWord?, Scalar.isNumeral, isDigitOrUnderscore, isDigitBelow, digitBelow?, hexValue?]

theorem ofWord?_apostrophe (t : List Char) : Scalar.ofWord? ('\x27' :: t) = none := by
  simp [Scalar.ofWord?, Scalar.isNumeral, isDigitOrUnderscore, isDigitBelow, digitBelow?, hexValue?]

theorem word_cons {c : Char} (hc : isWordPart c = true) (r : List Char) :
    ∃ t, (word (c :: r)).1 = c :: t := by
  rw [word]
  simp only [List.takeWhile_cons_of_pos hc, List.cons_append]
  split
  · split <;> exact ⟨_, rfl⟩
  · exact ⟨_, rfl⟩

theorem stringFrom_of_ne {c : Char} (hquote : c ≠ '"') (happ : c ≠ '\x27') (r : List Char) :
    stringFrom (c :: r) = none := by
  rw [stringFrom.eq_5] <;> simp [hquote, happ]

theorem isLocal_scalar : IsLocal w w' scalar := by
  apply isLocal_of_cons length_lt_of_scalar
  intro c s s' v rest h hs hlength
  rw [scalar] at hs ⊢
  cases hstring : stringFrom (c :: s) with
  | some found =>
    obtain ⟨text, r⟩ := found
    rw [hstring] at hs
    cases hs
    obtain ⟨r', hstring', hr⟩ := isLocal_stringFrom (h.cons c) hstring hlength
    exact ⟨r', by rw [hstring'], hr⟩
  | none =>
    rw [hstring] at hs
    cases hword : Scalar.ofWord? (word (c :: s)).1 with
    | none => simp only [hword] at hs; cases hs
    | some a =>
      simp only [hword] at hs
      cases hs
      have hquote : c ≠ '"' := by
        rintro rfl
        obtain ⟨t, ht⟩ := word_cons (c := '"') (by decide) s
        rw [ht, ofWord?_quote] at hword
        cases hword
      have happ : c ≠ '\x27' := by
        rintro rfl
        obtain ⟨t, ht⟩ := word_cons (c := '\x27') (by decide) s
        rw [ht, ofWord?_apostrophe] at hword
        cases hword
      obtain ⟨hfirst, hrest⟩ := (h.cons c).word hlength
      exact ⟨_, by rw [stringFrom_of_ne hquote happ, hfirst, hword], hrest⟩

/-! ## Values -/

/-- The key at the front of `s`, up to what stands behind its equals sign. -/
def KeyUpTo (spacing : Spacing) (s : List Char) (k : Key) (x : List Char) : Prop :=
  ∃ r r', key s = some (k, r) ∧ spacing.skip r = '=' :: r' ∧ spacing.skip r' = x

theorem pairOf_eq_some_iff {spacing : Spacing} {value : Reader Value} {s rest : List Char}
    {k : Key} {v : Value} : pairOf spacing value s = some ((k, v), rest) ↔
      ∃ x, KeyUpTo spacing s k x ∧ value.run x = some (v, rest) := by
  constructor
  · intro h
    rw [pairOf] at h
    split at h
    · cases h
    · rename_i r hkey
      split at h
      · rename_i r' hequals
        split at h
        · cases h
        · rename_i hvalue
          cases h
          exact ⟨_, ⟨r, r', hkey, hequals, rfl⟩, hvalue⟩
      · cases h
  · rintro ⟨x, ⟨r, r', hkey, hequals, rfl⟩, hvalue⟩
    simp only [pairOf, hkey, hequals, hvalue]

theorem InStep.keyUpTo (h : InStep w w' s s') {spacing : Spacing} {k : Key} {x : List Char}
    (hs : KeyUpTo spacing s k x) (hlength : w.length < x.length) :
    ∃ x', KeyUpTo spacing s' k x' ∧ InStep w w' x x' := by
  obtain ⟨r, r₁, hkey, hequals, rfl⟩ := hs
  have h₁ := spacing.length_skip_le r
  have h₂ := spacing.length_skip_le r₁
  rw [hequals, List.length_cons] at h₁
  obtain ⟨r', hkey', hr⟩ := isLocal_key h hkey (by omega)
  have hskip := hr.spacing spacing (by rw [hequals, List.length_cons]; omega)
  rw [hequals] at hskip
  obtain ⟨r₁', hequals', hr₁⟩ := hskip.tail (by decide)
  exact ⟨_, ⟨r', r₁', hkey', hequals', rfl⟩, hr₁.spacing spacing hlength⟩

theorem isLocal_pairOf {spacing : Spacing} {value : Reader Value}
    (hvalue : IsLocal w w' value.run) : IsLocal w w' (pairOf spacing value) := by
  rintro s s' ⟨k, v⟩ rest h hs hlength
  obtain ⟨x, hkey, hv⟩ := pairOf_eq_some_iff.mp hs
  obtain ⟨x', hkey', hx⟩ := h.keyUpTo hkey (Nat.lt_trans hlength (value.consumes hv))
  obtain ⟨rest', hv', hrest⟩ := hvalue hx hv hlength
  exact ⟨rest', pairOf_eq_some_iff.mpr ⟨x', hkey', hv'⟩, hrest⟩

theorem isLocal_valueOver {inner : Reader Value} (hinner : IsLocal w w' inner.run) :
    IsLocal w w' (valueOver inner) := by
  apply isLocal_of_cons length_lt_of_valueOver
  intro c s s' v rest h hs hlength
  rw [valueOver.eq_def] at hs
  split at hs
  · rename_i heq
    cases heq
    obtain ⟨⟨l, r⟩, hitems, heq⟩ := Option.map_eq_some_iff.mp hs
    cases heq
    obtain ⟨r', hitems', hr⟩ := isLocal_items (by decide) hinner h hitems hlength
    exact ⟨r', by rw [valueOver, hitems']; rfl, hr⟩
  · rename_i heq
    cases heq
    obtain ⟨⟨l, r⟩, hitems, heq⟩ := Option.map_eq_some_iff.mp hs
    cases heq
    have hpair : IsLocal w w' (inner.pair .free).run := isLocal_pairOf hinner
    obtain ⟨r', hitems', hr⟩ := isLocal_items (by decide) hpair h hitems hlength
    exact ⟨r', by rw [valueOver, hitems']; rfl, hr⟩
  · rename_i hbracket hbrace
    rw [valueOver.eq_3]
    · exact isLocal_scalar (h.cons c) hs hlength
    · rintro r heq
      cases heq
      exact hbracket s rfl
    · rintro r heq
      cases heq
      exact hbrace s rfl

theorem isLocal_value (depth : Nat) : IsLocal w w' (Reader.value depth).run := by
  induction depth with
  | zero => exact isLocal_scalar
  | succ depth ih => exact isLocal_valueOver ih

/-! ## Statements -/

theorem headerKey_eq_some_iff {s rest : List Char} {k : Key} :
    headerKey s = some (k, rest) ↔
      ∃ r, key (skipBlanks s) = some (k, r) ∧ skipBlanks r = ']' :: rest := by
  constructor
  · intro h
    rw [headerKey] at h
    split at h
    · cases h
    · rename_i r hkey
      split at h
      · rename_i hclosing
        cases h
        exact ⟨r, hkey, hclosing⟩
      · cases h
  · rintro ⟨r, hkey, hclosing⟩
    simp only [headerKey, hkey, hclosing]

theorem isLocal_headerKey : IsLocal w w' headerKey := by
  intro s s' k rest h hs hlength
  obtain ⟨r, hkey, hclosing⟩ := headerKey_eq_some_iff.mp hs
  have hle := length_skipBlanks_le r
  rw [hclosing, List.length_cons] at hle
  obtain ⟨r', hkey', hr⟩ := isLocal_key h.skipBlanks hkey (by omega)
  have hblanks := hr.skipBlanks
  rw [hclosing] at hblanks
  obtain ⟨rest', hclosing', hrest⟩ := hblanks.tail (by decide)
  exact ⟨rest', headerKey_eq_some_iff.mpr ⟨r', hkey', hclosing'⟩, hrest⟩

theorem isLocal_arrayHeaderKey : IsLocal w w' arrayHeaderKey := by
  intro s s' k rest h hs hlength
  rw [arrayHeaderKey] at hs ⊢
  split at hs
  · rename_i hheader
    cases hs
    obtain ⟨r', hheader', hr⟩ := isLocal_headerKey h hheader (Nat.lt_succ_of_lt hlength)
    obtain ⟨rest', rfl, hrest⟩ := hr.tail (by decide)
    exact ⟨rest', by rw [hheader']; rfl, hrest⟩
  · cases hs

theorem isLocal_statement : IsLocal w w' statement := by
  apply isLocal_of_cons length_lt_of_statement
  intro c s s' a rest h hs hlength
  rw [statement.eq_def] at hs
  split at hs
  · rename_i heq
    cases heq
    obtain ⟨⟨k, r⟩, hheader, heq⟩ := Option.map_eq_some_iff.mp hs
    cases heq
    obtain ⟨s₁, rfl, hr⟩ := h.tail (by decide)
    obtain ⟨rest', hheader', hrest⟩ := isLocal_arrayHeaderKey hr hheader hlength
    exact ⟨rest', by rw [statement, hheader']; rfl, hrest⟩
  · rename_i hsingle heq
    cases heq
    obtain ⟨⟨k, r⟩, hheader, heq⟩ := Option.map_eq_some_iff.mp hs
    cases heq
    obtain ⟨rest', hheader', hrest⟩ := isLocal_headerKey h hheader hlength
    refine ⟨rest', ?_, hrest⟩
    rw [statement.eq_2, hheader']
    · rfl
    · rintro r rfl
      obtain ⟨s₁, rfl⟩ := h.symm.exists_cons
      exact hsingle s₁ rfl
  · rename_i hdouble hsingle
    obtain ⟨⟨⟨k, v⟩, r⟩, hpair, heq⟩ := Option.map_eq_some_iff.mp hs
    cases heq
    obtain ⟨rest', hpair', hrest⟩ := isLocal_pairOf (isLocal_value limit) (h.cons c) hpair hlength
    refine ⟨rest', ?_, hrest⟩
    rw [statement.eq_3]
    · exact congrArg (Option.map _) hpair'
    · rintro r heq
      cases heq
      exact hsingle s rfl
    · rintro r heq
      cases heq
      exact hsingle s rfl

end LetterPages.Toml
