import LetterPages.Toml.Statements

/-!
# Texts that agree up to a quote

A reader that stops before the quote or right at it reads the same from both texts, and what it
leaves agrees up to the quote again.
-/

namespace LetterPages.Toml

/-- The texts are the same up to a quote, after which they go on with `w` and with `w'`. -/
inductive InStep (w w' : List Char) : List Char → List Char → Prop
  | quote : InStep w w' ('"' :: w) ('"' :: w')
  | cons (c : Char) {s s' : List Char} (h : InStep w w' s s') : InStep w w' (c :: s) (c :: s')

def IsLocal {α : Type} (w w' : List Char) (f : List Char → Option (α × List Char)) : Prop :=
  ∀ ⦃s s' : List Char⦄ ⦃a : α⦄ ⦃r : List Char⦄, InStep w w' s s' → f s = some (a, r) →
    w.length < r.length → ∃ r', f s' = some (a, r') ∧ InStep w w' r r'

variable {w w' s s' : List Char}

namespace InStep

theorem append (a : List Char) (h : InStep w w' s s') : InStep w w' (a ++ s) (a ++ s') := by
  induction a with
  | nil => exact h
  | cons c a ih => exact ih.cons c

theorem length_lt (h : InStep w w' s s') : w.length < s.length := by
  induction h with
  | quote => exact Nat.lt_succ_self _
  | cons c _ ih => exact Nat.lt_succ_of_lt ih

/-- A longest stretch that ends before the quote is the same in both texts. -/
theorem span {p : Char → Bool} (h : InStep w w' s s')
    (hlength : w.length < (s.dropWhile p).length) :
    s.takeWhile p = s'.takeWhile p ∧ InStep w w' (s.dropWhile p) (s'.dropWhile p) := by
  induction h with
  | quote =>
    by_cases hp : p '"' = true
    · rw [List.dropWhile_cons_of_pos hp] at hlength
      have : (w.dropWhile p).length ≤ w.length := (List.dropWhile_sublist _).length_le
      omega
    · rw [List.takeWhile_cons_of_neg hp, List.takeWhile_cons_of_neg hp,
        List.dropWhile_cons_of_neg hp, List.dropWhile_cons_of_neg hp]
      exact ⟨rfl, quote⟩
  | cons c h ih =>
    by_cases hp : p c = true
    · rw [List.dropWhile_cons_of_pos hp] at hlength
      obtain ⟨htake, hdrop⟩ := ih hlength
      rw [List.takeWhile_cons_of_pos hp, List.takeWhile_cons_of_pos hp,
        List.dropWhile_cons_of_pos hp, List.dropWhile_cons_of_pos hp, htake]
      exact ⟨rfl, hdrop⟩
    · rw [List.takeWhile_cons_of_neg hp, List.takeWhile_cons_of_neg hp,
        List.dropWhile_cons_of_neg hp, List.dropWhile_cons_of_neg hp]
      exact ⟨rfl, h.cons c⟩

/-! ## Blanks and breaks -/

theorem skipBlanks (h : InStep w w' s s') :
    InStep w w' (Toml.skipBlanks s) (Toml.skipBlanks s') := by
  induction h with
  | quote => exact quote
  | cons c h ih =>
    unfold Toml.skipBlanks at ih ⊢
    by_cases hc : isBlank c = true
    · rwa [List.dropWhile_cons_of_pos hc, List.dropWhile_cons_of_pos hc]
    · rw [List.dropWhile_cons_of_neg hc, List.dropWhile_cons_of_neg hc]
      exact h.cons c

theorem afterBreak? (h : InStep w w' s s') :
    Option.Rel (InStep w w') (Toml.afterBreak? s) (Toml.afterBreak? s') := by
  cases h with
  | quote => exact .none
  | cons c h =>
    by_cases hc : c = '\n'
    · subst hc
      exact .some h
    · cases h with
      | quote => simp [Toml.afterBreak?, hc]
      | cons d h =>
        by_cases hd : c = '\r' ∧ d = '\n'
        · obtain ⟨rfl, rfl⟩ := hd
          exact .some h
        · rw [Toml.afterBreak?.eq_3, Toml.afterBreak?.eq_3]
          · exact .none
          all_goals
            intro r heq
            cases heq
            simp_all

theorem afterBreak?_eq_some (h : InStep w w' s s') {r : List Char}
    (hs : Toml.afterBreak? s = some r) :
    ∃ r', Toml.afterBreak? s' = some r' ∧ InStep w w' r r' := by
  have hrel := h.afterBreak?
  rw [hs] at hrel
  cases hs' : Toml.afterBreak? s' with
  | none => rw [hs'] at hrel; cases hrel
  | some r' =>
    rw [hs'] at hrel
    cases hrel with
    | some hr => exact ⟨r', rfl, hr⟩

theorem afterBreak?_eq_none (h : InStep w w' s s') (hs : Toml.afterBreak? s = none) :
    Toml.afterBreak? s' = none := by
  have hrel := h.afterBreak?
  rw [hs] at hrel
  cases hs' : Toml.afterBreak? s' with
  | none => rfl
  | some r' => rw [hs'] at hrel; cases hrel

theorem trimBreak (h : InStep w w' s s') :
    InStep w w' (Toml.trimBreak s) (Toml.trimBreak s') := by
  unfold Toml.trimBreak
  cases hs : Toml.afterBreak? s with
  | none =>
    rw [h.afterBreak?_eq_none hs]
    exact h
  | some r =>
    obtain ⟨r', hs', hr⟩ := h.afterBreak?_eq_some hs
    rw [hs']
    exact hr

end InStep

/-! ## Gaps -/

theorem skipLines_of_break {c : Char} {r rest : List Char} (hc : ¬ isBlank c = true)
    (h : afterBreak? (c :: r) = some rest) : skipLines (c :: r) = skipLines rest := by
  grind [skipLines]

theorem skipLines_of_stop {c : Char} {r : List Char} (hc : ¬ isBlank c = true)
    (h : afterBreak? (c :: r) = none) : skipLines (c :: r) = c :: r := by
  grind [skipLines]

theorem skipGap_of_break {c : Char} {r rest : List Char} (hc : ¬ isBlank c = true)
    (hmark : ¬ c = '#') (h : afterBreak? (c :: r) = some rest) :
    skipGap (c :: r) = skipGap rest := by
  grind [skipGap]

theorem skipGap_of_stop {c : Char} {r : List Char} (hc : ¬ isBlank c = true)
    (hmark : ¬ c = '#') (h : afterBreak? (c :: r) = none) : skipGap (c :: r) = c :: r := by
  grind [skipGap]

namespace InStep

theorem skipLines (h : InStep w w' s s') :
    InStep w w' (Toml.skipLines s) (Toml.skipLines s') := by
  fun_induction Toml.skipLines s generalizing s' with
  | case1 => cases h
  | case2 c r hblank ih =>
    cases h with
    | quote => cases hblank
    | cons _ h =>
      rw [Toml.skipLines, if_pos hblank]
      exact ih h
  | case3 c r hblank rest hbreak ih =>
    obtain ⟨rest', hbreak', hrest⟩ := h.afterBreak?_eq_some hbreak
    cases h with
    | quote => cases hbreak
    | cons _ h =>
      rw [skipLines_of_break hblank hbreak']
      exact ih hrest
  | case4 c r hblank hbreak =>
    have hbreak' := h.afterBreak?_eq_none hbreak
    cases h with
    | quote =>
      rw [skipLines_of_stop (by decide) hbreak']
      exact quote
    | cons _ h =>
      rw [skipLines_of_stop hblank hbreak']
      exact h.cons c

theorem skipGap (h : InStep w w' s s') (hlength : w.length < (Toml.skipGap s).length) :
    InStep w w' (Toml.skipGap s) (Toml.skipGap s') := by
  fun_induction Toml.skipGap s generalizing s' with
  | case1 => cases h
  | case2 c r hblank ih =>
    cases h with
    | quote => cases hblank
    | cons _ h =>
      rw [Toml.skipGap, if_pos hblank]
      exact ih h hlength
  | case3 r hblank ih =>
    cases h with
    | cons _ h =>
      have hcomment := Nat.lt_of_lt_of_le hlength (length_skipGap_le _)
      rw [Toml.skipGap, if_neg hblank, if_pos rfl]
      exact ih (h.span hcomment).2 hlength
  | case4 c r hblank hmark rest hbreak ih =>
    obtain ⟨rest', hbreak', hrest⟩ := h.afterBreak?_eq_some hbreak
    cases h with
    | quote => cases hbreak
    | cons _ h =>
      rw [skipGap_of_break hblank hmark hbreak']
      exact ih hrest hlength
  | case5 c r hblank hmark hbreak =>
    have hbreak' := h.afterBreak?_eq_none hbreak
    cases h with
    | quote =>
      rw [skipGap_of_stop (by decide) (by decide) hbreak']
      exact quote
    | cons _ h =>
      rw [skipGap_of_stop hblank hmark hbreak']
      exact h.cons c

theorem skipComment (h : InStep w w' s s') (hlength : w.length < (Toml.skipComment s).length) :
    InStep w w' (Toml.skipComment s) (Toml.skipComment s') := by
  cases h with
  | quote => exact quote
  | cons c h =>
    by_cases hc : c = '#'
    · subst hc
      exact (h.span hlength).2
    · rw [Toml.skipComment.eq_2 _ (by simp [hc]), Toml.skipComment.eq_2 _ (by simp [hc])]
      exact h.cons c

theorem spacing (h : InStep w w' s s') (spacing : Spacing)
    (hlength : w.length < (spacing.skip s).length) :
    InStep w w' (spacing.skip s) (spacing.skip s') := by
  cases spacing with
  | line => exact h.skipBlanks
  | free => exact h.skipGap hlength

theorem exists_cons {c : Char} {r t : List Char} (h : InStep w w' (c :: r) t) :
    ∃ r', t = c :: r' := by
  cases h with
  | quote => exact ⟨_, rfl⟩
  | cons _ h => exact ⟨_, rfl⟩

/-- What follows a character that is no quote. -/
theorem tail {c : Char} {r t : List Char} (h : InStep w w' (c :: r) t) (hc : c ≠ '"') :
    ∃ r', t = c :: r' ∧ InStep w w' r r' := by
  cases h with
  | quote => exact absurd rfl hc
  | cons _ h => exact ⟨_, rfl, h⟩

theorem lineEnd (h : InStep w w' s s') {r : List Char} (hs : Toml.lineEnd s = some r)
    (hlength : w.length < r.length) : ∃ r', Toml.lineEnd s' = some r' ∧ InStep w w' r r' := by
  rw [Toml.lineEnd] at hs ⊢
  cases hcomment : Toml.skipComment (Toml.skipBlanks s) with
  | nil =>
    rw [hcomment] at hs
    cases hs
    cases hlength
  | cons c rest =>
    rw [hcomment] at hs
    have hbreak := length_lt_of_afterBreak? hs
    have hstep := h.skipBlanks.skipComment (by rw [hcomment]; omega)
    rw [hcomment] at hstep
    obtain ⟨rest', hcomment'⟩ := hstep.exists_cons
    rw [hcomment'] at hstep ⊢
    exact hstep.afterBreak?_eq_some hs

end InStep

/-! ## Items -/

theorem items_eq_nil {α : Type} {closing : Char} {item : Reader α} {s rest : List Char}
    (h : skipGap s = closing :: rest) : items closing item s = some ([], rest) := by
  grind [items]

theorem items_eq_singleton {α : Type} {closing c : Char} {item : Reader α} {a : α}
    {s r r' rest : List Char} (h : skipGap s = c :: r) (hc : c ≠ closing)
    (hitem : item.run (c :: r) = some (a, r')) (hnext : skipGap r' = closing :: rest) :
    items closing item s = some ([a], rest) := by
  grind [items]

theorem items_eq_cons {α : Type} {closing c : Char} {item : Reader α} {a : α} {l : List α}
    {s r r' r'' rest : List Char} (h : skipGap s = c :: r) (hc : c ≠ closing)
    (hitem : item.run (c :: r) = some (a, r')) (hnext : skipGap r' = ',' :: r'')
    (hcomma : closing ≠ ',') (hmore : items closing item r'' = some (l, rest)) :
    items closing item s = some (a :: l, rest) := by
  grind [items]

theorem InStep.skipGap_cons (h : InStep w w' s s') {c : Char} {r : List Char}
    (hs : Toml.skipGap s = c :: r) (hlength : w.length ≤ r.length) :
    ∃ r', Toml.skipGap s' = c :: r' ∧ InStep w w' (c :: r) (c :: r') := by
  have hstep := h.skipGap (by rw [hs]; exact Nat.lt_succ_of_le hlength)
  rw [hs] at hstep
  obtain ⟨r', hs'⟩ := hstep.exists_cons
  rw [hs'] at hstep
  exact ⟨r', hs', hstep⟩

theorem isLocal_items {α : Type} {closing : Char} {item : Reader α} (hquote : closing ≠ '"')
    (hitem : IsLocal w w' item.run) : IsLocal w w' (items closing item) := by
  intro s s' l rest h hs hlength
  fun_induction items closing item s generalizing s' l rest with
  | case1 => cases hs
  | case2 s r hstart =>
    cases hs
    obtain ⟨r', hstart', hr⟩ := h.skipGap_cons hstart (Nat.le_of_lt hlength)
    cases hr with
    | quote => exact absurd rfl hquote
    | cons _ hr => exact ⟨r', items_eq_nil hstart', hr⟩
  | case3 => cases hs
  | case4 => cases hs
  | case5 s c r hstart hc a r₁ hrun rest hnext =>
    cases hs
    have h₁ := length_lt_of_skipGap hnext
    have h₂ := item.consumes hrun
    simp only [List.length_cons] at h₂
    obtain ⟨r', hstart', hr⟩ := h.skipGap_cons hstart (by omega)
    obtain ⟨r₁', hrun', hr₁⟩ := hitem hr hrun (by omega)
    obtain ⟨rest', hnext', hrest⟩ := hr₁.skipGap_cons hnext (Nat.le_of_lt hlength)
    cases hrest with
    | quote => exact absurd rfl hquote
    | cons _ hrest => exact ⟨rest', items_eq_singleton hstart' hc hrun' hnext', hrest⟩
  | case6 => cases hs
  | case7 s c r hstart hc a r₁ hrun r₂ more r₃ hmore hnext hclosing ih =>
    cases hs
    have h₁ := length_lt_of_items hmore
    have h₂ := length_lt_of_skipGap hnext
    have h₃ := item.consumes hrun
    simp only [List.length_cons] at h₃
    obtain ⟨r', hstart', hr⟩ := h.skipGap_cons hstart (by omega)
    obtain ⟨r₁', hrun', hr₁⟩ := hitem hr hrun (by omega)
    obtain ⟨r₂', hnext', hr₂⟩ := hr₁.skipGap_cons hnext (by omega)
    cases hr₂ with
    | cons _ hr₂ =>
      obtain ⟨rest', hmore', hrest⟩ := ih hr₂ hmore hlength
      exact ⟨rest', items_eq_cons hstart' hc hrun' hnext' (Ne.symm hclosing) hmore', hrest⟩
  | case8 => cases hs

end LetterPages.Toml
