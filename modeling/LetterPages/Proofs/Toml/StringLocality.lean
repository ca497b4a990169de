import Mathlib.Tactic.SplitIfs
import LetterPages.Proofs.Toml.Locality

/-!
# Strings that end before a quote
-/

namespace LetterPages.Toml

variable {w w' s s' : List Char}

/-- A reader that takes something has only to be followed over a first character. -/
theorem isLocal_of_cons {α : Type} {f : List Char → Option (α × List Char)}
    (hconsumes : ∀ {s a r}, f s = some (a, r) → r.length < s.length)
    (hcons : ∀ {c s s' a r}, InStep w w' s s' → f (c :: s) = some (a, r) → w.length < r.length →
      ∃ r', f (c :: s') = some (a, r') ∧ InStep w w' r r') : IsLocal w w' f := by
  intro s s' a r h hs hlength
  cases h with
  | quote =>
    have := hconsumes hs
    simp only [List.length_cons] at this
    omega
  | cons c h => exact hcons h hs hlength

/-! ## Escapes -/

theorem isLocal_hexNumber (count n : Nat) : IsLocal w w' (hexNumber count n) := by
  intro s s' m r h hs hlength
  fun_induction hexNumber count n s generalizing s' with
  | case1 =>
    cases hs
    exact ⟨s', rfl, h⟩
  | case2 => cases hs
  | case3 => cases hs
  | case4 count n c rest d hd ih =>
    cases h with
    | quote => cases hd
    | cons _ h =>
      obtain ⟨r', hs', hr⟩ := ih h hs
      exact ⟨r', by rw [hexNumber, hd]; exact hs', hr⟩

theorem isLocal_hexScalar (count : Nat) : IsLocal w w' (hexScalar count) := by
  intro s s' c r h hs hlength
  unfold hexScalar at hs ⊢
  split at hs
  · cases hs
  · rename_i n rest hnumber
    split at hs
    · rename_i hvalid
      cases hs
      obtain ⟨r', hnumber', hr⟩ := isLocal_hexNumber count 0 h hnumber hlength
      exact ⟨r', by rw [hnumber']; exact if_pos hvalid, hr⟩
    · cases hs

theorem escape_cons (c : Char) (s : List Char) :
    escape (c :: s) =
      if c = 'x' then hexScalar 2 s
      else if c = 'u' then hexScalar 4 s
      else if c = 'U' then hexScalar 8 s
      else (simpleEscape? c).map fun e => (e, s) := by
  rw [escape.eq_def]
  split <;> simp_all

theorem isLocal_escape : IsLocal w w' escape := by
  apply isLocal_of_cons length_lt_of_escape
  intro c s s' e r h hs hlength
  rw [escape_cons] at hs ⊢
  split_ifs at hs ⊢
  · exact isLocal_hexScalar 2 h hs hlength
  · exact isLocal_hexScalar 4 h hs hlength
  · exact isLocal_hexScalar 8 h hs hlength
  · obtain ⟨e', he, heq⟩ := Option.map_eq_some_iff.mp hs
    cases heq
    exact ⟨s', by rw [he]; rfl, h⟩

/-! ## Strings on one line -/

theorem isLocal_literal : IsLocal w w' literal := by
  intro s s' text rest h hs hlength
  fun_induction literal s generalizing s' text rest with
  | case1 => cases hs
  | case2 r =>
    cases hs
    obtain ⟨r', rfl, hr⟩ := h.tail (by decide)
    exact ⟨r', by simp [literal], hr⟩
  | case3 c r hc hplain ih =>
    obtain ⟨more, hmore, rfl⟩ := eq_some_of_after hs
    cases h with
    | quote =>
      have := length_lt_of_literal hmore
      omega
    | cons _ h =>
      obtain ⟨rest', hmore', hrest⟩ := ih h hmore hlength
      exact ⟨rest', by simp [literal, hc, hplain, hmore', after], hrest⟩
  | case4 => cases hs

theorem basic_quote (r : List Char) : basic ('"' :: r) = some ([], r) := by
  rw [basic, if_pos rfl]

theorem basic_escape {r rest : List Char} {e : Char} (h : escape r = some (e, rest)) :
    basic ('\\' :: r) = after [e] (basic rest) := by
  grind [basic]

theorem basic_plain {c : Char} (hquote : ¬ c = '"') (hescape : ¬ c = '\\')
    (hplain : isPlain c = true) (r : List Char) : basic (c :: r) = after [c] (basic r) := by
  grind [basic]

theorem isLocal_basic : IsLocal w w' basic := by
  intro s s' text rest h hs hlength
  fun_induction basic s generalizing s' text rest with
  | case1 => cases hs
  | case2 r =>
    cases hs
    cases h with
    | quote => exact absurd hlength (Nat.lt_irrefl _)
    | cons _ h => exact ⟨_, basic_quote _, h⟩
  | case3 => cases hs
  | case4 r e r₁ hescape hc ih =>
    obtain ⟨more, hmore, rfl⟩ := eq_some_of_after hs
    have hlength₁ := length_lt_of_basic hmore
    obtain ⟨r', rfl, hr⟩ := h.tail (by decide)
    obtain ⟨r₁', hescape', hr₁⟩ := isLocal_escape hr hescape (by omega)
    obtain ⟨rest', hmore', hrest⟩ := ih hr₁ hmore hlength
    exact ⟨rest', by rw [basic_escape hescape', hmore']; rfl, hrest⟩
  | case5 c r hquote hc hplain ih =>
    obtain ⟨more, hmore, rfl⟩ := eq_some_of_after hs
    obtain ⟨r', rfl, hr⟩ := h.tail hquote
    obtain ⟨rest', hmore', hrest⟩ := ih hr hmore hlength
    exact ⟨rest', by rw [basic_plain hquote hc hplain, hmore']; rfl, hrest⟩
  | case6 => cases hs

/-! ## Long strings -/

/-- How many of the first `k` characters are the mark, up to the first that is not. -/
def marks (mark : Char) (k : Nat) (s : List Char) : Nat :=
  ((s.take k).takeWhile (· == mark)).length

theorem marks_cons_self (mark : Char) (k : Nat) (s : List Char) :
    marks mark (k + 1) (mark :: s) = marks mark k s + 1 := by
  simp [marks]

theorem marks_cons_of_ne {mark c : Char} (hc : ¬ c = mark) (k : Nat) (s : List Char) :
    marks mark k (c :: s) = 0 := by
  cases k with
  | zero => rfl
  | succ k => simp [marks, hc]

theorem marks_le_succ (mark : Char) (k : Nat) (s : List Char) :
    marks mark k s ≤ marks mark (k + 1) s := by
  induction k generalizing s with
  | zero => simp [marks]
  | succ k ih =>
    cases s with
    | nil => simp [marks]
    | cons c s =>
      by_cases hc : c = mark
      · subst hc
        rw [marks_cons_self, marks_cons_self]
        exact Nat.succ_le_succ (ih s)
      · simp [marks_cons_of_ne hc]

theorem InStep.marks (h : InStep w w' s s') {mark : Char} {k : Nat}
    (hlength : w.length < (s.drop (marks mark k s)).length) :
    Toml.marks mark k s' = Toml.marks mark k s ∧
      InStep w w' (s.drop (Toml.marks mark k s)) (s'.drop (Toml.marks mark k s)) := by
  induction k generalizing s s' with
  | zero => exact ⟨by simp [Toml.marks], by simpa [Toml.marks] using h⟩
  | succ k ih =>
    cases h with
    | quote =>
      by_cases hmark : '"' = mark
      · subst hmark
        rw [marks_cons_self, List.drop_succ_cons, List.length_drop] at hlength
        omega
      · rw [marks_cons_of_ne hmark, marks_cons_of_ne hmark]
        exact ⟨rfl, .quote⟩
    | cons c h =>
      by_cases hc : c = mark
      · subst hc
        simp only [marks_cons_self, List.drop_succ_cons] at hlength ⊢
        obtain ⟨hmarks, hdrop⟩ := ih h hlength
        exact ⟨congrArg (· + 1) hmarks, hdrop⟩
      · rw [marks_cons_of_ne hc, marks_cons_of_ne hc]
        exact ⟨rfl, h.cons c⟩

/-- Other marks than quotes end before the quote. -/
theorem InStep.length_lt_drop_marks (h : InStep w w' s s') {mark : Char} (hmark : mark ≠ '"')
    (k : Nat) : w.length < (s.drop (Toml.marks mark k s)).length := by
  induction k generalizing s s' with
  | zero => simpa [Toml.marks] using h.length_lt
  | succ k ih =>
    cases h with
    | quote => simp [marks_cons_of_ne (Ne.symm hmark)]
    | cons c h =>
      by_cases hc : c = mark
      · subst hc
        rw [marks_cons_self, List.drop_succ_cons]
        exact ih h
      · rw [marks_cons_of_ne hc]
        exact Nat.lt_succ_of_lt h.length_lt

theorem closing?_eq (mark : Char) (s : List Char) :
    closing? mark s =
      if 3 ≤ marks mark 5 s then
        some (List.replicate (marks mark 5 s - 3) mark, s.drop (marks mark 5 s))
      else none :=
  rfl

theorem isLocal_closing? (mark : Char) : IsLocal w w' (closing? mark) := by
  intro s s' text rest h hs hlength
  rw [closing?_eq] at hs
  split_ifs at hs with hmarks
  cases hs
  obtain ⟨hsame, hdrop⟩ := h.marks hlength
  exact ⟨_, by rw [closing?_eq, hsame, if_pos hmarks], hdrop⟩

theorem InStep.closing?_eq_none (h : InStep w w' s s') {mark : Char}
    (hs : closing? mark s = none) (hlength : w.length < (s.drop (Toml.marks mark 5 s)).length) :
    closing? mark s' = none := by
  rw [closing?_eq] at hs ⊢
  split_ifs at hs with hmarks
  rw [(h.marks hlength).1, if_neg hmarks]

theorem verbatim?_plain {c : Char} (hplain : isPlain c = true) (r : List Char) :
    verbatim? (c :: r) = some ([c], r) := by
  rw [verbatim?.eq_def]
  split
  · rename_i heq
    cases heq
  · rename_i heq
    cases heq
    cases hplain
  · rename_i heq
    cases heq
    cases hplain
  · rename_i heq
    cases heq
    rw [if_pos hplain]

theorem isLocal_verbatim? : IsLocal w w' verbatim? := by
  apply isLocal_of_cons length_lt_of_verbatim?
  intro c s s' cs r h hs hlength
  rw [verbatim?.eq_def] at hs
  split at hs
  · cases hs
  · rename_i heq
    cases heq
    cases hs
    exact ⟨s', rfl, h⟩
  · rename_i heq
    cases heq
    cases hs
    obtain ⟨r', rfl, hr⟩ := h.tail (by decide)
    exact ⟨r', rfl, hr⟩
  · rename_i heq
    cases heq
    split_ifs at hs with hplain
    cases hs
    exact ⟨s', verbatim?_plain hplain s', h⟩

theorem InStep.continuation?_eq_some (h : InStep w w' s s') {r : List Char}
    (hs : continuation? s = some r) : ∃ r', continuation? s' = some r' ∧ InStep w w' r r' := by
  rw [continuation?] at hs ⊢
  cases hbreak : Toml.afterBreak? (Toml.skipBlanks s) with
  | none =>
    rw [hbreak] at hs
    cases hs
  | some rest =>
    rw [hbreak] at hs
    cases hs
    obtain ⟨rest', hbreak', hrest⟩ := h.skipBlanks.afterBreak?_eq_some hbreak
    exact ⟨_, by rw [hbreak'], hrest.skipLines⟩

theorem InStep.continuation?_eq_none (h : InStep w w' s s') (hs : continuation? s = none) :
    continuation? s' = none := by
  rw [continuation?] at hs ⊢
  cases hbreak : Toml.afterBreak? (Toml.skipBlanks s) with
  | none => rw [h.skipBlanks.afterBreak?_eq_none hbreak]
  | some rest =>
    rw [hbreak] at hs
    cases hs

theorem longLiteral_of_closing {s text rest : List Char}
    (h : closing? '\x27' s = some (text, rest)) : longLiteral s = some (text, rest) := by
  grind [longLiteral]

theorem longLiteral_of_verbatim {s cs r : List Char} (hclosing : closing? '\x27' s = none)
    (h : verbatim? s = some (cs, r)) : longLiteral s = after cs (longLiteral r) := by
  grind [longLiteral]

theorem isLocal_longLiteral : IsLocal w w' longLiteral := by
  intro s s' text rest h hs hlength
  fun_induction longLiteral s generalizing s' text rest with
  | case1 s text rest hclosing =>
    cases hs
    obtain ⟨rest', hclosing', hrest⟩ := isLocal_closing? '\x27' h hclosing hlength
    exact ⟨rest', longLiteral_of_closing hclosing', hrest⟩
  | case2 => cases hs
  | case3 s hclosing cs r hverbatim ih =>
    obtain ⟨more, hmore, rfl⟩ := eq_some_of_after hs
    have hlength₁ := length_le_of_longLiteral hmore
    have hclosing' := h.closing?_eq_none hclosing (h.length_lt_drop_marks (by decide) 5)
    obtain ⟨r', hverbatim', hr⟩ := isLocal_verbatim? h hverbatim (by omega)
    obtain ⟨rest', hmore', hrest⟩ := ih hr hmore hlength
    exact ⟨rest', by rw [longLiteral_of_verbatim hclosing' hverbatim', hmore']; rfl, hrest⟩

theorem longBasic_of_closing {s text rest : List Char} (h : closing? '"' s = some (text, rest)) :
    longBasic s = some (text, rest) := by
  cases s <;> grind [longBasic]

theorem longBasic_of_continuation {r rest : List Char}
    (hclosing : closing? '"' ('\\' :: r) = none) (h : continuation? r = some rest) :
    longBasic ('\\' :: r) = longBasic rest := by
  grind [longBasic]

theorem longBasic_of_escape {r rest : List Char} {e : Char}
    (hclosing : closing? '"' ('\\' :: r) = none) (hline : continuation? r = none)
    (h : escape r = some (e, rest)) : longBasic ('\\' :: r) = after [e] (longBasic rest) := by
  grind [longBasic]

theorem longBasic_of_verbatim {c : Char} {r cs rest : List Char}
    (hclosing : closing? '"' (c :: r) = none) (hc : ¬ c = '\\')
    (h : verbatim? (c :: r) = some (cs, rest)) :
    longBasic (c :: r) = after cs (longBasic rest) := by
  grind [longBasic]

/-- A long basic string takes all the quotes at its front. -/
theorem length_le_drop_marks_of_longBasic {s text rest : List Char}
    (h : longBasic s = some (text, rest)) : rest.length ≤ (s.drop (marks '"' 5 s)).length := by
  fun_induction longBasic s generalizing text rest with
  | case1 s text rest hclosing =>
    cases h
    rw [closing?_eq] at hclosing
    split_ifs at hclosing
    cases hclosing
    exact Nat.le_refl _
  | case2 => cases h
  | case3 r rest hline hclosing ih =>
    have hrest := length_le_of_longBasic h
    have := length_lt_of_continuation? hline
    rw [marks_cons_of_ne (by decide), List.drop_zero, List.length_cons]
    omega
  | case4 => cases h
  | case5 r hline e rest hescape hclosing ih =>
    obtain ⟨more, hmore, rfl⟩ := eq_some_of_after h
    have hrest := length_le_of_longBasic hmore
    have := length_lt_of_escape hescape
    rw [marks_cons_of_ne (by decide), List.drop_zero, List.length_cons]
    omega
  | case6 => cases h
  | case7 c r hc cs rest hverbatim hclosing ih =>
    obtain ⟨more, hmore, rfl⟩ := eq_some_of_after h
    by_cases hquote : c = '"'
    · subst hquote
      rw [verbatim?_plain (by decide)] at hverbatim
      cases hverbatim
      have hrest := ih hmore
      have hmarks : marks '"' 4 r ≤ marks '"' 5 r := marks_le_succ '"' 4 r
      rw [marks_cons_self, List.drop_succ_cons]
      simp only [List.length_drop] at hrest ⊢
      omega
    · have hrest := length_le_of_longBasic hmore
      have := length_lt_of_verbatim? hverbatim
      rw [marks_cons_of_ne hquote, List.drop_zero]
      omega

theorem isLocal_longBasic : IsLocal w w' longBasic := by
  intro s s' text rest h hs hlength
  fun_induction longBasic s generalizing s' text rest with
  | case1 s text rest hclosing =>
    cases hs
    obtain ⟨rest', hclosing', hrest⟩ := isLocal_closing? '"' h hclosing hlength
    exact ⟨rest', longBasic_of_closing hclosing', hrest⟩
  | case2 => cases hs
  | case3 r rest hline hclosing ih =>
    have hquotes : w.length < (('\\' :: r).drop (marks '"' 5 ('\\' :: r))).length := h.length_lt
    have hclosing' := h.closing?_eq_none hclosing hquotes
    obtain ⟨r', rfl, hr⟩ := h.tail (by decide)
    obtain ⟨rest', hline', hrest⟩ := hr.continuation?_eq_some hline
    rw [longBasic_of_continuation hclosing' hline']
    exact ih hrest hs hlength
  | case4 => cases hs
  | case5 r hline e rest hescape hclosing ih =>
    obtain ⟨more, hmore, rfl⟩ := eq_some_of_after hs
    have hlength₁ := length_le_of_longBasic hmore
    have hquotes : w.length < (('\\' :: r).drop (marks '"' 5 ('\\' :: r))).length := h.length_lt
    have hclosing' := h.closing?_eq_none hclosing hquotes
    obtain ⟨r', rfl, hr⟩ := h.tail (by decide)
    have hline' := hr.continuation?_eq_none hline
    obtain ⟨r₁', hescape', hr₁⟩ := isLocal_escape hr hescape (by omega)
    obtain ⟨rest', hmore', hrest⟩ := ih hr₁ hmore hlength
    rw [longBasic_of_escape hclosing' hline' hescape', hmore']
    exact ⟨rest', rfl, hrest⟩
  | case6 => cases hs
  | case7 c r hc cs rest hverbatim hclosing ih =>
    have hquotes := length_le_drop_marks_of_longBasic
      ((longBasic_of_verbatim hclosing hc hverbatim).trans hs)
    obtain ⟨more, hmore, rfl⟩ := eq_some_of_after hs
    have hlength₁ := length_le_of_longBasic hmore
    have hclosing' := h.closing?_eq_none hclosing (Nat.lt_of_lt_of_le hlength hquotes)
    obtain ⟨r₁', hverbatim', hr₁⟩ := isLocal_verbatim? h hverbatim (by omega)
    obtain ⟨rest', hmore', hrest⟩ := ih hr₁ hmore hlength
    obtain ⟨r', rfl⟩ := h.exists_cons
    rw [longBasic_of_verbatim hclosing' hc hverbatim', hmore']
    exact ⟨rest', rfl, hrest⟩

/-! ## All forms -/

theorem InStep.symm (h : InStep w w' s s') : InStep w' w s' s := by
  induction h with
  | quote => exact .quote
  | cons c _ ih => exact ih.cons c

/-- Two marks stand at the front of both texts or of neither, once something stands before the
quote. -/
theorem InStep.exists_cons_cons {c d : Char} {r : List Char} (hs : s ≠ '"' :: w)
    (h : InStep w w' s (c :: d :: r)) : ∃ r', s = c :: d :: r' := by
  cases h with
  | quote => exact absurd rfl hs
  | cons _ h =>
    obtain ⟨r', rfl⟩ := h.symm.exists_cons
    exact ⟨r', rfl⟩

theorem isLocal_stringFrom : IsLocal w w' stringFrom := by
  apply isLocal_of_cons length_lt_of_stringFrom
  intro c s s' text rest h hs hlength
  rw [stringFrom.eq_def] at hs
  split at hs
  · rename_i r heq
    cases heq
    have h₁ := length_le_of_longBasic hs
    have h₂ := length_trimBreak_le r
    cases h with
    | quote => simp only [List.length_cons] at hlength; omega
    | cons _ h =>
      cases h with
      | quote => omega
      | cons _ h => exact isLocal_longBasic h.trimBreak hs hlength
  · rename_i r hlong heq
    cases heq
    have hne : s ≠ '"' :: w := by
      rintro rfl
      rw [basic_quote] at hs
      cases hs
      exact Nat.lt_irrefl _ hlength
    obtain ⟨rest', hbasic, hrest⟩ := isLocal_basic h hs hlength
    refine ⟨rest', ?_, hrest⟩
    rw [stringFrom.eq_2, hbasic]
    rintro r' rfl
    obtain ⟨r, rfl⟩ := h.exists_cons_cons hne
    exact hlong r rfl
  · rename_i r heq
    cases heq
    cases h with
    | cons _ h =>
      cases h with
      | cons _ h => exact isLocal_longLiteral h.trimBreak hs hlength
  · rename_i r hlong heq
    cases heq
    obtain ⟨rest', hliteral, hrest⟩ := isLocal_literal h hs hlength
    refine ⟨rest', ?_, hrest⟩
    rw [stringFrom.eq_4, hliteral]
    rintro r' rfl
    cases h with
    | cons _ h =>
      cases h with
      | cons _ h => exact hlong _ rfl
  · cases hs

end LetterPages.Toml
