import Mathlib.Tactic.ByContra
import LetterPages.Proofs.Toml.SpelledMoments
import LetterPages.Proofs.Toml.SpelledStrings

/-!
# Spelled values without items

A string, a number, a truth value or a moment, as it is written. The reader finds each of them when
what can follow a value comes next.
-/

namespace LetterPages.Toml

/-- A value without items and all the ways to write it. -/
inductive SpellsScalar : List Char → Scalar → Prop
  | string {s text : List Char} (h : SpellsString s text) :
      SpellsScalar s (.string (String.ofList text))
  | longString {s text : List Char} (h : SpellsLongString s text) :
      SpellsScalar s (.string (String.ofList text))
  | integer {s : List Char} {n : Int} (h : SpellsInteger s n) : SpellsScalar s (.integer (some n))
  | fraction {s : List Char} {b : Bool} (h : SpellsFraction s b) : SpellsScalar s (.fraction b)
  | boolean (b : Bool) : SpellsScalar (if b then "true".toList else "false".toList) (.boolean b)
  | moment {s : List Char} (h : SpellsMoment s) : SpellsScalar s .moment

/-! ## What follows a value -/

/-- A rest that a value can be followed by. -/
def Stopped (rest : List Char) : Prop :=
  ∀ c ∈ (skipBlanks rest).head?, c ∈ [',', ']', '\x7d', '#', '\r', '\n']

/-- No other mark of a string, no part of a word and no digit follows a value. -/
theorem Stopped.head {rest : List Char} (h : Stopped rest) : ∀ c ∈ rest.head?,
    c ≠ '"' ∧ c ≠ '\x27' ∧ isWordPart c = false ∧ isDecimalDigit c = false := by
  have hall : ∀ c ∈ [' ', '\t', ',', ']', '\x7d', '#', '\r', '\n'],
      c ≠ '"' ∧ c ≠ '\x27' ∧ isWordPart c = false ∧ isDecimalDigit c = false :=
    forall_of_all (by decide)
  cases rest with
  | nil => rintro c ⟨⟩
  | cons c r =>
    rintro d ⟨⟩
    apply hall
    cases hc : isBlank c with
    | true => rcases isBlank_iff.mp hc with rfl | rfl <;> simp
    | false =>
      rw [Stopped, skipBlanks_of_not_isBlank hc] at h
      have hmem := h c rfl
      simp_all

theorem Stopped.of_blank {r : List Char} (h : Stopped (' ' :: r)) : Stopped r := by
  rwa [Stopped, skipBlanks_of_isBlank rfl] at h

/-- What follows a value begins no other word, nor the time of a date. -/
theorem word_append_stopped {w rest : List Char} (hw : ∀ c ∈ w, isWordPart c = true)
    (hrest : Stopped rest) : word (w ++ rest) = (w, rest) := by
  obtain ⟨htake, hdrop⟩ := span_append hw fun c hc => (hrest.head c hc).2.2.1
  by_cases hjoint : ∃ c r, rest = ' ' :: c :: r
  · obtain ⟨c, r, rfl⟩ := hjoint
    have hdigit := (hrest.of_blank.head c rfl).2.2.2
    rw [word_of_joint hdrop, htake, hdigit, Bool.and_false, if_neg Bool.false_ne_true]
  · rw [word_of_end, htake, hdrop]
    intro c r heq
    exact hjoint ⟨c, r, hdrop.symm.trans heq⟩

/-- The word of a moment goes on over the blank between its date and its time. -/
theorem SpellsMoment.word_append {w rest : List Char} (h : SpellsMoment w) (hrest : Stopped rest) :
    word (w ++ rest) = (w, rest) := by
  cases h with
  | date hd => exact word_append_stopped hd.isWordPart hrest
  | time ht => exact word_append_stopped ht.isWordPart hrest
  | @both d t o joint hd hjoint ht ho =>
    have hlater := forall_isWordPart_append ht.isWordPart ho.isWordPart
    by_cases hblank : joint = ' '
    · subst hblank
      obtain ⟨htake, hdrop⟩ := span_append hd.isWordPart (r := ' ' :: (t ++ o ++ rest)) (by
        rintro c ⟨⟩
        rfl)
      obtain ⟨htake', hdrop'⟩ := span_append hlater fun c hc => (hrest.head c hc).2.2.1
      obtain ⟨⟨ha, hb⟩, -⟩ := ht
      have hdigit := isDecimalDigit_of_isDigit ha
      simp only [List.append_assoc, List.cons_append, List.nil_append] at htake hdrop htake' hdrop' ⊢
      rw [word_of_joint hdrop, htake, hd.isDate_eq, hdigit, Bool.and_self, if_pos rfl, htake',
        hdrop']
    · refine word_append_stopped ?_ hrest
      refine forall_isWordPart_append hd.isWordPart (List.forall_mem_cons.mpr ⟨?_, hlater⟩)
      simp only [List.mem_cons, hblank, List.not_mem_nil, or_false] at hjoint
      rcases hjoint with rfl | rfl <;> rfl

/-! ## Reading a value -/

/-- A word that has a value is no string. -/
theorem scalar_of_word {w rest : List Char} {a : Scalar} (hvalue : Scalar.ofWord? w = some a)
    (hword : word (w ++ rest) = (w, rest)) : scalar (w ++ rest) = some (.scalar a, rest) := by
  have hstring : stringFrom (w ++ rest) = none := by
    cases w with
    | nil => cases hvalue
    | cons c r =>
      apply stringFrom_of_ne
      · rintro rfl
        cases (ofWord?_quote r).symm.trans hvalue
      · rintro rfl
        cases (ofWord?_apostrophe r).symm.trans hvalue
  simp only [scalar, hstring, hword, hvalue]

theorem scalar_spelled {s rest : List Char} {a : Scalar} (h : SpellsScalar s a)
    (hrest : Stopped rest) : scalar (s ++ rest) = some (.scalar a, rest) := by
  have hmark : ∀ c ∈ rest.head?, c ≠ '"' ∧ c ≠ '\x27' :=
    fun c hc => ⟨(hrest.head c hc).1, (hrest.head c hc).2.1⟩
  cases h with
  | string h => rw [scalar, stringFrom_spelled h hmark]
  | longString h => rw [scalar, stringFrom_long h hmark]
  | integer h => exact scalar_of_word h.ofWord?_eq (word_append_stopped h.isWordPart hrest)
  | fraction h => exact scalar_of_word h.ofWord?_eq (word_append_stopped h.isWordPart hrest)
  | boolean b =>
    cases b <;> exact scalar_of_word rfl (word_append_stopped (forall_of_all (by decide)) hrest)
  | moment h => exact scalar_of_word h.ofWord?_eq (h.word_append hrest)

theorem word_fst_of_not_isWordPart {c : Char} (hc : isWordPart c = false) (r : List Char) :
    (word (c :: r)).1 = [] := by
  have htake : (c :: r).takeWhile isWordPart = [] := List.takeWhile_cons_of_neg (by simp [hc])
  have hdrop : (c :: r).dropWhile isWordPart = c :: r := List.dropWhile_cons_of_neg (by simp [hc])
  by_cases hjoint : ∃ d t, c :: r = ' ' :: d :: t
  · obtain ⟨d, t, heq⟩ := hjoint
    have hdate : isDate [] = false := by decide
    rw [word_of_joint (hdrop.trans heq), htake, hdate, Bool.false_and, if_neg Bool.false_ne_true]
  · rw [word_of_end, htake]
    intro d t heq
    exact hjoint ⟨d, t, hdrop.symm.trans heq⟩

/-- What a value without items can begin with. -/
theorem scalar_front {c : Char} {r : List Char} {v : Value × List Char}
    (h : scalar (c :: r) = some v) : c = '"' ∨ c = '\x27' ∨ isWordPart c = true := by
  by_contra hnot
  simp only [not_or, Bool.not_eq_true] at hnot
  obtain ⟨hquote, happ, hword⟩ := hnot
  have hnone : Scalar.ofWord? [] = none := by decide
  simp [scalar, stringFrom_of_ne hquote happ, word_fst_of_not_isWordPart hword, hnone] at h

end LetterPages.Toml
