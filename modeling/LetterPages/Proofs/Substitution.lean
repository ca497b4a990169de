import LetterPages.Environment
import LetterPages.Proofs.Utf8

/-!
# Substitution

The expansion of a text depends on the variables that it refers to and on nothing else.
-/

namespace LetterPages.Environment

/-- The environment in which the variable has the value, whatever it had before. -/
def set (env : Environment) (name value : String) : Environment :=
  ⟨(name, Utf8.ofString value) :: env.bindings⟩

def IsName (name : List Char) : Prop :=
  ∃ c r, name = c :: r ∧ isNameStart c = true ∧ ∀ d ∈ r, isNamePart d = true

theorem text?_set_self (env : Environment) (name value : String) :
    (env.set name value).text? name.toList = some value.toList := by
  simp [text?, set, Utf8.decode?_ofString]

theorem text?_set_of_ne (env : Environment) {name : String} (value : String) {other : List Char}
    (h : other ≠ name.toList) : (env.set name value).text? other = env.text? other := by
  have hne : (String.ofList other == name) = false := by
    rw [beq_eq_false_iff_ne]
    intro heq
    exact h (by rw [← heq, String.toList_ofList])
  simp [text?, set, List.lookup_cons, hne]

theorem text?_of_unset {env : Environment} {name : String}
    (h : env.bindings.lookup name = none) : env.text? name.toList = none := by
  simp [text?, h]

/-! ## References -/

theorem reference?_eq_some {s name rest : List Char} (h : reference? s = some (name, rest)) :
    s = name ++ '\x7d' :: rest := by
  unfold reference? at h
  split at h
  · cases h
  · rename_i c r
    split at h
    · split at h
      · rename_i hdrop
        cases h
        rw [List.cons_append, ← hdrop, List.takeWhile_append_dropWhile]
      · cases h
    · cases h

theorem reference?_name {name : List Char} (h : IsName name) (rest : List Char) :
    reference? (name ++ '\x7d' :: rest) = some (name, rest) := by
  obtain ⟨c, r, rfl, hc, hr⟩ := h
  have hdrop : (r ++ '\x7d' :: rest).dropWhile isNamePart = '\x7d' :: rest := by
    rw [List.dropWhile_append_of_pos hr]
    rfl
  have htake : (r ++ '\x7d' :: rest).takeWhile isNamePart = r := by
    rw [List.takeWhile_append_of_pos hr]
    simp [show isNamePart '\x7d' = false by decide]
  simp [reference?, hc, hdrop, htake]

/-! ## Expansions -/

theorem expand_of_reference (env : Environment) {r name rest : List Char}
    (h : reference? r = some (name, rest)) :
    env.expand ('$' :: '\x7b' :: r) = (env.text? name).getD (written name) ++ env.expand rest := by
  rw [expand.eq_2]
  split
  · rename_i hfound
    rw [h] at hfound
    cases hfound
    rfl
  · rename_i hnone
    rw [h] at hnone
    cases hnone

theorem expand_of_no_reference (env : Environment) {r : List Char} (h : reference? r = none) :
    env.expand ('$' :: '\x7b' :: r) = '$' :: env.expand ('\x7b' :: r) := by
  rw [expand.eq_2]
  split
  · rename_i hfound
    rw [h] at hfound
    cases hfound
  · rfl

theorem expand_written (env : Environment) {name : List Char} (h : IsName name)
    (rest : List Char) :
    env.expand (written name ++ rest) =
      (env.text? name).getD (written name) ++ env.expand rest := by
  rw [← expand_of_reference env (reference?_name h rest), written]
  simp only [List.cons_append, List.nil_append, List.append_assoc]

theorem written_infix_of_mem {s name : List Char} (h : name ∈ references s) :
    written name <:+: s := by
  fun_induction references s with
  | case1 => cases h
  | case2 r found rest hfound ih =>
    have hr := reference?_eq_some hfound
    rcases List.mem_cons.mp h with rfl | hmem
    · refine ⟨[], rest, ?_⟩
      rw [hr, written]
      simp
    · refine (ih hmem).trans ⟨'$' :: '\x7b' :: found ++ ['\x7d'], [], ?_⟩
      rw [hr]
      simp
  | case3 r hnone ih => exact (ih h).trans (List.suffix_cons _ _).isInfix
  | case4 c r hother ih => exact (ih h).trans (List.suffix_cons _ _).isInfix

theorem expand_congr {env env' : Environment} {s : List Char}
    (h : ∀ name ∈ references s, env.text? name = env'.text? name) :
    env.expand s = env'.expand s := by
  fun_induction references s with
  | case1 => rw [expand, expand]
  | case2 r name rest hfound ih =>
    rw [expand_of_reference env hfound, expand_of_reference env' hfound,
      h name List.mem_cons_self, ih fun other hmem => h other (List.mem_cons_of_mem _ hmem)]
  | case3 r hnone ih =>
    rw [expand_of_no_reference env hnone, expand_of_no_reference env' hnone, ih h]
  | case4 c r hother ih => rw [expand.eq_3 env c r hother, expand.eq_3 env' c r hother, ih h]

theorem expand_of_unset {env : Environment} {s : List Char}
    (h : ∀ name ∈ references s, env.bindings.lookup (String.ofList name) = none) :
    env.expand s = s := by
  fun_induction references s with
  | case1 => rw [expand]
  | case2 r name rest hfound ih =>
    have hname : env.text? name = none := by simp [text?, h name List.mem_cons_self]
    rw [expand_of_reference env hfound, hname, Option.getD_none,
      ih fun other hmem => h other (List.mem_cons_of_mem _ hmem), written,
      reference?_eq_some hfound]
    simp
  | case3 r hnone ih => rw [expand_of_no_reference env hnone, ih h]
  | case4 c r hother ih => rw [expand.eq_3 env c r hother, ih h]

/-- Where a text does not mention a variable, setting it changes nothing. -/
theorem expand_set {env : Environment} {name value : String} {s : List Char}
    (h : ¬ written name.toList <:+: s) : (env.set name value).expand s = env.expand s := by
  apply expand_congr
  intro other hmem
  apply text?_set_of_ne
  rintro rfl
  exact h (written_infix_of_mem hmem)

end LetterPages.Environment
