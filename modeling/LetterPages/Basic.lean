/-!
# Results and entries

How a step that gave a result was taken, and what a list of entries gives for a key.
-/

namespace LetterPages

/-! ## Results -/

theorem eq_ok_of_toOption {ε α : Type} {outcome : Except ε α} {a : α}
    (h : outcome.toOption = some a) : outcome = .ok a := by
  cases outcome with
  | error e => cases h
  | ok b =>
    cases h
    rfl

theorem eq_ok_of_mapError {ε ε' α : Type} {g : ε → ε'} {outcome : Except ε α} {a : α}
    (h : outcome.mapError g = .ok a) : outcome = .ok a := by
  cases outcome with
  | error e => cases h
  | ok b =>
    cases h
    rfl

theorem exists_of_bind_eq_ok {ε α β : Type} {x : Except ε α} {f : α → Except ε β} {b : β}
    (h : x >>= f = .ok b) : ∃ a, x = .ok a ∧ f a = .ok b := by
  cases x with
  | error e => cases h
  | ok a => exact ⟨a, rfl, h⟩

theorem exists_of_map_eq_ok {ε α β : Type} {x : Except ε α} {f : α → β} {b : β}
    (h : x.map f = .ok b) : ∃ a, x = .ok a ∧ f a = b := by
  cases x with
  | error e => cases h
  | ok a =>
    cases h
    exact ⟨a, rfl, rfl⟩

theorem of_guard_eq_ok {ε α : Type} {p : Prop} [Decidable p] {e : ε} {x : Except ε α} {a : α}
    (h : (if p then .error e else x) = .ok a) : ¬ p ∧ x = .ok a := by
  split at h
  next => cases h
  next hp => exact ⟨hp, h⟩

/-! ## Entries under keys -/

/-- Putting an entry in the place of the first one with its key changes what is found for that key
only. -/
theorem lookup_replacing {κ β : Type} [DecidableEq κ] [BEq κ] [LawfulBEq κ] {key : κ} {b : β}
    (replace : List (κ × β) → List (κ × β)) (hnil : replace [] = [(key, b)])
    (hcons : ∀ x rest, replace (x :: rest) =
      if x.1 = key then (key, b) :: rest else x :: replace rest)
    (entries : List (κ × β)) (other : κ) :
    (replace entries).lookup other = if other = key then some b else entries.lookup other := by
  induction entries with
  | nil =>
    rw [hnil, List.lookup_cons, List.lookup_nil]
    by_cases h : other = key
    · rw [if_pos h, h, beq_self_eq_true]
    · rw [if_neg h, beq_eq_false_iff_ne.mpr h]
  | cons x entries ih =>
    obtain ⟨name, held⟩ := x
    rw [hcons]
    by_cases hname : name = key
    · rw [if_pos hname, List.lookup_cons, List.lookup_cons, hname]
      by_cases h : other = key
      · rw [if_pos h, h, beq_self_eq_true]
      · rw [if_neg h, beq_eq_false_iff_ne.mpr h]
    · rw [if_neg hname, List.lookup_cons, List.lookup_cons]
      by_cases h : other = name
      · rw [h, beq_self_eq_true, if_neg hname]
      · rw [beq_eq_false_iff_ne.mpr h]
        exact ih

/-- A property of all items of a list, found by testing one after the other. -/
theorem forall_of_all {α : Type} {p : α → Prop} [DecidablePred p] {l : List α}
    (h : (l.all fun a => decide (p a)) = true) : ∀ a ∈ l, p a :=
  fun a ha => of_decide_eq_true (List.all_eq_true.mp h a ha)

end LetterPages
