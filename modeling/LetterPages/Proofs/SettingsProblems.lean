import LetterPages.Proofs.TextSettings

/-!
# What the problem of a text names

A text is refused for something that it holds: a rest that begins no statement, a statement whose
key has no place among those before it, or a name whose value cannot be used. The problem names the
first one.
-/

namespace LetterPages

namespace Toml

theorem clash_eq {before l : List Statement}
    (hbefore : (Outline.ofStatements before).root.isSome = true)
    (h : (Outline.ofStatements (before ++ l)).root = none) :
    ∃ front a rest, l = front ++ a :: rest ∧
      (Outline.ofStatements (before ++ front)).root.isSome = true ∧
      (Outline.ofStatements (before ++ (front ++ [a]))).root = none ∧
      clash before l = a.key.names := by
  induction l generalizing before with
  | nil =>
    rw [List.append_nil] at h
    rw [h] at hbefore
    cases hbefore
  | cons a rest ih =>
    cases hroot : (Outline.ofStatements (before ++ [a])).root with
    | none =>
      refine ⟨[], a, rest, rfl, by rwa [List.append_nil], hroot, ?_⟩
      rw [clash, hroot]
      rfl
    | some t =>
      have hnext : (Outline.ofStatements (before ++ [a])).root.isSome = true := by
        rw [hroot]
        rfl
      obtain ⟨front, b, more, rfl, hfront, hb, heq⟩ := ih hnext (by rwa [List.append_assoc])
      rw [List.append_assoc] at hfront hb
      refine ⟨a :: front, b, more, rfl, hfront, hb, ?_⟩
      rw [clash, hroot]
      exact heq

theorem parse_eq_error {text : List Char} {p : Problem} (h : parse text = .error p) :
    (∃ rest, statements (withoutMark text) = .error rest ∧ p = .unread (lineOf text rest)) ∨
      ∃ front a rest, statements (withoutMark text) = .ok (front ++ a :: rest) ∧
        (Outline.ofStatements front).root.isSome = true ∧
        (Outline.ofStatements (front ++ [a])).root = none ∧ p = .clash a.key.names := by
  rw [parse] at h
  split at h
  next rest hrest =>
    cases h
    exact .inl ⟨rest, hrest, rfl⟩
  next l hl =>
    split at h
    next hroot =>
      cases h
      have hempty : (Outline.ofStatements []).root.isSome = true := rfl
      obtain ⟨front, a, rest, rfl, hfront, ha, heq⟩ := clash_eq hempty hroot
      exact .inr ⟨front, a, rest, hl, hfront, ha, congrArg Problem.clash heq⟩
    next => cases h

end Toml

namespace Settings

open Toml (Node Entries)

/-- Whether a value can be used does not depend on the settings it is put into. -/
def Steady (set : Node → Settings → Option Settings) : Prop :=
  ∀ n s s', (set n s).isSome = (set n s').isSome

theorem steady_map {α : Type} (read? : Node → Option α) (put : α → Settings → Settings) :
    Steady fun n s => (read? n).map fun a => put a s := by
  intro n s s'
  rw [Option.isSome_map, Option.isSome_map]

variable {members : List Member}

section

variable (hmembers : ∀ m ∈ members, Steady m.2)

include hmembers

theorem steady_effect (name : String) : Steady (effect members name) := by
  intro n s s'
  rw [effect, effect]
  cases hlookup : members.lookup name with
  | none =>
    dsimp only
    split <;> rfl
  | some set =>
    obtain ⟨front, rest, rfl, -⟩ := List.lookup_eq_some_iff.mp hlookup
    exact hmembers (name, set) (by simp) n s s'

/-- A table can be used when each of its values can. -/
theorem isSome_visit_iff (t : Entries) (s : Settings) : (visit members t s).isSome = true ↔
    ∀ e ∈ t, (visit members [e] standard).isSome = true := by
  induction t generalizing s with
  | nil => exact iff_of_true rfl (by rintro e ⟨⟩)
  | cons e t ih =>
    have hone : (visit members [e] standard).isSome = (effect members e.1 e.2 s).isSome := by
      rw [visit_cons, steady_effect hmembers e.1 e.2 s standard]
      cases effect members e.1 e.2 standard <;> rfl
    rw [List.forall_mem_cons, hone, visit_cons]
    cases effect members e.1 e.2 s with
    | none => simp
    | some s' => simpa using ih s'

theorem steady_visitItems (items : List Node) (s s' : Settings) :
    (visitItems members items s).isSome = (visitItems members items s').isSome := by
  induction members generalizing items s s' with
  | nil => rfl
  | cons m members ih =>
    cases items with
    | nil => rfl
    | cons n items =>
      obtain ⟨hm, hmembers⟩ := List.forall_mem_cons.mp hmembers
      have hstep := hm n s s'
      rw [visitItems_cons, visitItems_cons]
      cases hs : m.2 n s with
      | none =>
        cases hs' : m.2 n s' with
        | none => rfl
        | some s₁' => simp [hs, hs'] at hstep
      | some s₁ =>
        cases hs' : m.2 n s' with
        | none => simp [hs, hs'] at hstep
        | some s₁' => exact ih hmembers items s₁ s₁'

theorem steady_visitSection : Steady (visitSection members) := by
  intro n s s'
  unfold visitSection
  split
  · rw [Bool.eq_iff_iff, isSome_visit_iff hmembers, isSome_visit_iff hmembers]
  · exact steady_visitItems hmembers _ s s'
  · rfl
  · rfl

theorem misfit_eq {t : Entries} {s : Settings} (h : visit members t s = none) :
    ∃ n, (misfit members t, n) ∈ t ∧ visit members [(misfit members t, n)] standard = none := by
  have hbad : ¬ ∀ e ∈ t, (visit members [e] standard).isSome = true := by
    rw [← isSome_visit_iff hmembers t s, h]
    exact Bool.false_ne_true
  cases hfind : t.find? fun e => (visit members [e] standard).isNone with
  | none =>
    refine absurd (fun e he => ?_) hbad
    simpa [Option.isSome_iff_ne_none] using List.find?_eq_none.mp hfind e he
  | some e =>
    have hmisfit : misfit members t = e.1 := by rw [misfit, hfind]; rfl
    rw [hmisfit]
    exact ⟨e.2, List.mem_of_find?_eq_some hfind, by simpa using List.find?_some hfind⟩

end

theorem steady_sections : ∀ m ∈ sections, Steady m.2 := by
  simp only [sections, List.forall_mem_cons]
  refine ⟨steady_visitSection ?_, steady_visitSection ?_, steady_visitSection ?_,
    steady_visitSection ?_, by simp⟩
  · simp only [source, List.forall_mem_cons]
    exact ⟨steady_map pathOf? _, by simp⟩
  · simp only [chunking, List.forall_mem_cons]
    exact ⟨steady_map sizeOf? _, by simp⟩
  · simp only [load, List.forall_mem_cons]
    exact ⟨steady_map pathOf? _, steady_map pathOf? _, by simp⟩
  · simp only [output, List.forall_mem_cons]
    exact ⟨steady_map textOf? _, by simp⟩

/-- The problem of a settings text is that of its table, or names an entry of the table that cannot
be used, whatever else the table holds. -/
theorem ofToml_eq_error {text : List Char} {p : Toml.Problem} (h : ofToml text = .error p) :
    Toml.parse text = .error p ∨ ∃ t name n, Toml.parse text = .ok t ∧ (name, n) ∈ t ∧
      visit sections [(name, n)] standard = none ∧ p = .misfit name := by
  rw [ofToml] at h
  cases hparse : Toml.parse text with
  | error q =>
    rw [hparse] at h
    exact .inl (congrArg Except.error (Except.error.inj h))
  | ok t =>
    rw [hparse] at h
    simp only [bind, Except.bind] at h
    split at h
    next => cases h
    next hvisit =>
      cases h
      obtain ⟨n, hmem, hn⟩ := misfit_eq steady_sections hvisit
      exact .inr ⟨t, _, n, rfl, hmem, hn, rfl⟩

end Settings

end LetterPages
