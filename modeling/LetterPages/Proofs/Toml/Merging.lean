import Mathlib.Logic.Function.Basic
import LetterPages.Proofs.Toml.Alterations

/-!
# Members among other entries

A document gives values to members of its sections, under a header, by keys of two names or in an
inline table, and holds other things beside. The tables of the document are those of the rest with
the members put in, whatever the order and the form: a step of the building looks at one name only.
-/

namespace LetterPages.Toml

/-! ## One name at a time -/

namespace Entries

variable {t t' : Entries} {name : String} {f : Option Node → Option Node}

theorem lookup_cons (e : String × Node) (t : Entries) (other : String) :
    List.lookup other (e :: t) = if other = e.1 then some e.2 else t.lookup other := by
  obtain ⟨key, node⟩ := e
  by_cases h : other = key
  · simp [h]
  · simp [List.lookup_cons, h, beq_false_of_ne h]

theorem lookup_set (t : Entries) (node : Node) (other : String) :
    (t.set name node).lookup other =
      if other = name then (t.lookup name).map fun _ => node else t.lookup other := by
  induction t with
  | nil => simp [set]
  | cons e t ih =>
    rw [set_cons, lookup_cons, lookup_cons, lookup_cons, ih]
    grind

/-- An update changes what the table holds for the name, and nothing else. -/
theorem lookup_update (h : t.update name f = some t') (other : String) :
    t'.lookup other = if other = name then f (t.lookup name) else t.lookup other := by
  obtain ⟨node, hnode, rfl⟩ := Option.map_eq_some_iff.mp h
  cases hlookup : t.lookup name with
  | none =>
    rw [hlookup] at hnode
    by_cases hother : other = name
    · simp [List.lookup_append, hother, hlookup, hnode]
    · simp [List.lookup_append, lookup_cons, hother]
  | some held =>
    rw [hlookup] at hnode
    simp [lookup_set, hlookup, hnode]

theorem exists_update {node : Node} (h : f (t.lookup name) = some node) :
    ∃ t', t.update name f = some t' :=
  ⟨_, by rw [update, h]; rfl⟩

theorem lookup_of_mem {e : String × Node} (hnodup : (t.map Prod.fst).Nodup) (he : e ∈ t) :
    t.lookup e.1 = some e.2 := by
  induction t with
  | nil => cases he
  | cons first t ih =>
    obtain ⟨hfresh, hnodup⟩ := List.nodup_cons.mp hnodup
    rw [lookup_cons]
    rcases List.mem_cons.mp he with rfl | he
    · rw [if_pos rfl]
    · have hne : e.1 ≠ first.1 := by
        intro heq
        exact hfresh (heq ▸ List.mem_map_of_mem he)
      rw [if_neg hne, ih hnodup he]

theorem isWithinRange_of_lookup {node : Node} (h : entriesAreWithinRange t = true)
    (hlookup : t.lookup name = some node) : node.isWithinRange = true := by
  induction t with
  | nil => cases hlookup
  | cons e t ih =>
    rw [entriesAreWithinRange, Bool.and_eq_true] at h
    rw [lookup_cons] at hlookup
    split at hlookup
    · exact Option.some.inj hlookup ▸ h.1
    · exact ih h.2 hlookup

theorem nodup_update (h : t.update name f = some t') (ht : (t.map Prod.fst).Nodup) :
    (t'.map Prod.fst).Nodup := by
  obtain ⟨node, -, rfl⟩ := Option.map_eq_some_iff.mp h
  cases hlookup : t.lookup name with
  | none =>
    have hfresh := not_mem_of_lookup hlookup
    rw [Option.isSome_none, if_neg Bool.false_ne_true, List.map_append]
    refine List.nodup_append.mpr ⟨ht, by simp, ?_⟩
    rintro other hother _ hname rfl
    rw [List.mem_singleton.mp hname] at hother
    exact hfresh hother
  | some held =>
    rw [Option.isSome_some, if_pos rfl, names_set]
    exact ht

end Entries

/-- Work that looks at one name of a table and changes nothing else. -/
def Touches (name : String) (work : Entries → Option Entries) : Prop :=
  ∃ f, ∀ t, work t = t.update name f

/-- The name that a key begins with. -/
def Key.first (k : Key) : String :=
  k.path.headD k.name

theorem touches_put (k : Key) (node : Node) : Touches k.first (Entries.put k.name node k.path) := by
  obtain ⟨path, name⟩ := k
  cases path with
  | nil => exact ⟨_, Entries.add_eq name node⟩
  | cons step path => exact ⟨_, Entries.put_cons name node step path⟩

theorem touches_descend {name : String} {work : Entries → Option Entries}
    (hwork : Touches name work) (path : List String) :
    Touches (Key.mk path name).first (Entries.descend work path) := by
  cases path with
  | nil => exact hwork
  | cons step path => exact ⟨_, Entries.descend_cons work step path⟩

/-- What a section does to the table that its path leads to. -/
def Section.work (s : Section) : Entries → Option Entries :=
  if s.isArray then push? s.key.name s.pairs else open? s.key.name s.pairs

theorem Section.apply_eq (s : Section) : s.apply = Entries.descend s.work s.key.path := by
  funext t
  rw [apply, work]
  split <;> rfl

theorem Section.touches_work (s : Section) : Touches s.key.name s.work := by
  rw [work]
  split
  · exact ⟨_, push?_eq s.key.name s.pairs⟩
  · exact ⟨_, open?_eq s.key.name s.pairs⟩

/-! ## Members of one table -/

/-- The values that pairs give to a name of their table. -/
def valuesOf (name : String) (pairs : List (Key × Value)) : List Value :=
  pairs.filterMap fun p => if p.1 = ⟨[], name⟩ then some p.2 else none

/-- The pairs that give a value to no member. -/
def others (isMember : String → Bool) (pairs : List (Key × Value)) : List (Key × Value) :=
  pairs.filter fun p => !(p.1.path.isEmpty && isMember p.1.name)

/-- The second table is the first with these values of the members put in. -/
structure Merged (isMember : String → Bool) (values : String → List Value) (t u : Entries) :
    Prop where
  other : ∀ name, isMember name = false → u.lookup name = t.lookup name
  member : ∀ name, isMember name = true →
    (u.lookup name).toList.map some = (values name).map Value.node
  nodup : (u.map Prod.fst).Nodup

/-- Values that can be put in: at most one for a name, and no tables or arrays. -/
structure ArePlain (isMember : String → Bool) (values : String → List Value) : Prop where
  once : ∀ name, isMember name = true → (values name).length ≤ 1
  scalar : ∀ name, isMember name = true → ∀ v ∈ values name, ∃ a, v = .scalar a

theorem ArePlain.congr {isMember : String → Bool} {values values' : String → List Value}
    (h : ArePlain isMember values)
    (hvalues : ∀ name, isMember name = true → values name = values' name) :
    ArePlain isMember values' where
  once name hname := hvalues name hname ▸ h.once name hname
  scalar name hname := hvalues name hname ▸ h.scalar name hname

theorem ArePlain.of_append {isMember : String → Bool} {values more : String → List Value}
    (h : ArePlain isMember fun name => values name ++ more name) : ArePlain isMember values where
  once name hname := by
    have honce := h.once name hname
    rw [List.length_append] at honce
    omega
  scalar name hname v hv := h.scalar name hname v (List.mem_append_left _ hv)

/-- One value that is given once more is all there is, and has no items. -/
theorem ArePlain.of_given {isMember : String → Bool} {values more : String → List Value}
    {name : String} {v : Value} (h : ArePlain isMember fun name => values name ++ more name)
    (hname : isMember name = true) (hmore : more name = [v]) :
    values name = [] ∧ ∃ a, v = .scalar a := by
  have honce := h.once name hname
  rw [hmore, List.length_append, List.length_singleton] at honce
  exact ⟨List.eq_nil_of_length_eq_zero (by omega), h.scalar name hname v (by simp [hmore])⟩

namespace Merged

variable {isMember : String → Bool} {values : String → List Value} {t t' u : Entries}
  {name : String}

theorem empty (h : ∀ name, isMember name = true → values name = []) :
    Merged isMember values [] [] where
  other _ _ := rfl
  member name hname := by simp [h name hname]
  nodup := List.nodup_nil

theorem node_of_lookup {v? : Option Value} {n : Node} (h : Merged isMember values t u)
    (hname : isMember name = true) (hvalues : values name = v?.toList)
    (hlookup : u.lookup name = some n) : ∃ v, v? = some v ∧ v.node = some n := by
  have hmember := h.member name hname
  rw [hvalues, hlookup] at hmember
  cases v? with
  | none => cases hmember
  | some v => exact ⟨v, rfl, (List.cons.inj hmember).1.symm⟩

theorem eq_none_of_lookup {v? : Option Value} (h : Merged isMember values t u)
    (hname : isMember name = true) (hvalues : values name = v?.toList)
    (hlookup : u.lookup name = none) : v? = none := by
  have hmember := h.member name hname
  rw [hvalues, hlookup] at hmember
  cases v? with
  | none => rfl
  | some v => cases hmember

theorem congr {values' : String → List Value} (h : Merged isMember values t u)
    (hvalues : ∀ name, isMember name = true → values' name = values name) :
    Merged isMember values' t u where
  other := h.other
  member name hname := by rw [hvalues name hname, h.member name hname]
  nodup := h.nodup

/-- Work on a name that is no member is the same on both tables. -/
theorem work {work : Entries → Option Entries} (h : Merged isMember values t u)
    (hwork : Touches name work) (hname : isMember name = false) (ht : work t = some t') :
    ∃ u', work u = some u' ∧ Merged isMember values t' u' := by
  obtain ⟨f, hf⟩ := hwork
  rw [hf] at ht
  have hlookup := h.other name hname
  obtain ⟨node, hnode, -⟩ := Option.map_eq_some_iff.mp ht
  obtain ⟨u', hu⟩ := Entries.exists_update (t := u) (hlookup ▸ hnode)
  refine ⟨u', by rw [hf, hu], ?_, ?_, Entries.nodup_update hu h.nodup⟩
  · intro other hother
    rw [Entries.lookup_update hu, Entries.lookup_update ht, hlookup, h.other other hother]
  · intro other hother
    have hne : other ≠ name := by
      rintro rfl
      rw [hname] at hother
      cases hother
    rw [Entries.lookup_update hu, if_neg hne]
    exact h.member other hother

/-- The value of a member is put in where none was. -/
theorem put {v : Value} {node : Node} (h : Merged isMember values t u)
    (hname : isMember name = true) (hnone : values name = []) (hv : v.node = some node) :
    ∃ u', Entries.put name node [] u = some u' ∧
      Merged isMember (Function.update values name [v]) t u' := by
  have hlookup : u.lookup name = none := by
    have hmember := h.member name hname
    rw [hnone] at hmember
    simpa using hmember
  rw [Entries.put, Entries.add_eq]
  have hadd : Entries.addNode node (u.lookup name) = some node := by rw [hlookup]; rfl
  obtain ⟨u', hu⟩ := Entries.exists_update hadd
  refine ⟨u', hu, ?_, ?_, Entries.nodup_update hu h.nodup⟩
  · intro other hother
    have hne : other ≠ name := by
      rintro rfl
      rw [hname] at hother
      cases hother
    rw [Entries.lookup_update hu, if_neg hne, h.other other hother]
  · intro other hother
    rw [Entries.lookup_update hu]
    by_cases hne : other = name
    · simp [hne, hlookup, Entries.addNode, hv]
    · simp [hne, h.member other hother]

theorem pair_member {last : String} {v : Value} (h : Merged isMember values t u)
    (hlast : isMember last = true)
    (hplain : ArePlain isMember fun name => values name ++ valuesOf name [(⟨[], last⟩, v)]) :
    ∃ u', Toml.putAll u [(⟨[], last⟩, v)] = some u' ∧
      Merged isMember (fun name => values name ++ valuesOf name [(⟨[], last⟩, v)]) t u' := by
  have hgiven : valuesOf last [(⟨[], last⟩, v)] = [v] := by simp [valuesOf]
  obtain ⟨hnone, a, rfl⟩ := hplain.of_given hlast hgiven
  obtain ⟨u', hu, h'⟩ := h.put hlast hnone (v := .scalar a) rfl
  refine ⟨u', by rw [putAll_singleton, Value.node, Option.bind_some, hu], h'.congr ?_⟩
  intro name _
  by_cases hname : name = last
  · simp [hname, hnone, hgiven]
  · simp [Function.update_of_ne hname, valuesOf, Ne.symm hname]

theorem pair_other {k : Key} {v : Value} (h : Merged isMember values t u)
    (hfirst : isMember k.first = false) (ht : Toml.putAll t [(k, v)] = some t') :
    ∃ u', Toml.putAll u [(k, v)] = some u' ∧
      Merged isMember (fun name => values name ++ valuesOf name [(k, v)]) t' u' := by
  rw [putAll_singleton] at ht ⊢
  obtain ⟨node, hnode, ht⟩ := Option.bind_eq_some_iff.mp ht
  obtain ⟨u', hu, h'⟩ := h.work (touches_put k node) hfirst ht
  refine ⟨u', by rw [hnode, Option.bind_some, hu], h'.congr ?_⟩
  intro name hname
  have hne : k ≠ ⟨[], name⟩ := by
    rintro rfl
    cases hname.symm.trans hfirst
  simp [valuesOf, hne]

/-- Pairs put into both tables, those of the members only into the second. -/
theorem putAll {pairs : List (Key × Value)} (h : Merged isMember values t u)
    (hplain : ArePlain isMember fun name => values name ++ valuesOf name pairs)
    (hothers : ∀ p ∈ others isMember pairs, isMember p.1.first = false)
    (ht : Toml.putAll t (others isMember pairs) = some t') :
    ∃ u', Toml.putAll u pairs = some u' ∧
      Merged isMember (fun name => values name ++ valuesOf name pairs) t' u' := by
  induction pairs generalizing values t u with
  | nil =>
    cases ht
    exact ⟨u, rfl, h.congr fun name _ => List.append_nil _⟩
  | cons p pairs ih =>
    obtain ⟨k, v⟩ := p
    have hvalues : ∀ name, valuesOf name ((k, v) :: pairs) =
        valuesOf name [(k, v)] ++ valuesOf name pairs :=
      fun name => List.filterMap_append (l := [(k, v)])
    simp only [hvalues, ← List.append_assoc] at hplain ⊢
    rw [← List.singleton_append, putAll_append]
    by_cases hmember : k.path = [] ∧ isMember k.name = true
    · obtain ⟨path, last⟩ := k
      obtain ⟨rfl, hlast⟩ := hmember
      have hrest : others isMember ((⟨[], last⟩, v) :: pairs) = others isMember pairs := by
        simp [others, hlast]
      rw [hrest] at hothers ht
      obtain ⟨u₁, hu₁, h₁⟩ := h.pair_member hlast hplain.of_append
      obtain ⟨u', hu', h'⟩ := ih h₁ hplain hothers ht
      exact ⟨u', by rw [hu₁, Option.bind_some, hu'], h'⟩
    · have hkept : (!(k.path.isEmpty && isMember k.name)) = true := by grind
      have hrest : others isMember ((k, v) :: pairs) = [(k, v)] ++ others isMember pairs :=
        List.filter_cons_of_pos hkept
      rw [hrest] at hothers ht
      rw [putAll_append] at ht
      obtain ⟨t₁, ht₁, ht⟩ := Option.bind_eq_some_iff.mp ht
      obtain ⟨u₁, hu₁, h₁⟩ := h.pair_other (hothers _ List.mem_cons_self) ht₁
      obtain ⟨u', hu', h'⟩ := ih h₁ hplain (fun q hq => hothers q (List.mem_cons_of_mem _ hq)) ht
      exact ⟨u', by rw [hu₁, Option.bind_some, hu'], h'⟩

end Merged

end LetterPages.Toml
