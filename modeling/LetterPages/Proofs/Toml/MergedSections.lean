import Mathlib.Tactic.SplitIfs
import LetterPages.Proofs.Toml.Merging
import LetterPages.Proofs.Toml.Members

/-!
# Members in the sections of a document

Taking the members out of a document leaves an outline whose tables are built in the same way. When
these can be built, so can those of the whole document, and they hold the members besides.
-/

namespace LetterPages.Toml

/-! ## The members of a document -/

/-- The values that a pair at the top gives to a member of a section, behind a key of two names or in
an inline table. -/
def pairValues (sectionName name : String) : Key × Value → List Value
  | (⟨[step], last⟩, v) => if step = sectionName ∧ last = name then [v] else []
  | (⟨[], step⟩, .table pairs) => if step = sectionName then valuesOf name pairs else []
  | _ => []

/-- The values that are given to a member under a header of its section. -/
def Section.values (sectionName name : String) (s : Section) : List Value :=
  if s.isArray = false ∧ s.key = ⟨[], sectionName⟩ then valuesOf name s.pairs else []

/-- All values that a document gives to a member of a section. -/
def Outline.values (sectionName name : String) (o : Outline) : List Value :=
  o.pairs.flatMap (pairValues sectionName name) ++
    o.sections.flatMap (Section.values sectionName name)

section

variable (isMember : String → String → Bool)

/-- A pair without what it gives to members. -/
def other? : Key × Value → Option (Key × Value)
  | (⟨[step], last⟩, v) => if isMember step last then none else some (⟨[step], last⟩, v)
  | (⟨[], step⟩, .table pairs) => some (⟨[], step⟩, .table (others (isMember step) pairs))
  | p => some p

def Section.without (s : Section) : Section :=
  if s.isArray = false ∧ s.key.path = [] then
    { s with pairs := others (isMember s.key.name) s.pairs }
  else s

/-- What a document holds besides the members. -/
def Outline.without (o : Outline) : Outline :=
  ⟨o.pairs.filterMap (other? isMember), o.sections.map (Section.without isMember)⟩

/-- There are members of this name's section. -/
def IsSection (sectionName : String) : Prop :=
  ∃ name, isMember sectionName name = true

/-- A pair at the top that leads to no member, and makes no section anything but a table. -/
def PairOutside : Key × Value → Prop
  | (⟨step :: path, last⟩, _) => isMember step (Key.mk path last).first = false
  | (⟨[], step⟩, v) => IsSection isMember step →
      ∃ pairs, v = .table pairs ∧ ∀ p ∈ pairs, isMember step p.1.first = false

def Section.Outside (s : Section) : Prop :=
  match s.key.path with
  | step :: path => isMember step (Key.mk path s.key.name).first = false
  | [] => IsSection isMember s.key.name →
      s.isArray = false ∧ ∀ p ∈ s.pairs, isMember s.key.name p.1.first = false

/-- A document with nothing under the names of members, in which sections are tables. -/
structure Outline.Outside (o : Outline) : Prop where
  pairs : ∀ p ∈ o.pairs, PairOutside isMember p
  sections : ∀ s ∈ o.sections, s.Outside isMember

/-- Some member of the section is given behind a key of two names. -/
def Outline.IsDotted (o : Outline) (sectionName : String) : Prop :=
  ∃ name v, isMember sectionName name = true ∧ (⟨[sectionName], name⟩, v) ∈ o.pairs

/-- Sections with dotted members have no header and no inline table. -/
structure Outline.IsUniform (o : Outline) : Prop where
  pairs : ∀ name v, (⟨[], name⟩, v) ∈ o.pairs → ¬ o.IsDotted isMember name
  sections : ∀ s ∈ o.sections, s.key.path = [] → ¬ o.IsDotted isMember s.key.name

end

theorem others_of_not_isSection {isMember : String → String → Bool} {sectionName : String}
    (h : ¬ IsSection isMember sectionName) (pairs : List (Key × Value)) :
    others (isMember sectionName) pairs = pairs := by
  have hnot : ∀ name, isMember sectionName name = false := by
    intro name
    rw [← Bool.not_eq_true]
    exact fun hname => h ⟨name, hname⟩
  simp [others, hnot]

/-! ## What a section holds -/

/-- A step that leads into a table, which it makes if there is none. -/
structure Leads (origin : Origin) (work : Entries → Option Entries)
    (act : Option Node → Option Node) : Prop where
  absent : act none = (work []).map (.table origin)
  dotted : ∀ t, act (some (.table .dotted t)) = (work t).map (.table .dotted)
  table : ∀ origin, (∀ t, act (some (.table origin t)) = (work t).map (.table origin)) ∨
    ∀ t, act (some (.table origin t)) = none

theorem leads_put (name : String) (node : Node) (path : List String) :
    Leads .dotted (Entries.put name node path) (Entries.putNode name node path) where
  absent := rfl
  dotted _ := rfl
  table origin := by
    cases origin with
    | headed => exact .inr fun _ => rfl
    | inline => exact .inr fun _ => rfl
    | dotted => exact .inl fun _ => rfl
    | implied =>
      by_cases hpath : path = []
      · exact .inr fun _ => if_pos hpath
      · exact .inl fun _ => if_neg hpath

theorem leads_descend (work : Entries → Option Entries) (path : List String) :
    Leads .implied (Entries.descend work path) (Entries.descendNode work path) where
  absent := rfl
  dotted _ := rfl
  table origin := by
    cases origin with
    | inline => exact .inr fun _ => rfl
    | headed => exact .inl fun _ => rfl
    | implied => exact .inl fun _ => rfl
    | dotted => exact .inl fun _ => rfl

/-- What two tables hold for a section, the second one with these values of the members. With dotted
members the section is a dotted table there, even where the first one has none yet. -/
inductive Side (isMember : String → Bool) (isDotted : Prop) (values : String → List Value) :
    Option Node → Option Node → Prop
  | absent (h : ∀ name, isMember name = true → values name = []) :
      Side isMember isDotted values none none
  | begun {u : Entries} (hdotted : isDotted) (h : Merged isMember values [] u) :
      Side isMember isDotted values none (some (.table .dotted u))
  | dotted {origin : Origin} {t u : Entries} (hdotted : isDotted)
      (horigin : origin = .dotted ∨ origin = .implied) (h : Merged isMember values t u) :
      Side isMember isDotted values (some (.table origin t)) (some (.table .dotted u))
  | table {origin : Origin} {t u : Entries} (hdotted : ¬ isDotted)
      (h : Merged isMember values t u) :
      Side isMember isDotted values (some (.table origin t)) (some (.table origin u))

namespace Side

variable {isMember : String → Bool} {isDotted : Prop} {values values' : String → List Value}
  {x y : Option Node} {x' : Node} {name : String}

theorem congr (h : Side isMember isDotted values x y)
    (hvalues : ∀ name, isMember name = true → values' name = values name) :
    Side isMember isDotted values' x y := by
  cases h with
  | absent h => exact .absent fun name hname => (hvalues name hname).trans (h name hname)
  | begun hdotted h => exact .begun hdotted (h.congr hvalues)
  | dotted hdotted horigin h => exact .dotted hdotted horigin (h.congr hvalues)
  | table hdotted h => exact .table hdotted (h.congr hvalues)

/-- Where there is a section, it is a table of what it holds besides and its members. -/
theorem exists_merged (h : Side isMember isDotted values x (some x')) :
    ∃ origin t u, x' = .table origin u ∧ Merged isMember values t u ∧
      (t = [] ∨ ∃ before, x = some (.table before t)) := by
  cases h with
  | begun _ h => exact ⟨_, _, _, rfl, h, .inl rfl⟩
  | dotted _ _ h => exact ⟨_, _, _, rfl, h, .inr ⟨_, rfl⟩⟩
  | table _ h => exact ⟨_, _, _, rfl, h, .inr ⟨_, rfl⟩⟩

/-- A step into the section that leads to no member does the same on both sides. -/
theorem step {origin : Origin} {work : Entries → Option Entries} {act : Option Node → Option Node}
    (h : Side isMember isDotted values x y) (hact : Leads origin work act)
    (hwork : Touches name work) (hname : isMember name = false)
    (horigin : origin = .dotted ∨
      origin = .implied ∧ (isDotted → ∃ name, isMember name = true ∧ values name ≠ []))
    (hx : act x = some x') :
    ∃ y', act y = some y' ∧ Side isMember isDotted values (some x') (some y') := by
  cases h with
  | absent h =>
    rw [hact.absent] at hx ⊢
    obtain ⟨t, ht, rfl⟩ := Option.map_eq_some_iff.mp hx
    obtain ⟨u, hu, hmerged⟩ := (Merged.empty h).work hwork hname ht
    obtain rfl := Option.some.inj (ht.symm.trans hu)
    refine ⟨.table origin t, by rw [ht]; rfl, ?_⟩
    by_cases hdotted : isDotted
    · rcases horigin with rfl | ⟨-, hgiven⟩
      · exact .dotted hdotted (.inl rfl) hmerged
      · obtain ⟨name, hname, hvalues⟩ := hgiven hdotted
        exact absurd (h name hname) hvalues
    · exact .table hdotted hmerged
  | begun hdotted h =>
    rw [hact.absent] at hx
    obtain ⟨t, ht, rfl⟩ := Option.map_eq_some_iff.mp hx
    obtain ⟨u, hu, hmerged⟩ := h.work hwork hname ht
    refine ⟨.table .dotted u, by rw [hact.dotted, hu]; rfl, .dotted hdotted ?_ hmerged⟩
    exact horigin.imp_right And.left
  | @dotted before t u hdotted hbefore h =>
    rcases hact.table before with htable | htable
    · rw [htable] at hx
      obtain ⟨t', ht, rfl⟩ := Option.map_eq_some_iff.mp hx
      obtain ⟨u', hu, hmerged⟩ := h.work hwork hname ht
      exact ⟨.table .dotted u', by rw [hact.dotted, hu]; rfl, .dotted hdotted hbefore hmerged⟩
    · rw [htable] at hx
      cases hx
  | @table before t u hdotted h =>
    rcases hact.table before with htable | htable
    · rw [htable] at hx
      obtain ⟨t', ht, rfl⟩ := Option.map_eq_some_iff.mp hx
      obtain ⟨u', hu, hmerged⟩ := h.work hwork hname ht
      exact ⟨.table before u', by rw [htable, hu]; rfl, .table hdotted hmerged⟩
    · rw [htable] at hx
      cases hx

/-- A member behind a key of two names is put into the second table alone. -/
theorem member {v : Value} {node : Node} (h : Side isMember isDotted values x y)
    (hdotted : isDotted) (hname : isMember name = true) (hnone : values name = [])
    (hv : v.node = some node) :
    ∃ y', Entries.putNode name node [] y = some y' ∧
      Side isMember isDotted (Function.update values name [v]) x (some y') := by
  cases h with
  | absent h =>
    obtain ⟨u, hu, hmerged⟩ := (Merged.empty h).put hname hnone hv
    exact ⟨.table .dotted u, by rw [Entries.putNode, hu]; rfl, .begun hdotted hmerged⟩
  | begun _ h =>
    obtain ⟨u, hu, hmerged⟩ := h.put hname hnone hv
    exact ⟨.table .dotted u, by rw [Entries.putNode, hu]; rfl, .begun hdotted hmerged⟩
  | dotted _ horigin h =>
    obtain ⟨u, hu, hmerged⟩ := h.put hname hnone hv
    exact ⟨.table .dotted u, by rw [Entries.putNode, hu]; rfl, .dotted hdotted horigin hmerged⟩
  | table hnot => exact absurd hdotted hnot

section Pairs

variable {pairs : List (Key × Value)} (h : Side isMember isDotted values x y)
  (hdotted : ¬ isDotted) (hplain : ArePlain isMember fun name => values name ++ valuesOf name pairs)
  (hothers : ∀ p ∈ others isMember pairs, isMember p.1.first = false)

include h hdotted hplain hothers

/-- The section as an inline table, without and with its members. -/
theorem inline {node : Node} (hnode : (Value.table (others isMember pairs)).node = some node)
    (hx : Entries.addNode node x = some x') :
    ∃ node' y', (Value.table pairs).node = some node' ∧ Entries.addNode node' y = some y' ∧
      Side isMember isDotted (fun name => values name ++ valuesOf name pairs)
        (some x') (some y') := by
  rw [Value.node] at hnode ⊢
  obtain ⟨t, ht, rfl⟩ := Option.map_eq_some_iff.mp hnode
  cases h with
  | absent h =>
    cases hx
    obtain ⟨u, hu, hmerged⟩ := (Merged.empty h).putAll hplain hothers ht
    exact ⟨.table .inline u, .table .inline u, by rw [hu]; rfl, rfl, .table hdotted hmerged⟩
  | begun hnot => exact absurd hnot hdotted
  | dotted => cases hx
  | table => cases hx

/-- The section under its header, without and with its members. -/
theorem header (hx : openNode (others isMember pairs) x = some x') :
    ∃ y', openNode pairs y = some y' ∧
      Side isMember isDotted (fun name => values name ++ valuesOf name pairs)
        (some x') (some y') := by
  cases h with
  | absent h =>
    obtain ⟨t, ht, rfl⟩ := Option.map_eq_some_iff.mp hx
    obtain ⟨u, hu, hmerged⟩ := (Merged.empty h).putAll hplain hothers ht
    exact ⟨.table .headed u, by rw [openNode, hu]; rfl, .table hdotted hmerged⟩
  | begun hnot => exact absurd hnot hdotted
  | dotted hnot => exact absurd hnot hdotted
  | @table origin t u hnot h =>
    cases origin with
    | headed | dotted | inline => cases hx
    | implied =>
      obtain ⟨t', ht, rfl⟩ := Option.map_eq_some_iff.mp hx
      obtain ⟨u', hu, hmerged⟩ := h.putAll hplain hothers ht
      exact ⟨.table .headed u', by rw [openNode, hu]; rfl, .table hdotted hmerged⟩

end Pairs

end Side

/-! ## Whole documents -/

/-- The tables of a document without and with these values of its members. -/
structure Matched (isMember : String → String → Bool) (isDotted : String → Prop)
    (values : String → String → List Value) (t u : Entries) : Prop where
  other : ∀ name, ¬ IsSection isMember name → u.lookup name = t.lookup name
  side : ∀ name, IsSection isMember name →
    Side (isMember name) (isDotted name) (values name) (t.lookup name) (u.lookup name)
  nodup : (u.map Prod.fst).Nodup

namespace Matched

variable {isMember : String → String → Bool} {isDotted : String → Prop}
  {values values' : String → String → List Value} {t t' u : Entries} {name : String}

/-- Steps on one name that keep the two sides of it. -/
theorem update {f g : Option Node → Option Node} (h : Matched isMember isDotted values t u)
    (hvalues : ∀ other, other ≠ name → ∀ member, isMember other member = true →
      values' other member = values other member)
    (hother : ¬ IsSection isMember name → ∀ x x', f x = some x' → g x = some x')
    (hside : IsSection isMember name → ∀ x', f (t.lookup name) = some x' →
      ∃ y', g (u.lookup name) = some y' ∧
        Side (isMember name) (isDotted name) (values' name) (some x') (some y'))
    (ht : t.update name f = some t') :
    ∃ u', u.update name g = some u' ∧ Matched isMember isDotted values' t' u' := by
  obtain ⟨x', hx, -⟩ := Option.map_eq_some_iff.mp ht
  have hstep : ∃ y', g (u.lookup name) = some y' ∧
      (¬ IsSection isMember name → y' = x') ∧ (IsSection isMember name →
        Side (isMember name) (isDotted name) (values' name) (some x') (some y')) := by
    by_cases hsection : IsSection isMember name
    · obtain ⟨y', hy, hyside⟩ := hside hsection x' hx
      exact ⟨y', hy, fun hnot => absurd hsection hnot, fun _ => hyside⟩
    · rw [← h.other name hsection] at hx
      exact ⟨x', hother hsection _ _ hx, fun _ => rfl, fun hyes => absurd hyes hsection⟩
  obtain ⟨y', hy, hsame, hyside⟩ := hstep
  obtain ⟨u', hu⟩ := Entries.exists_update hy
  refine ⟨u', hu, ?_, ?_, Entries.nodup_update hu h.nodup⟩
  · intro other hnot
    rw [Entries.lookup_update hu, Entries.lookup_update ht]
    by_cases hne : other = name
    · rw [if_pos hne, if_pos hne, hx, hy, hsame (hne ▸ hnot)]
    · rw [if_neg hne, if_neg hne, h.other other hnot]
  · intro other hyes
    rw [Entries.lookup_update hu, Entries.lookup_update ht]
    by_cases hne : other = name
    · subst hne
      rw [if_pos rfl, if_pos rfl, hx, hy]
      exact hyside hyes
    · rw [if_neg hne, if_neg hne]
      exact (h.side other hyes).congr (hvalues other hne)

/-- A step in the second table alone, into a section. -/
theorem insert {g : Option Node → Option Node} (h : Matched isMember isDotted values t u)
    (hvalues : ∀ other, other ≠ name → ∀ member, isMember other member = true →
      values' other member = values other member)
    (hsection : IsSection isMember name)
    (hside : ∃ y', g (u.lookup name) = some y' ∧
      Side (isMember name) (isDotted name) (values' name) (t.lookup name) (some y')) :
    ∃ u', u.update name g = some u' ∧ Matched isMember isDotted values' t u' := by
  obtain ⟨y', hy, hyside⟩ := hside
  obtain ⟨u', hu⟩ := Entries.exists_update hy
  refine ⟨u', hu, ?_, ?_, Entries.nodup_update hu h.nodup⟩
  · intro other hnot
    have hne : other ≠ name := fun heq => hnot (heq ▸ hsection)
    rw [Entries.lookup_update hu, if_neg hne, h.other other hnot]
  · intro other hyes
    rw [Entries.lookup_update hu]
    by_cases hne : other = name
    · subst hne
      rw [if_pos rfl, hy]
      exact hyside
    · rw [if_neg hne]
      exact (h.side other hyes).congr (hvalues other hne)

theorem pair_dotted {step last : String} {v : Value} (h : Matched isMember isDotted values t u)
    (hmember : isMember step last = true) (hdotted : isDotted step)
    (hplain : ArePlain (isMember step) fun name =>
      values step name ++ pairValues step name (⟨[step], last⟩, v)) :
    ∃ u', Toml.putAll u [(⟨[step], last⟩, v)] = some u' ∧ Matched isMember isDotted
      (fun sectionName name =>
        values sectionName name ++ pairValues sectionName name (⟨[step], last⟩, v)) t u' := by
  have hgiven : pairValues step last (⟨[step], last⟩, v) = [v] := by simp [pairValues]
  obtain ⟨hnone, a, rfl⟩ := hplain.of_given hmember hgiven
  obtain ⟨y', hy, hside⟩ :=
    (h.side step ⟨last, hmember⟩).member (v := .scalar a) hdotted hmember hnone rfl
  rw [putAll_singleton, Value.node, Option.bind_some, Entries.put_cons]
  apply h.insert _ ⟨last, hmember⟩ ⟨y', hy, hside.congr _⟩
  · intro other hne member _
    simp [pairValues, Ne.symm hne]
  · intro name _
    by_cases hname : name = last
    · simp [hname, hnone, hgiven]
    · simp [Function.update_of_ne hname, pairValues, Ne.symm hname]

theorem pair_inline {step : String} {pairs : List (Key × Value)}
    (h : Matched isMember isDotted values t u) (hdotted : ¬ isDotted step)
    (hplain : ArePlain (isMember step) fun name => values step name ++ valuesOf name pairs)
    (houtside : PairOutside isMember (⟨[], step⟩, .table (others (isMember step) pairs)))
    (ht : Toml.putAll t [(⟨[], step⟩, .table (others (isMember step) pairs))] = some t') :
    ∃ u', Toml.putAll u [(⟨[], step⟩, .table pairs)] = some u' ∧ Matched isMember isDotted
      (fun sectionName name =>
        values sectionName name ++ pairValues sectionName name (⟨[], step⟩, .table pairs)) t' u' := by
  rw [putAll_singleton] at ht ⊢
  obtain ⟨node, hnode, ht⟩ := Option.bind_eq_some_iff.mp ht
  rw [Entries.put, Entries.add_eq] at ht
  have hvalues : ∀ other, other ≠ step → ∀ name, isMember other name = true →
      values other name ++ pairValues other name (⟨[], step⟩, .table pairs) = values other name := by
    intro other hne name _
    simp [pairValues, Ne.symm hne]
  by_cases hsection : IsSection isMember step
  · obtain ⟨x', hx, -⟩ := Option.map_eq_some_iff.mp ht
    obtain ⟨inner, heq, hothers⟩ := houtside hsection
    cases heq
    obtain ⟨node', y', hnode', hy, hside⟩ :=
      (h.side step hsection).inline hdotted hplain hothers hnode hx
    obtain ⟨u', hu, h'⟩ := h.update hvalues (fun hnot => absurd hsection hnot)
      (fun _ x'' hx'' => ⟨y', hy, Option.some.inj (hx.symm.trans hx'') ▸ hside.congr fun name _ => by
        simp [pairValues]⟩) ht
    exact ⟨u', by rw [hnode', Option.bind_some, Entries.put, Entries.add_eq, hu], h'⟩
  · rw [others_of_not_isSection hsection] at hnode
    obtain ⟨u', hu, h'⟩ := h.update hvalues (fun _ x x' hx => hx)
      (fun hyes => absurd hyes hsection) ht
    exact ⟨u', by rw [hnode, Option.bind_some, Entries.put, Entries.add_eq, hu], h'⟩

/-- A pair that gives nothing to members is put into both tables. -/
theorem pair_other {k : Key} {v : Value} (h : Matched isMember isDotted values t u)
    (houtside : PairOutside isMember (k, v)) (hopen : k.path = [] → ∀ pairs, v ≠ .table pairs)
    (hvalues : ∀ sectionName name, isMember sectionName name = true →
      pairValues sectionName name (k, v) = [])
    (ht : Toml.putAll t [(k, v)] = some t') :
    ∃ u', Toml.putAll u [(k, v)] = some u' ∧ Matched isMember isDotted
      (fun sectionName name => values sectionName name ++ pairValues sectionName name (k, v))
      t' u' := by
  rw [putAll_singleton] at ht ⊢
  obtain ⟨node, hnode, ht⟩ := Option.bind_eq_some_iff.mp ht
  rw [hnode, Option.bind_some]
  have hsame : ∀ sectionName name, isMember sectionName name = true →
      values sectionName name ++ pairValues sectionName name (k, v) = values sectionName name := by
    intro sectionName name hname
    rw [hvalues sectionName name hname, List.append_nil]
  obtain ⟨path, last⟩ := k
  cases path with
  | nil =>
    rw [Entries.put, Entries.add_eq] at ht ⊢
    refine h.update (fun other _ => hsame other) (fun _ x x' hx => hx) ?_ ht
    intro hsection
    obtain ⟨pairs, rfl, -⟩ := houtside hsection
    exact absurd rfl (hopen rfl pairs)
  | cons step path =>
    rw [Entries.put_cons] at ht ⊢
    refine h.update (fun other _ => hsame other) (fun _ x x' hx => hx) ?_ ht
    intro hsection x' hx
    obtain ⟨y', hy, hside⟩ := (h.side step hsection).step (leads_put last node path)
      (touches_put ⟨path, last⟩ node) houtside (.inl rfl) hx
    exact ⟨y', hy, hside.congr (hsame step)⟩

/-- One pair at the top, put into both tables without and with what it gives to members. -/
theorem pair {k : Key} {v : Value} (h : Matched isMember isDotted values t u)
    (hplain : ∀ sectionName, ArePlain (isMember sectionName) fun name =>
      values sectionName name ++ pairValues sectionName name (k, v))
    (houtside : ∀ q ∈ other? isMember (k, v), PairOutside isMember q)
    (hdotted : ∀ sectionName name, k = ⟨[sectionName], name⟩ →
      isMember sectionName name = true → isDotted sectionName)
    (hundotted : ∀ sectionName, k = ⟨[], sectionName⟩ → ¬ isDotted sectionName)
    (ht : Toml.putAll t (other? isMember (k, v)).toList = some t') :
    ∃ u', Toml.putAll u [(k, v)] = some u' ∧ Matched isMember isDotted
      (fun sectionName name => values sectionName name ++ pairValues sectionName name (k, v))
      t' u' := by
  obtain ⟨path, last⟩ := k
  match path with
  | [] =>
    cases v with
    | scalar a => exact h.pair_other (houtside _ rfl) (fun _ _ => by simp) (fun _ _ _ => rfl) ht
    | array items => exact h.pair_other (houtside _ rfl) (fun _ _ => by simp) (fun _ _ _ => rfl) ht
    | table pairs =>
      have hplain' : ArePlain (isMember last) fun name => values last name ++ valuesOf name pairs :=
        (hplain last).congr fun name _ => by simp [pairValues]
      exact h.pair_inline (hundotted last rfl) hplain' (houtside _ rfl) ht
  | [step] =>
    cases hmember : isMember step last with
    | true =>
      rw [other?, hmember, if_pos rfl] at ht
      obtain rfl := Option.some.inj ht
      exact h.pair_dotted hmember (hdotted step last rfl hmember) (hplain step)
    | false =>
      rw [other?, hmember, if_neg Bool.false_ne_true] at ht houtside
      refine h.pair_other (houtside _ rfl) (fun hnil => by cases hnil) ?_ ht
      intro sectionName name hname
      have hne : ¬ (step = sectionName ∧ last = name) := by
        rintro ⟨rfl, rfl⟩
        rw [hname] at hmember
        cases hmember
      rw [pairValues, if_neg hne]
  | step :: step' :: path =>
    exact h.pair_other (houtside _ rfl) (fun hnil => by cases hnil) (fun _ _ _ => rfl) ht

theorem putAll {pairs : List (Key × Value)} (h : Matched isMember isDotted values t u)
    (hplain : ∀ sectionName, ArePlain (isMember sectionName) fun name =>
      values sectionName name ++ pairs.flatMap (pairValues sectionName name))
    (houtside : ∀ q ∈ pairs.filterMap (other? isMember), PairOutside isMember q)
    (hdotted : ∀ sectionName name v, (⟨[sectionName], name⟩, v) ∈ pairs →
      isMember sectionName name = true → isDotted sectionName)
    (hundotted : ∀ sectionName v, (⟨[], sectionName⟩, v) ∈ pairs → ¬ isDotted sectionName)
    (ht : Toml.putAll t (pairs.filterMap (other? isMember)) = some t') :
    ∃ u', Toml.putAll u pairs = some u' ∧ Matched isMember isDotted
      (fun sectionName name =>
        values sectionName name ++ pairs.flatMap (pairValues sectionName name)) t' u' := by
  induction pairs generalizing values t u with
  | nil =>
    cases ht
    exact ⟨u, rfl, by simpa using h⟩
  | cons p pairs ih =>
    obtain ⟨k, v⟩ := p
    have hsplit : ((k, v) :: pairs).filterMap (other? isMember) =
        (other? isMember (k, v)).toList ++ pairs.filterMap (other? isMember) := by
      rw [List.filterMap_cons]
      cases other? isMember (k, v) <;> rfl
    rw [hsplit, putAll_append] at ht
    rw [hsplit] at houtside
    simp only [List.flatMap_cons, ← List.append_assoc] at hplain ⊢
    obtain ⟨t₁, ht₁, ht⟩ := Option.bind_eq_some_iff.mp ht
    obtain ⟨u₁, hu₁, h₁⟩ := h.pair (fun sectionName => (hplain sectionName).of_append)
      (fun q hq => houtside q (List.mem_append_left _ (by simpa using hq)))
      (fun sectionName name heq => hdotted sectionName name v (heq ▸ List.mem_cons_self))
      (fun sectionName heq => hundotted sectionName v (heq ▸ List.mem_cons_self)) ht₁
    obtain ⟨u', hu', h'⟩ := ih h₁ hplain
      (fun q hq => houtside q (List.mem_append_right _ hq))
      (fun sectionName name v hmem => hdotted sectionName name v (List.mem_cons_of_mem _ hmem))
      (fun sectionName v hmem => hundotted sectionName v (List.mem_cons_of_mem _ hmem)) ht
    refine ⟨u', ?_, h'⟩
    rw [← List.singleton_append, putAll_append, hu₁, Option.bind_some, hu']

/-- The table of a header without a path, without and with its members. -/
theorem header {name : String} {pairs : List (Key × Value)}
    (h : Matched isMember isDotted values t u) (hdotted : ¬ isDotted name)
    (hplain : ArePlain (isMember name) fun member => values name member ++ valuesOf member pairs)
    (hothers : IsSection isMember name →
      ∀ p ∈ others (isMember name) pairs, isMember name p.1.first = false)
    (hvalues : ∀ other, other ≠ name → ∀ member, isMember other member = true →
      values' other member = values other member)
    (hnew : ∀ member, isMember name member = true →
      values' name member = values name member ++ valuesOf member pairs)
    (ht : open? name (others (isMember name) pairs) t = some t') :
    ∃ u', open? name pairs u = some u' ∧ Matched isMember isDotted values' t' u' := by
  rw [open?_eq] at ht ⊢
  refine h.update hvalues ?_ ?_ ht
  · intro hnot x x' hx
    rwa [others_of_not_isSection hnot] at hx
  · intro hsection x' hx
    obtain ⟨y', hy, hside⟩ :=
      (h.side name hsection).header hdotted hplain (hothers hsection) hx
    exact ⟨y', hy, hside.congr hnew⟩

/-- One section, without and with its members. -/
theorem apply {s : Section} (h : Matched isMember isDotted values t u)
    (hplain : ∀ sectionName, ArePlain (isMember sectionName) fun name =>
      values sectionName name ++ s.values sectionName name)
    (houtside : (s.without isMember).Outside isMember)
    (hgiven : ∀ sectionName, isDotted sectionName →
      ∃ name, isMember sectionName name = true ∧ values sectionName name ≠ [])
    (hundotted : s.key.path = [] → ¬ isDotted s.key.name)
    (ht : (s.without isMember).apply t = some t') :
    ∃ u', s.apply u = some u' ∧ Matched isMember isDotted
      (fun sectionName name => values sectionName name ++ s.values sectionName name) t' u' := by
  obtain ⟨isArray, ⟨path, name⟩, pairs⟩ := s
  cases path with
  | nil =>
    cases isArray with
    | false =>
      refine h.header (hundotted rfl) ((hplain name).congr fun member _ => ?_)
        (fun hsection => (houtside hsection).2) ?_ ?_ ht
      · simp [Section.values]
      · intro other hne member _
        simp [Section.values, Ne.symm hne]
      · intro member _
        simp [Section.values]
    | true =>
      have hvalues : ∀ other member, values other member ++
          (Section.mk true ⟨[], name⟩ pairs).values other member = values other member :=
        fun other member => List.append_nil _
      simp only [hvalues]
      change push? name pairs t = some t' at ht
      change ∃ u', push? name pairs u = some u' ∧ _
      rw [push?_eq] at ht ⊢
      refine h.update (fun _ _ _ _ => rfl) (fun _ x x' hx => hx) ?_ ht
      intro hsection
      cases (houtside hsection).1
  | cons step path =>
    have hvalues : ∀ other member, values other member ++
        (Section.mk isArray ⟨step :: path, name⟩ pairs).values other member =
          values other member := by
      intro other member
      simp [Section.values]
    simp only [hvalues]
    have hsame : (Section.mk isArray ⟨step :: path, name⟩ pairs).without isMember =
        ⟨isArray, ⟨step :: path, name⟩, pairs⟩ := by simp [Section.without]
    rw [hsame] at houtside ht
    rw [Section.apply_eq, Entries.descend_cons] at ht ⊢
    refine h.update (fun _ _ _ _ => rfl) (fun _ x x' hx => hx) ?_ ht
    intro hsection x' hx
    exact (h.side step hsection).step (leads_descend _ path)
      (touches_descend (Section.touches_work _) path) houtside (.inr ⟨rfl, hgiven step⟩) hx

theorem applyAll {sections : List Section} (h : Matched isMember isDotted values t u)
    (hplain : ∀ sectionName, ArePlain (isMember sectionName) fun name =>
      values sectionName name ++ sections.flatMap (Section.values sectionName name))
    (houtside : ∀ s ∈ sections, (s.without isMember).Outside isMember)
    (hgiven : ∀ sectionName, isDotted sectionName →
      ∃ name, isMember sectionName name = true ∧ values sectionName name ≠ [])
    (hundotted : ∀ s ∈ sections, s.key.path = [] → ¬ isDotted s.key.name)
    (ht : (sections.map (Section.without isMember)).foldlM (fun t s => s.apply t) t = some t') :
    ∃ u', sections.foldlM (fun t s => s.apply t) u = some u' ∧ Matched isMember isDotted
      (fun sectionName name =>
        values sectionName name ++ sections.flatMap (Section.values sectionName name)) t' u' := by
  induction sections generalizing values t u with
  | nil =>
    cases ht
    exact ⟨u, rfl, by simpa using h⟩
  | cons s sections ih =>
    obtain ⟨t₁, ht₁, ht⟩ := Option.bind_eq_some_iff.mp ht
    simp only [List.flatMap_cons, ← List.append_assoc] at hplain ⊢
    obtain ⟨u₁, hu₁, h₁⟩ := h.apply (fun sectionName => (hplain sectionName).of_append)
      (houtside s List.mem_cons_self) hgiven (hundotted s List.mem_cons_self) ht₁
    obtain ⟨u', hu', h'⟩ := ih h₁ hplain (fun r hr => houtside r (List.mem_cons_of_mem s hr))
      (fun sectionName hdotted => by
        obtain ⟨name, hname, hvalues⟩ := hgiven sectionName hdotted
        exact ⟨name, hname, by simp [hvalues]⟩)
      (fun r hr => hundotted r (List.mem_cons_of_mem s hr)) ht
    exact ⟨u', Option.bind_eq_some_iff.mpr ⟨u₁, hu₁, hu'⟩, h'⟩

end Matched

/-- The tables of a document can be built when those of the rest can, and are those with the members
put in. -/
theorem exists_root {isMember : String → String → Bool} {o : Outline} {t : Entries}
    (hplain : ∀ sectionName, ArePlain (isMember sectionName) fun name => o.values sectionName name)
    (houtside : (o.without isMember).Outside isMember) (huniform : o.IsUniform isMember)
    (ht : (o.without isMember).root = some t) :
    ∃ u, o.root = some u ∧ Matched isMember (o.IsDotted isMember) o.values t u := by
  rw [root_eq] at ht ⊢
  obtain ⟨t₁, ht₁, ht⟩ := Option.bind_eq_some_iff.mp ht
  have h₀ : Matched isMember (o.IsDotted isMember) (fun _ _ => []) [] [] :=
    ⟨fun _ _ => rfl, fun _ _ => .absent fun _ _ => rfl, List.nodup_nil⟩
  obtain ⟨u₁, hu₁, h₁⟩ := h₀.putAll (fun sectionName => (hplain sectionName).of_append)
    houtside.pairs (fun sectionName name v hmem hname => ⟨name, v, hname, hmem⟩)
    (fun sectionName v hmem => huniform.pairs sectionName v hmem) ht₁
  have hgiven : ∀ sectionName, o.IsDotted isMember sectionName → ∃ name,
      isMember sectionName name = true ∧ o.pairs.flatMap (pairValues sectionName name) ≠ [] := by
    rintro sectionName ⟨name, v, hname, hmem⟩
    have hv : v ∈ o.pairs.flatMap (pairValues sectionName name) :=
      List.mem_flatMap.mpr ⟨_, hmem, by simp [pairValues]⟩
    exact ⟨name, hname, List.ne_nil_of_mem hv⟩
  obtain ⟨u, hu, h⟩ := h₁.applyAll hplain
    (fun s hs => houtside.sections _ (List.mem_map.mpr ⟨s, hs, rfl⟩)) hgiven
    huniform.sections ht
  exact ⟨u, Option.bind_eq_some_iff.mpr ⟨u₁, hu₁, hu⟩, h⟩

/-! ## A member that is given -/

theorem mem_valuesOf {name : String} {pairs : List (Key × Value)} {v : Value} :
    v ∈ valuesOf name pairs ↔ (⟨[], name⟩, v) ∈ pairs := by
  rw [valuesOf, List.mem_filterMap]
  constructor
  · rintro ⟨⟨k, x⟩, hmem, hvalue⟩
    split at hvalue
    next hkey =>
      cases hkey
      cases hvalue
      exact hmem
    next => cases hvalue
  · exact fun hmem => ⟨_, hmem, if_pos rfl⟩

theorem pairValues_altered {sectionName name : String} {p : Key × Value} {v : Value} {n : Node}
    {t t' : Entries} (hn : n.IsClosed) (hv : v.node = some n)
    (hmem : v ∈ pairValues sectionName name p) (ht : putAll t [p] = some t') :
    ∃ u', putAll t [p] = some u' ∧ AlteredAt sectionName (Altered n n [name]) t' u' := by
  obtain ⟨⟨path, last⟩, v₁⟩ := p
  match path with
  | [] =>
    cases v₁ with
    | scalar | array => cases hmem
    | table pairs =>
      rw [pairValues] at hmem
      split at hmem
      next hlast =>
        obtain ⟨first, more, rfl⟩ := List.append_of_mem (mem_valuesOf.mp hmem)
        subst hlast
        exact putAll_related (fun _ => inline_altered hn hv hv first more) ht
      next => cases hmem
  | [step] =>
    rw [pairValues] at hmem
    split at hmem
    next heq =>
      obtain ⟨rfl, rfl⟩ := heq
      obtain rfl := List.mem_singleton.mp hmem
      exact putAll_dotted hv hv ht
    next => cases hmem
  | _ :: _ :: _ => cases hmem

/-- The tables of a document hold every value that it gives to a member. -/
theorem alteredAt_root {sectionName name : String} {o : Outline} {v : Value} {n : Node} {t : Entries}
    (hn : n.IsClosed) (hv : v.node = some n) (hmem : v ∈ o.values sectionName name)
    (ht : o.root = some t) : AlteredAt sectionName (Altered n n [name]) t t := by
  obtain ⟨pairs, sections⟩ := o
  rw [root_eq] at ht
  obtain ⟨t₀, ht₀, ht⟩ := Option.bind_eq_some_iff.mp ht
  rcases List.mem_append.mp hmem with htop | hheaded
  · obtain ⟨p, hp, hvalue⟩ := List.mem_flatMap.mp htop
    obtain ⟨before, after, rfl⟩ := List.append_of_mem hp
    obtain ⟨u₀, hu₀, h₀⟩ := putAll_replace hn (pairValues_altered hn hv hvalue) ht₀
    cases ht₀.symm.trans hu₀
    obtain ⟨u, hu, h⟩ := foldlM_altered hn h₀ ht
    cases ht.symm.trans hu
    exact h
  · obtain ⟨⟨isArray, k, inner⟩, hs, hvalue⟩ := List.mem_flatMap.mp hheaded
    rw [Section.values] at hvalue
    split at hvalue
    next hplace =>
      obtain ⟨rfl, rfl⟩ := hplace
      obtain ⟨before, after, rfl⟩ := List.append_of_mem (mem_valuesOf.mp hvalue)
      obtain ⟨first, last, rfl⟩ := List.append_of_mem hs
      rw [List.foldlM_append] at ht
      obtain ⟨t₁, -, ht⟩ := Option.bind_eq_some_iff.mp ht
      obtain ⟨t₂, ht₂, ht⟩ := Option.bind_eq_some_iff.mp ht
      obtain ⟨u₂, hu₂, h₂⟩ := section_named hn hv hv ht₂
      cases ht₂.symm.trans hu₂
      obtain ⟨u, hu, h⟩ := foldlM_altered hn h₂ ht
      cases ht.symm.trans hu
      exact h
    next => cases hvalue

end LetterPages.Toml
