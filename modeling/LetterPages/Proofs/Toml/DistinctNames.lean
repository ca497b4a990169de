import LetterPages.Proofs.Toml.Members
import LetterPages.Proofs.Toml.Merging

/-!
# Distinct names

No table of a document names anything twice, however deep it lies. Every step of the building changes
one entry of a table, or adds one whose name is new there.
-/

namespace LetterPages.Toml

mutual

/-- No table in the node names anything twice. -/
inductive Node.Distinct : Node → Prop
  | scalar (s : Scalar) : (Node.scalar s).Distinct
  | array {items : List Node} (h : ∀ n ∈ items, n.Distinct) : (Node.array items).Distinct
  | tables {items : List Entries} (h : ∀ t ∈ items, Entries.Distinct t) : (Node.tables items).Distinct
  | table (origin : Origin) {t : Entries} (h : Entries.Distinct t) : (Node.table origin t).Distinct

/-- Neither the table nor any table in it names anything twice. -/
inductive Entries.Distinct : Entries → Prop
  | mk {t : Entries} (nodup : (t.map Prod.fst).Nodup) (nodes : ∀ e ∈ t, e.2.Distinct) : t.Distinct

end

namespace Entries

variable {t t' : Entries} {name : String}

theorem Distinct.nodup (h : t.Distinct) : (t.map Prod.fst).Nodup := by
  cases h
  assumption

theorem Distinct.of_mem {e : String × Node} (h : t.Distinct) (he : e ∈ t) : e.2.Distinct := by
  cases h with
  | mk _ nodes => exact nodes e he

theorem Distinct.of_lookup {n : Node} (h : t.Distinct) (hlookup : t.lookup name = some n) :
    n.Distinct := by
  obtain ⟨before, after, rfl, -⟩ := List.lookup_eq_some_iff.mp hlookup
  exact h.of_mem (e := (name, n)) (by simp)

theorem distinct_nil : Distinct [] :=
  .mk List.nodup_nil nofun

end Entries

/-! ## Steps of the building -/

/-- Work that keeps names distinct. -/
def Keeps (work : Entries → Option Entries) : Prop :=
  ∀ {t t'}, t.Distinct → work t = some t' → t'.Distinct

/-- What keeps the names in one entry distinct. -/
def KeepsNode (f : Option Node → Option Node) : Prop :=
  ∀ {x n}, (∀ m ∈ x, Node.Distinct m) → f x = some n → n.Distinct

theorem keeps_update {f : Option Node → Option Node} (hf : KeepsNode f) (name : String) :
    Keeps (Entries.update name f) := by
  intro t t' ht h
  obtain ⟨n, hn, heq⟩ := Option.map_eq_some_iff.mp h
  have hnode : n.Distinct := hf (fun m hm => ht.of_lookup hm) hn
  refine .mk (Entries.nodup_update h ht.nodup) ?_
  intro e he
  rw [← heq] at he
  split at he
  · obtain ⟨e', he', rfl⟩ := List.mem_map.mp he
    split
    · exact hnode
    · exact ht.of_mem he'
  · rcases List.mem_append.mp he with he | he
    · exact ht.of_mem he
    · rw [List.mem_singleton.mp he]
      exact hnode

theorem keeps_onLast {work : Entries → Option Entries} (hwork : Keeps work) {ts ts' : List Entries}
    (hts : ∀ t ∈ ts, t.Distinct) (h : Entries.onLast work ts = some ts') :
    ∀ t ∈ ts', t.Distinct := by
  fun_induction Entries.onLast work ts generalizing ts' with
  | case1 => cases h
  | case2 t =>
    obtain ⟨u, hu, rfl⟩ := Option.map_eq_some_iff.mp h
    exact List.forall_mem_singleton.mpr (hwork (hts t List.mem_cons_self) hu)
  | case3 t ts hne ih =>
    obtain ⟨us, hus, rfl⟩ := Option.map_eq_some_iff.mp h
    obtain ⟨ht, hts⟩ := List.forall_mem_cons.mp hts
    exact List.forall_mem_cons.mpr ⟨ht, ih hts hus⟩

section Nodes

variable {work : Entries → Option Entries} (hwork : Keeps work)

include hwork

theorem distinct_table {origin : Origin} {u : Entries} {n : Node} (hu : u.Distinct)
    (h : (work u).map (Node.table origin) = some n) : n.Distinct := by
  obtain ⟨u', hu', rfl⟩ := Option.map_eq_some_iff.mp h
  exact .table origin (hwork hu hu')

theorem distinct_tables {us : List Entries} {n : Node} (hus : (Node.tables us).Distinct)
    (h : (Entries.onLast work us).map Node.tables = some n) : n.Distinct := by
  obtain ⟨us', hus', rfl⟩ := Option.map_eq_some_iff.mp h
  cases hus with
  | tables hus => exact .tables (keeps_onLast hwork hus hus')

end Nodes

theorem Node.Distinct.entries {origin : Origin} {u : Entries} (h : (Node.table origin u).Distinct) :
    u.Distinct := by
  cases h
  assumption

theorem keeps_put (name : String) {node : Node} (hnode : node.Distinct) (path : List String) :
    Keeps (Entries.put name node path) := by
  induction path with
  | nil =>
    intro t t' ht h
    rw [Entries.put, Entries.add_eq] at h
    refine keeps_update ?_ name ht h
    intro x n hx hn
    cases x with
    | none =>
      cases hn
      exact hnode
    | some m => cases hn
  | cons step path ih =>
    intro t t' ht h
    rw [Entries.put_cons] at h
    refine keeps_update ?_ step ht h
    -- the table on the way is new, or has been in the distinct table all along
    intro x n hx hn
    unfold Entries.putNode at hn
    split at hn
    · exact distinct_table ih Entries.distinct_nil hn
    · exact distinct_table ih (hx _ rfl).entries hn
    · split at hn
      · cases hn
      · exact distinct_table ih (hx _ rfl).entries hn
    · split at hn
      · cases hn
      · exact distinct_tables ih (hx _ rfl) hn
    · cases hn

theorem keeps_descend {work : Entries → Option Entries} (hwork : Keeps work) (path : List String) :
    Keeps (Entries.descend work path) := by
  induction path with
  | nil => exact hwork
  | cons step path ih =>
    intro t t' ht h
    rw [Entries.descend_cons] at h
    refine keeps_update ?_ step ht h
    intro x n hx hn
    unfold Entries.descendNode at hn
    split at hn
    · exact distinct_table ih Entries.distinct_nil hn
    · cases hn
    · exact distinct_table ih (hx _ rfl).entries hn
    · exact distinct_tables ih (hx _ rfl) hn
    · cases hn

/-! ## Values, sections and documents -/

mutual

theorem Value.distinct_node {n : Node} : ∀ {v : Value}, v.node = some n → n.Distinct
  | .scalar s, h => by
    cases h
    exact .scalar s
  | .array items, h => by
    rw [Value.node] at h
    obtain ⟨l, hl, rfl⟩ := Option.map_eq_some_iff.mp h
    exact .array (distinct_nodes hl)
  | .table pairs, h => by
    rw [Value.node] at h
    obtain ⟨t, ht, rfl⟩ := Option.map_eq_some_iff.mp h
    exact .table .inline (distinct_putAll Entries.distinct_nil ht)

theorem distinct_nodes : ∀ {values : List Value} {l : List Node}, nodes values = some l →
    ∀ n ∈ l, n.Distinct
  | [], l, h => by
    cases h
    exact nofun
  | v :: values, l, h => by
    rw [nodes_cons] at h
    obtain ⟨n, hn, h⟩ := Option.bind_eq_some_iff.mp h
    obtain ⟨ns, hns, rfl⟩ := Option.map_eq_some_iff.mp h
    exact List.forall_mem_cons.mpr ⟨Value.distinct_node hn, distinct_nodes hns⟩

theorem distinct_putAll : ∀ {pairs : List (Key × Value)} {t t' : Entries}, t.Distinct →
    putAll t pairs = some t' → t'.Distinct
  | [], t, t', ht, h => by
    cases h
    exact ht
  | (k, v) :: pairs, t, t', ht, h => by
    rw [putAll_cons] at h
    obtain ⟨n, hn, h⟩ := Option.bind_eq_some_iff.mp h
    obtain ⟨u, hu, h⟩ := Option.bind_eq_some_iff.mp h
    exact distinct_putAll (keeps_put k.name (Value.distinct_node hn) k.path ht hu) h

end

theorem keeps_putAll (pairs : List (Key × Value)) : Keeps fun t => putAll t pairs :=
  distinct_putAll

theorem keeps_open (name : String) (pairs : List (Key × Value)) : Keeps (open? name pairs) := by
  intro t t' ht h
  rw [open?_eq] at h
  refine keeps_update ?_ name ht h
  intro x n hx hn
  unfold openNode at hn
  split at hn
  · exact distinct_table (keeps_putAll pairs) Entries.distinct_nil hn
  · exact distinct_table (keeps_putAll pairs) (hx _ rfl).entries hn
  · cases hn

theorem keeps_push (name : String) (pairs : List (Key × Value)) : Keeps (push? name pairs) := by
  intro t t' ht h
  rw [push?_eq] at h
  refine keeps_update ?_ name ht h
  intro x n hx hn
  unfold pushNode at hn
  split at hn
  · obtain ⟨u, hu, rfl⟩ := Option.map_eq_some_iff.mp hn
    exact .tables (List.forall_mem_singleton.mpr (distinct_putAll Entries.distinct_nil hu))
  · rename_i us
    obtain ⟨u, hu, rfl⟩ := Option.map_eq_some_iff.mp hn
    cases hx _ rfl with
    | tables hus =>
      refine .tables ?_
      intro t ht
      rcases List.mem_append.mp ht with ht | ht
      · exact hus t ht
      · rw [List.mem_singleton.mp ht]
        exact distinct_putAll Entries.distinct_nil hu
  · cases hn

theorem keeps_section (s : Section) : Keeps s.apply := by
  intro t t' ht h
  rw [Section.apply] at h
  split at h
  · exact keeps_descend (keeps_push s.key.name s.pairs) s.key.path ht h
  · exact keeps_descend (keeps_open s.key.name s.pairs) s.key.path ht h

theorem keeps_sections (sections : List Section) :
    Keeps fun t => sections.foldlM (fun t s => s.apply t) t := by
  intro t t' ht h
  induction sections generalizing t with
  | nil =>
    cases h
    exact ht
  | cons s sections ih =>
    obtain ⟨u, hu, h⟩ := Option.bind_eq_some_iff.mp h
    exact ih (keeps_section s ht hu) h

/-- No table of a document names anything twice. -/
theorem distinct_parse {text : List Char} {t : Entries} (h : parse text = .ok t) : t.Distinct := by
  obtain ⟨l, -, hroot⟩ := parse_eq_ok_iff.mp h
  rw [root_eq] at hroot
  obtain ⟨u, hu, hsections⟩ := Option.bind_eq_some_iff.mp hroot
  exact keeps_sections _ (distinct_putAll Entries.distinct_nil hu) hsections

end LetterPages.Toml
