import LetterPages.Proofs.Toml.Alterations
import LetterPages.Proofs.Toml.Places

/-!
# Another text for a member

A text that gives the member of a section one string, and the same text with another string there,
build tables that differ at the address of the member alone.
-/

namespace LetterPages.Toml

def Node.ofText (text : List Char) : Node :=
  .scalar (.string (String.ofList text))

theorem node_ofText (text : List Char) : (Value.ofText text).node = some (.ofText text) := by
  rw [Value.ofText, Value.node, Node.ofText]

/-- The nodes that differ, and where they stand in the section: under the name of the member, or in
place of the section as arrays that differ at the index of the member. -/
inductive Stands (name : String) (index : Nat) (x y : List Char) :
    Node → Node → List String → Prop
  | member : Stands name index x y (.ofText x) (.ofText y) [name]
  | item (before after : List Node) (hindex : before.length = index) :
      Stands name index x y (.array (before ++ .ofText x :: after))
        (.array (before ++ .ofText y :: after)) []

theorem Stands.isClosed {name : String} {index : Nat} {x y : List Char} {n m : Node}
    {path : List String} (h : Stands name index x y n m path) : n.IsClosed := by
  cases h <;> exact trivial

/-! ## Pairs -/

theorem put_related {name : String} {R : Node → Node → Prop} {n m : Node} {t t' : Entries}
    (hnode : R n m) (ht : Entries.put name n [] t = some t') :
    ∃ u', Entries.put name m [] t = some u' ∧ AlteredAt name R t' u' := by
  rw [Entries.put, Entries.add_eq] at ht ⊢
  apply alteredAt_update _ ht
  intro n' hn
  cases hlookup : t.lookup name with
  | none =>
    rw [hlookup] at hn
    cases hn
    exact ⟨m, rfl, hnode⟩
  | some _ =>
    rw [hlookup] at hn
    cases hn

/-- Values with related nodes, under one name. -/
theorem putAll_related {name : String} {R : Node → Node → Prop} {v v' : Value} {t t' : Entries}
    (hnode : ∀ n, v.node = some n → ∃ m, v'.node = some m ∧ R n m)
    (ht : putAll t [(⟨[], name⟩, v)] = some t') :
    ∃ u', putAll t [(⟨[], name⟩, v')] = some u' ∧ AlteredAt name R t' u' := by
  rw [putAll_singleton] at ht ⊢
  obtain ⟨n, hn, ht⟩ := Option.bind_eq_some_iff.mp ht
  obtain ⟨m, hm, hR⟩ := hnode n hn
  rw [hm]
  exact put_related hR ht

section

variable {sectionName name : String} {v v' : Value} {n m : Node} (hv : v.node = some n)
  (hv' : v'.node = some m)

include hv hv'

theorem putAll_dotted {t t' : Entries} (ht : putAll t [(⟨[sectionName], name⟩, v)] = some t') :
    ∃ u', putAll t [(⟨[sectionName], name⟩, v')] = some u' ∧
      AlteredAt sectionName (Altered n m [name]) t' u' := by
  have hdotted : ∀ {t n'}, (Entries.put name n [] t).map (.table .dotted) = some n' →
      ∃ m', (Entries.put name m [] t).map (.table .dotted) = some m' ∧
        Altered n m [name] n' m' := by
    intro t n'
    have hsame : Altered n m [] n m := ⟨rfl, rfl⟩
    exact altered_table fun _ => put_related hsame
  rw [putAll_singleton, hv, Option.bind_some] at ht
  rw [putAll_singleton, hv', Option.bind_some]
  rw [Entries.put_cons] at ht ⊢
  apply alteredAt_update _ ht
  intro n' hn
  cases hlookup : t.lookup sectionName with
  | none =>
    rw [hlookup, Entries.putNode] at hn
    exact hdotted hn
  | some found =>
    rw [hlookup] at hn
    cases found with
    | scalar | array | tables => cases hn
    | table origin t =>
      cases origin with
      | headed | implied | inline => cases hn
      | dotted =>
        rw [Entries.putNode] at hn
        exact hdotted hn

end

/-- A pair among others, with another value that alters every table alike. -/
theorem putAll_replace {n m : Node} {step : String} {path : List String} (hn : n.IsClosed) {k : Key}
    {v v' : Value} {t t' : Entries} {before after : List (Key × Value)}
    (hpair : ∀ {t t'}, putAll t [(k, v)] = some t' →
      ∃ u', putAll t [(k, v')] = some u' ∧ AlteredAt step (Altered n m path) t' u')
    (ht : putAll t (before ++ (k, v) :: after) = some t') :
    ∃ u', putAll t (before ++ (k, v') :: after) = some u' ∧
      AlteredAt step (Altered n m path) t' u' := by
  rw [← List.singleton_append] at ht ⊢
  simp only [putAll_append] at ht ⊢
  obtain ⟨t₁, ht₁, ht⟩ := Option.bind_eq_some_iff.mp ht
  obtain ⟨t₂, ht₂, ht⟩ := Option.bind_eq_some_iff.mp ht
  obtain ⟨u₂, hu₂, haltered⟩ := hpair ht₂
  obtain ⟨u', hu', haltered'⟩ := maintains_putAll hn after haltered ht
  exact ⟨u', by rw [ht₁, Option.bind_some, hu₂]; exact hu', haltered'⟩

variable {x y : List Char} {sectionName name : String} {index : Nat} {v v' : Value} {n m : Node}

theorem putAll_named (hn : n.IsClosed) (hv : v.node = some n) (hv' : v'.node = some m)
    {before after : List (Key × Value)} {t t' : Entries}
    (ht : putAll t (before ++ (⟨[], name⟩, v) :: after) = some t') :
    ∃ u', putAll t (before ++ (⟨[], name⟩, v') :: after) = some u' ∧
      AlteredAt name (Altered n m []) t' u' := by
  apply putAll_replace hn _ ht
  intro t t' ht
  apply putAll_related _ ht
  intro n' hn'
  rw [hv] at hn'
  cases hn'
  exact ⟨m, hv', rfl, rfl⟩

/-! ## Arrays -/

theorem nodes_cons (v : Value) (values : List Value) :
    nodes (v :: values) = v.node.bind fun n => (nodes values).map (n :: ·) := by
  rw [nodes]
  cases v.node <;> cases nodes values <;> rfl

/-- The nodes of a list of values with another value in it. -/
theorem nodes_replace {before after : List Value} {v : Value} {l : List Node}
    (h : nodes (before ++ v :: after) = some l) :
    ∃ first n last, l = first ++ n :: last ∧ first.length = before.length ∧ v.node = some n ∧
      ∀ v' m, v'.node = some m → nodes (before ++ v' :: after) = some (first ++ m :: last) := by
  induction before generalizing l with
  | nil =>
    rw [List.nil_append, nodes_cons] at h
    obtain ⟨n, hn, h⟩ := Option.bind_eq_some_iff.mp h
    obtain ⟨last, hlast, rfl⟩ := Option.map_eq_some_iff.mp h
    refine ⟨[], n, last, rfl, rfl, hn, ?_⟩
    intro v' m hm
    rw [List.nil_append, nodes_cons, hm, hlast]
    rfl
  | cons b before ih =>
    rw [List.cons_append, nodes_cons] at h
    obtain ⟨n₁, hn₁, h⟩ := Option.bind_eq_some_iff.mp h
    obtain ⟨l, hl, rfl⟩ := Option.map_eq_some_iff.mp h
    obtain ⟨first, n, last, rfl, hlength, hn, hnew⟩ := ih hl
    refine ⟨n₁ :: first, n, last, rfl, congrArg (· + 1) hlength, hn, ?_⟩
    intro v' m hm
    rw [List.cons_append, nodes_cons, hn₁, hnew v' m hm]
    rfl

/-! ## Sections -/

theorem under_some_ne_none (before : List Statement) (a : Statement) :
    before.foldl Statement.under (some a) ≠ none := by
  induction before generalizing a with
  | nil => exact Option.some_ne_none a
  | cons b before ih =>
    cases b with
    | pair => exact ih a
    | header k => exact ih (.header k)
    | arrayHeader k => exact ih (.arrayHeader k)

/-- Before any header there are pairs only. -/
theorem ofStatements_unheaded {before : List Statement}
    (h : before.foldl Statement.under none = none) : ∃ pairs, ∀ rest,
      Outline.ofStatements (before ++ rest) =
        ⟨pairs ++ (Outline.ofStatements rest).pairs, (Outline.ofStatements rest).sections⟩ := by
  induction before with
  | nil => exact ⟨[], fun rest => rfl⟩
  | cons a before ih =>
    cases a with
    | pair k v =>
      obtain ⟨pairs, hpairs⟩ := ih h
      refine ⟨(k, v) :: pairs, fun rest => ?_⟩
      rw [List.cons_append, Outline.ofStatements, hpairs]
      rfl
    | header k => exact absurd h (under_some_ne_none before (.header k))
    | arrayHeader k => exact absurd h (under_some_ne_none before (.arrayHeader k))

/-- Pairs after a header belong to its section. -/
theorem ofStatements_headed {before : List Statement} {hd : Option Statement} {k : Key}
    (h : before.foldl Statement.under hd = some (.header k)) :
    (hd = some (.header k) ∧ ∃ pairs, ∀ rest, Outline.ofStatements (before ++ rest) =
      ⟨pairs ++ (Outline.ofStatements rest).pairs, (Outline.ofStatements rest).sections⟩) ∨
    ∃ top first pairs, ∀ rest, Outline.ofStatements (before ++ rest) =
      ⟨top, first ++ ⟨false, k, pairs ++ (Outline.ofStatements rest).pairs⟩ ::
        (Outline.ofStatements rest).sections⟩ := by
  induction before generalizing hd with
  | nil => exact .inl ⟨h, [], fun rest => rfl⟩
  | cons a before ih =>
    cases a with
    | pair k₁ v₁ =>
      rcases ih h with ⟨rfl, pairs, hpairs⟩ | ⟨top, first, pairs, hpairs⟩
      · refine .inl ⟨rfl, (k₁, v₁) :: pairs, fun rest => ?_⟩
        rw [List.cons_append, Outline.ofStatements, hpairs]
        rfl
      · refine .inr ⟨(k₁, v₁) :: top, first, pairs, fun rest => ?_⟩
        rw [List.cons_append, Outline.ofStatements, hpairs]
    | header k₁ =>
      rcases ih h with ⟨heq, pairs, hpairs⟩ | ⟨top, first, pairs, hpairs⟩
      · cases heq
        refine .inr ⟨[], [], pairs, fun rest => ?_⟩
        rw [List.cons_append, Outline.ofStatements, hpairs]
        rfl
      · refine .inr ⟨[], ⟨false, k₁, top⟩ :: first, pairs, fun rest => ?_⟩
        rw [List.cons_append, Outline.ofStatements, hpairs]
        rfl
    | arrayHeader k₁ =>
      rcases ih h with ⟨heq, -⟩ | ⟨top, first, pairs, hpairs⟩
      · cases heq
      · refine .inr ⟨[], ⟨true, k₁, top⟩ :: first, pairs, fun rest => ?_⟩
        rw [List.cons_append, Outline.ofStatements, hpairs]
        rfl

theorem section_named (hn : n.IsClosed) (hv : v.node = some n) (hv' : v'.node = some m)
    {before after : List (Key × Value)} {t t' : Entries}
    (ht : Section.apply ⟨false, ⟨[], sectionName⟩, before ++ (⟨[], name⟩, v) :: after⟩ t = some t') :
    ∃ u', Section.apply ⟨false, ⟨[], sectionName⟩, before ++ (⟨[], name⟩, v') :: after⟩ t =
        some u' ∧ AlteredAt sectionName (Altered n m [name]) t' u' := by
  have hheaded : ∀ {t n'},
      (putAll t (before ++ (⟨[], name⟩, v) :: after)).map (.table .headed) = some n' →
      ∃ m', (putAll t (before ++ (⟨[], name⟩, v') :: after)).map (.table .headed) = some m' ∧
        Altered n m [name] n' m' :=
    altered_table fun _ => putAll_named hn hv hv'
  have hopen : ∀ pairs, Section.apply ⟨false, ⟨[], sectionName⟩, pairs⟩ t =
      t.update sectionName (openNode pairs) := by
    intro pairs
    rw [Section.apply, if_neg (by simp), Entries.descend, open?_eq]
  rw [hopen] at ht ⊢
  apply alteredAt_update _ ht
  intro n' hn
  cases hlookup : t.lookup sectionName with
  | none =>
    rw [hlookup, openNode] at hn
    exact hheaded hn
  | some found =>
    rw [hlookup] at hn
    cases found with
    | scalar | array | tables => cases hn
    | table origin t =>
      cases origin with
      | headed | dotted | inline => cases hn
      | implied =>
        rw [openNode] at hn
        exact hheaded hn

theorem foldlM_altered {n m : Node} {step : String} {path : List String} (hn : n.IsClosed)
    {sections : List Section} {t u t' : Entries} (h : AlteredAt step (Altered n m path) t u)
    (ht : sections.foldlM (fun t s => s.apply t) t = some t') :
    ∃ u', sections.foldlM (fun t s => s.apply t) u = some u' ∧
      AlteredAt step (Altered n m path) t' u' := by
  induction sections generalizing t u with
  | nil =>
    cases ht
    exact ⟨u, rfl, h⟩
  | cons s sections ih =>
    obtain ⟨t₁, ht₁, ht⟩ := Option.bind_eq_some_iff.mp ht
    obtain ⟨u₁, hu₁, h₁⟩ := maintains_section hn s h ht₁
    obtain ⟨u', hu', h'⟩ := ih h₁ ht
    exact ⟨u', Option.bind_eq_some_iff.mpr ⟨u₁, hu₁, hu'⟩, h'⟩

theorem root_eq (o : Outline) :
    o.root = (putAll [] o.pairs).bind fun t => o.sections.foldlM (fun t s => s.apply t) t :=
  rfl

theorem parse_eq_ok_iff {text : List Char} {t : Entries} :
    parse text = .ok t ↔ ∃ l, statements (withoutMark text) = .ok l ∧
      (Outline.ofStatements l).root = some t := by
  unfold parse
  cases statements (withoutMark text) with
  | error rest => simp
  | ok l => cases hroot : (Outline.ofStatements l).root <;> simp [hroot]

/-- The pair stands at the top, and its value alters every table alike. -/
theorem root_unheaded {n m : Node} {path : List String} (hn : n.IsClosed)
    {before after : List Statement} {k : Key} {v v' : Value} {t : Entries}
    (hunder : before.foldl Statement.under none = none)
    (hpair : ∀ {t t'}, putAll t [(k, v)] = some t' →
      ∃ u', putAll t [(k, v')] = some u' ∧ AlteredAt sectionName (Altered n m path) t' u')
    (ht : (Outline.ofStatements (before ++ .pair k v :: after)).root = some t) :
    ∃ u, (Outline.ofStatements (before ++ .pair k v' :: after)).root = some u ∧
      AlteredAt sectionName (Altered n m path) t u := by
  obtain ⟨pairs, hpairs⟩ := ofStatements_unheaded hunder
  rw [hpairs, root_eq] at ht ⊢
  obtain ⟨t₀, ht₀, ht⟩ := Option.bind_eq_some_iff.mp ht
  obtain ⟨u₀, hu₀, h₀⟩ := putAll_replace hn hpair ht₀
  obtain ⟨u, hu, h⟩ := foldlM_altered hn h₀ ht
  exact ⟨u, Option.bind_eq_some_iff.mpr ⟨u₀, hu₀, hu⟩, h⟩

theorem root_headed {before after : List Statement} {t : Entries}
    (hunder : before.foldl Statement.under none = some (.header ⟨[], sectionName⟩))
    (ht : (Outline.ofStatements (before ++ .pair ⟨[], name⟩ (.ofText x) :: after)).root = some t) :
    ∃ u, (Outline.ofStatements (before ++ .pair ⟨[], name⟩ (.ofText y) :: after)).root = some u ∧
      AlteredAt sectionName (Altered (.ofText x) (.ofText y) [name]) t u := by
  rcases ofStatements_headed hunder with ⟨heq, -⟩ | ⟨top, first, pairs, hsections⟩
  · cases heq
  · simp only [hsections, root_eq, List.foldlM_append, List.foldlM_cons] at ht ⊢
    obtain ⟨t₀, ht₀, ht⟩ := Option.bind_eq_some_iff.mp ht
    obtain ⟨t₁, ht₁, ht⟩ := Option.bind_eq_some_iff.mp ht
    obtain ⟨t₂, ht₂, ht⟩ := Option.bind_eq_some_iff.mp ht
    obtain ⟨u₂, hu₂, h₂⟩ :=
      section_named (n := .ofText x) trivial (node_ofText x) (node_ofText y) ht₂
    obtain ⟨u, hu, h⟩ := foldlM_altered (n := .ofText x) trivial h₂ ht
    refine ⟨u, Option.bind_eq_some_iff.mpr ⟨t₀, ht₀, ?_⟩, h⟩
    exact Option.bind_eq_some_iff.mpr ⟨t₁, ht₁, Option.bind_eq_some_iff.mpr ⟨u₂, hu₂, hu⟩⟩

/-- A table in a value, whose nodes differ at the member alone. -/
theorem inline_altered (hn : n.IsClosed) (hv : v.node = some n) (hv' : v'.node = some m)
    (first last : List (Key × Value)) {node : Node}
    (hnode : (Value.table (first ++ (⟨[], name⟩, v) :: last)).node = some node) :
    ∃ node', (Value.table (first ++ (⟨[], name⟩, v') :: last)).node = some node' ∧
      Altered n m [name] node node' := by
  rw [Value.node] at hnode ⊢
  exact altered_table (fun _ => putAll_named hn hv hv') hnode

/-- An array in a value, whose nodes differ at the index of the member alone. -/
theorem listed_altered {first last : List Value} {l : List Node} (hindex : first.length = index)
    (h : nodes (first ++ .ofText x :: last) = some l) :
    ∃ n m, Stands name index x y n m [] ∧
      ∀ n', (Value.array (first ++ .ofText x :: last)).node = some n' →
        ∃ m', (Value.array (first ++ .ofText y :: last)).node = some m' ∧ Altered n m [] n' m' := by
  obtain ⟨first', n, last', rfl, hlength, hn, hnew⟩ := nodes_replace h
  rw [node_ofText] at hn
  cases hn
  refine ⟨_, _, .item first' last' (hlength.trans hindex), ?_⟩
  intro n' hn'
  rw [Value.node, h] at hn'
  cases hn'
  exact ⟨_, by rw [Value.node, hnew _ _ (node_ofText y)]; rfl, rfl, rfl⟩

theorem root_altered {before after : List Statement} {k : Key} {v v' : Value} {t : Entries}
    (h : Gives sectionName name index x y (before.foldl Statement.under none) k v v')
    (ht : (Outline.ofStatements (before ++ .pair k v :: after)).root = some t) :
    ∃ n m path u, Stands name index x y n m path ∧
      (Outline.ofStatements (before ++ .pair k v' :: after)).root = some u ∧
      AlteredAt sectionName (Altered n m path) t u := by
  generalize hunder : before.foldl Statement.under none = hd at h
  cases h with
  | headed =>
    obtain ⟨u, hu, haltered⟩ := root_headed hunder ht
    exact ⟨_, _, _, u, .member, hu, haltered⟩
  | dotted =>
    obtain ⟨u, hu, haltered⟩ := root_unheaded (n := .ofText x) trivial hunder
      (putAll_dotted (node_ofText x) (node_ofText y)) ht
    exact ⟨_, _, _, u, .member, hu, haltered⟩
  | inline first last =>
    obtain ⟨u, hu, haltered⟩ := root_unheaded (n := .ofText x) trivial hunder
      (putAll_related fun _ => inline_altered (n := .ofText x) trivial (node_ofText x)
        (node_ofText y) first last) ht
    exact ⟨_, _, _, u, .member, hu, haltered⟩
  | listed first last hindex =>
    cases hnodes : nodes (first ++ .ofText x :: last) with
    | none =>
      -- A value without a node is put nowhere.
      obtain ⟨u, hu, haltered⟩ := root_unheaded (n := .ofText x) trivial hunder
        (fun h => by simp [putAll_singleton, Value.node, hnodes] at h) ht
      exact ⟨_, .ofText y, [name], u, .member, hu, haltered⟩
    | some l =>
      obtain ⟨n, m, hstands, hnode⟩ := listed_altered hindex hnodes
      obtain ⟨u, hu, haltered⟩ :=
        root_unheaded hstands.isClosed hunder (putAll_related hnode) ht
      exact ⟨n, m, [], u, hstands, hu, haltered⟩

end LetterPages.Toml
