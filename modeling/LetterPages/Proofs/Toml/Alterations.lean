import Mathlib.Tactic.SplitIfs
import LetterPages.Toml.Tables

/-!
# Tables that differ at one address

An address is a path of names. Two tables differ at an address alone if they hold the same nodes but
for the node it leads to. Building goes on alike on both tables, because no step looks into a string
or an array.
-/

namespace LetterPages.Toml

/-- Tables with the same names, whose nodes are the same except that those of `step` are related. -/
inductive Alike (step : String) (R : Node → Node → Prop) : Entries → Entries → Prop
  | nil : Alike step R [] []
  | same {other : String} {n : Node} {t u : Entries} (hne : other ≠ step) (h : Alike step R t u) :
      Alike step R ((other, n) :: t) ((other, n) :: u)
  | related {n m : Node} {t u : Entries} (hnode : R n m) (h : Alike step R t u) :
      Alike step R ((step, n) :: t) ((step, m) :: u)

structure AlteredAt (step : String) (R : Node → Node → Prop) (t u : Entries) : Prop where
  mem : step ∈ t.map Prod.fst
  alike : Alike step R t u

/-- Nodes that differ at the address alone, where one holds `x` and the other `y`. -/
def Altered (x y : Node) : List String → Node → Node → Prop
  | [], n, m => n = x ∧ m = y
  | step :: path, n, m => ∃ origin t u,
      n = .table origin t ∧ m = .table origin u ∧ AlteredAt step (Altered x y path) t u

/-- A node that no key and no header leads into. -/
def Node.IsClosed : Node → Prop
  | .scalar _ => True
  | .array _ => True
  | .tables _ => False
  | .table _ _ => False

variable {step name : String} {R : Node → Node → Prop} {t u : Entries}

theorem Entries.set_cons (name : String) (node : Node) (e : String × Node) (t : Entries) :
    Entries.set name node (e :: t) =
      (if e.1 = name then (name, node) else e) :: Entries.set name node t :=
  rfl

theorem Entries.names_set (name : String) (node : Node) (t : Entries) :
    (Entries.set name node t).map Prod.fst = t.map Prod.fst := by
  induction t with
  | nil => rfl
  | cons e t ih =>
    rw [Entries.set_cons, List.map_cons, List.map_cons, ih]
    split
    · rename_i heq
      rw [← heq]
    · rfl

theorem Entries.mem_set {other : String} {node : Node} :
    other ∈ (Entries.set name node t).map Prod.fst ↔ other ∈ t.map Prod.fst := by
  rw [names_set]

theorem Entries.mem_of_lookup {node : Node} (h : t.lookup name = some node) :
    name ∈ t.map Prod.fst := by
  obtain ⟨before, after, rfl, -⟩ := List.lookup_eq_some_iff.mp h
  simp

theorem Entries.not_mem_of_lookup (h : t.lookup name = none) : name ∉ t.map Prod.fst := by
  rintro hmem
  obtain ⟨e, he, rfl⟩ := List.mem_map.mp hmem
  simpa using List.lookup_eq_none_iff.mp h e he

namespace Alike

theorem refl (h : step ∉ t.map Prod.fst) : Alike step R t t := by
  induction t with
  | nil => exact .nil
  | cons e t ih =>
    rw [List.map_cons, List.mem_cons, not_or] at h
    exact .same (Ne.symm h.1) (ih h.2)

theorem append {t' u' : Entries} (h : Alike step R t u) (h' : Alike step R t' u') :
    Alike step R (t ++ t') (u ++ u') := by
  induction h with
  | nil => exact h'
  | same hne _ ih => exact .same hne ih
  | related hnode _ ih => exact .related hnode ih

theorem lookup_of_ne (h : Alike step R t u) (hne : name ≠ step) : t.lookup name = u.lookup name := by
  induction h with
  | nil => rfl
  | same _ _ ih => simp only [List.lookup_cons, ih]
  | related _ _ ih =>
    have hbeq : (name == step) = false := beq_false_of_ne hne
    simp only [List.lookup_cons, hbeq, ih]

theorem lookup_self (h : Alike step R t u) (hmem : step ∈ t.map Prod.fst) :
    ∃ n m, t.lookup step = some n ∧ u.lookup step = some m ∧ R n m := by
  induction h with
  | nil => cases hmem
  | same hne _ ih =>
    have hbeq := beq_false_of_ne (Ne.symm hne)
    rcases List.mem_cons.mp hmem with heq | hmem
    · exact absurd heq (Ne.symm hne)
    · obtain ⟨n, m, hn, hm, hnode⟩ := ih hmem
      exact ⟨n, m, by simp only [List.lookup_cons, hbeq, hn], by simp only [List.lookup_cons, hbeq, hm],
        hnode⟩
  | @related n m _ _ hnode _ _ => exact ⟨n, m, by simp, by simp, hnode⟩

theorem eq_of_not_mem (h : Alike step R t u) (hmem : step ∉ t.map Prod.fst) : t = u := by
  induction h with
  | nil => rfl
  | same _ _ ih => rw [ih fun h => hmem (List.mem_cons_of_mem _ h)]
  | related => exact absurd List.mem_cons_self hmem

theorem set_of_ne (h : Alike step R t u) (hne : name ≠ step) (node : Node) :
    Alike step R (Entries.set name node t) (Entries.set name node u) := by
  induction h with
  | nil => exact .nil
  | @same other n t u hother _ ih =>
    rw [Entries.set_cons, Entries.set_cons]
    split
    · exact .same hne ih
    · exact .same hother ih
  | related hnode _ ih =>
    rw [Entries.set_cons, Entries.set_cons, if_neg (Ne.symm hne), if_neg (Ne.symm hne)]
    exact .related hnode ih

theorem set_self {n m : Node} (h : Alike step R t u) (hnode : R n m) :
    Alike step R (Entries.set step n t) (Entries.set step m u) := by
  induction h with
  | nil => exact .nil
  | same hne _ ih =>
    rw [Entries.set_cons, Entries.set_cons, if_neg hne, if_neg hne]
    exact .same hne ih
  | related _ _ ih =>
    rw [Entries.set_cons, Entries.set_cons, if_pos rfl, if_pos rfl]
    exact .related hnode ih

/-- Related nodes in place of those that one table has for the name. -/
theorem set_same (t : Entries) {n m : Node} (hnode : R n m) :
    Alike step R (Entries.set step n t) (Entries.set step m t) := by
  induction t with
  | nil => exact .nil
  | cons e t ih =>
    rw [Entries.set_cons, Entries.set_cons]
    split
    · exact .related hnode ih
    · rename_i hne
      exact .same hne ih

end Alike

/-! ## One entry at a time -/

namespace Entries

/-- The table with the node that `f` makes of the one it has for the name, if any. -/
def update (name : String) (f : Option Node → Option Node) (t : Entries) : Option Entries :=
  (f (t.lookup name)).map fun n =>
    if (t.lookup name).isSome then t.set name n else t ++ [(name, n)]

theorem update_of_none {f : Option Node → Option Node} (h : t.lookup name = none) :
    update name f t = (f none).map fun n => t ++ [(name, n)] := by
  simp [update, h]

theorem update_of_some {f : Option Node → Option Node} {n : Node} (h : t.lookup name = some n) :
    update name f t = (f (some n)).map fun n => t.set name n := by
  simp [update, h]

def addNode (node : Node) : Option Node → Option Node
  | none => some node
  | some _ => none

def putNode (name : String) (node : Node) (path : List String) : Option Node → Option Node
  | none => (put name node path []).map (.table .dotted)
  | some (.table .dotted u) => (put name node path u).map (.table .dotted)
  | some (.table .implied u) =>
    if path = [] then none else (put name node path u).map (.table .implied)
  | some (.tables us) =>
    if path = [] then none else (onLast (put name node path) us).map .tables
  | some _ => none

def descendNode (work : Entries → Option Entries) (path : List String) :
    Option Node → Option Node
  | none => (descend work path []).map (.table .implied)
  | some (.table .inline _) => none
  | some (.table origin u) => (descend work path u).map (.table origin)
  | some (.tables us) => (onLast (descend work path) us).map .tables
  | some _ => none

theorem add_eq (name : String) (node : Node) (t : Entries) :
    add name node t = update name (addNode node) t := by
  rw [add]
  cases h : t.lookup name with
  | none => rw [update_of_none h]; rfl
  | some n => rw [update_of_some h]; rfl

theorem put_cons (name : String) (node : Node) (step : String) (path : List String) (t : Entries) :
    put name node (step :: path) t = update step (putNode name node path) t := by
  rw [put]
  cases h : t.lookup step with
  | none => simp [update_of_none h, putNode, Function.comp_def]
  | some n =>
    rw [update_of_some h]
    cases n with
    | scalar | array => rfl
    | tables us =>
      simp only [putNode]
      split <;> simp [Function.comp_def]
    | table origin u =>
      cases origin with
      | headed | inline => rfl
      | dotted => simp [putNode, Function.comp_def]
      | implied =>
        simp only [putNode]
        split <;> simp [Function.comp_def]

theorem descend_cons (work : Entries → Option Entries) (step : String) (path : List String)
    (t : Entries) :
    descend work (step :: path) t = update step (descendNode work path) t := by
  rw [descend]
  cases h : t.lookup step with
  | none => simp [update_of_none h, descendNode, Function.comp_def]
  | some n =>
    rw [update_of_some h]
    cases n with
    | scalar | array => rfl
    | tables us => simp [descendNode, Function.comp_def]
    | table origin u =>
      cases origin with
      | inline => rfl
      | headed | dotted | implied => simp [descendNode, Function.comp_def]

end Entries

def openNode (pairs : List (Key × Value)) : Option Node → Option Node
  | none => (putAll [] pairs).map (.table .headed)
  | some (.table .implied u) => (putAll u pairs).map (.table .headed)
  | some _ => none

def pushNode (pairs : List (Key × Value)) : Option Node → Option Node
  | none => (putAll [] pairs).map fun u => .tables [u]
  | some (.tables us) => (putAll [] pairs).map fun u => .tables (us ++ [u])
  | some _ => none

theorem open?_eq (name : String) (pairs : List (Key × Value)) (t : Entries) :
    open? name pairs t = t.update name (openNode pairs) := by
  rw [open?]
  cases h : t.lookup name with
  | none => simp [Entries.update_of_none h, openNode, Function.comp_def]
  | some n =>
    rw [Entries.update_of_some h]
    cases n with
    | scalar | array | tables => rfl
    | table origin u =>
      cases origin with
      | headed | dotted | inline => rfl
      | implied => simp [openNode, Function.comp_def]

theorem push?_eq (name : String) (pairs : List (Key × Value)) (t : Entries) :
    push? name pairs t = t.update name (pushNode pairs) := by
  rw [push?]
  cases h : t.lookup name with
  | none => simp [Entries.update_of_none h, pushNode, Function.comp_def]
  | some n =>
    rw [Entries.update_of_some h]
    cases n with
    | scalar | array | table => rfl
    | tables us => simp [pushNode, Function.comp_def]

/-! ## The same step on both tables -/

/-- What keeps two nodes related. -/
def Carries (R : Node → Node → Prop) (f : Option Node → Option Node) : Prop :=
  ∀ n m n', R n m → f (some n) = some n' → ∃ m', f (some m) = some m' ∧ R n' m'

theorem AlteredAt.update {f : Option Node → Option Node} {t' : Entries}
    (h : AlteredAt step R t u) (hf : Carries R f) (ht : t.update name f = some t') :
    ∃ u', u.update name f = some u' ∧ AlteredAt step R t' u' := by
  by_cases hname : name = step
  · subst hname
    obtain ⟨n, m, hn, hm, hnode⟩ := h.alike.lookup_self h.mem
    rw [Entries.update_of_some hn] at ht
    obtain ⟨n', hn', rfl⟩ := Option.map_eq_some_iff.mp ht
    obtain ⟨m', hm', hnode'⟩ := hf n m n' hnode hn'
    refine ⟨u.set name m', ?_, Entries.mem_set.mpr h.mem, h.alike.set_self hnode'⟩
    rw [Entries.update_of_some hm, hm']
    rfl
  · have hlookup := h.alike.lookup_of_ne hname
    cases hn : t.lookup name with
    | none =>
      rw [Entries.update_of_none hn] at ht
      obtain ⟨n, hn', rfl⟩ := Option.map_eq_some_iff.mp ht
      refine ⟨u ++ [(name, n)], ?_, ?_, h.alike.append (.same hname .nil)⟩
      · rw [Entries.update_of_none (hlookup.symm.trans hn), hn']
        rfl
      · rw [List.map_append]
        exact List.mem_append_left _ h.mem
    | some n =>
      rw [Entries.update_of_some hn] at ht
      obtain ⟨n', hn', rfl⟩ := Option.map_eq_some_iff.mp ht
      refine ⟨u.set name n', ?_, Entries.mem_set.mpr h.mem, h.alike.set_of_ne hname n'⟩
      rw [Entries.update_of_some (hlookup.symm.trans hn), hn']
      rfl

/-- Two steps on one table that make related nodes. -/
theorem alteredAt_update {f g : Option Node → Option Node} {t' : Entries}
    (hfg : ∀ n, f (t.lookup step) = some n → ∃ m, g (t.lookup step) = some m ∧ R n m)
    (ht : t.update step f = some t') :
    ∃ u', t.update step g = some u' ∧ AlteredAt step R t' u' := by
  obtain ⟨n, hn, rfl⟩ := Option.map_eq_some_iff.mp ht
  obtain ⟨m, hm, hnode⟩ := hfg n hn
  refine ⟨_, by rw [Entries.update, hm]; rfl, ?_⟩
  cases hlookup : t.lookup step with
  | none =>
    have hfresh := Entries.not_mem_of_lookup hlookup
    exact ⟨by simp, (Alike.refl hfresh).append (.related hnode .nil)⟩
  | some _ =>
    have hmem := Entries.mem_of_lookup hlookup
    exact ⟨Entries.mem_set.mpr hmem, Alike.set_same t hnode⟩

section

variable {x y : Node} {path : List String}

/-- Tables that differ at an address are nodes that differ at it, whatever they come from. -/
theorem altered_table {a b : Option Entries} {origin : Origin} {n : Node}
    (h : ∀ t, a = some t → ∃ u, b = some u ∧ AlteredAt step (Altered x y path) t u)
    (hn : a.map (.table origin) = some n) :
    ∃ m, b.map (.table origin) = some m ∧ Altered x y (step :: path) n m := by
  obtain ⟨t, ht, rfl⟩ := Option.map_eq_some_iff.mp hn
  obtain ⟨u, rfl, haltered⟩ := h t ht
  exact ⟨.table origin u, rfl, origin, t, u, rfl, rfl, haltered⟩

/-- A step that leads into tables only, and alters them alike. -/
theorem carries_of_tables {f : Option Node → Option Node} (hx : x.IsClosed)
    (hscalar : ∀ a, f (some (.scalar a)) = none) (harray : ∀ items, f (some (.array items)) = none)
    (htable : ∀ {step path t u origin n}, AlteredAt step (Altered x y path) t u →
      f (some (.table origin t)) = some n →
      ∃ m, f (some (.table origin u)) = some m ∧ Altered x y (step :: path) n m) :
    Carries (Altered x y path) f := by
  intro n m n' h hn
  cases path with
  | nil =>
    obtain ⟨rfl, rfl⟩ := h
    cases n with
    | scalar a => rw [hscalar] at hn; cases hn
    | array items => rw [harray] at hn; cases hn
    | tables | table => cases hx
  | cons step path =>
    obtain ⟨origin, t, u, rfl, rfl, haltered⟩ := h
    exact htable haltered hn

/-- Work that alters two tables alike. -/
def Maintains (x y : Node) (work : Entries → Option Entries) : Prop :=
  ∀ {step path t u t'}, AlteredAt step (Altered x y path) t u → work t = some t' →
    ∃ u', work u = some u' ∧ AlteredAt step (Altered x y path) t' u'

theorem maintains_put (hx : x.IsClosed) (name : String) (node : Node) (way : List String) :
    Maintains x y (Entries.put name node way) := by
  intro step path t u t' h ht
  induction way generalizing step t u t' path with
  | nil =>
    rw [Entries.put, Entries.add_eq] at ht ⊢
    apply h.update _ ht
    rintro n m n' - hn
    cases hn
  | cons way₁ way ih =>
    rw [Entries.put_cons] at ht ⊢
    apply h.update _ ht
    refine carries_of_tables hx (fun _ => rfl) (fun _ => rfl) ?_
    intro step path t u origin n haltered hn
    cases origin with
    | headed | inline => cases hn
    | dotted => exact altered_table (fun _ => ih haltered) hn
    | implied =>
      rw [Entries.putNode] at hn ⊢
      split_ifs at hn ⊢
      exact altered_table (fun _ => ih haltered) hn

theorem maintains_descend (hx : x.IsClosed) {work : Entries → Option Entries}
    (hwork : Maintains x y work) (way : List String) :
    Maintains x y (Entries.descend work way) := by
  intro step path t u t' h ht
  induction way generalizing step t u t' path with
  | nil => exact hwork h ht
  | cons way₁ way ih =>
    rw [Entries.descend_cons] at ht ⊢
    apply h.update _ ht
    refine carries_of_tables hx (fun _ => rfl) (fun _ => rfl) ?_
    intro step path t u origin n haltered hn
    cases origin with
    | inline => cases hn
    | headed | dotted | implied => exact altered_table (fun _ => ih haltered) hn

theorem putAll_cons (t : Entries) (k : Key) (v : Value) (pairs : List (Key × Value)) :
    putAll t ((k, v) :: pairs) =
      v.node.bind fun n => (Entries.put k.name n k.path t).bind fun t => putAll t pairs := by
  rw [putAll]
  cases v.node with
  | none => rfl
  | some n =>
    simp only [Option.bind_some]
    cases Entries.put k.name n k.path t <;> rfl

theorem putAll_append (t : Entries) (pairs more : List (Key × Value)) :
    putAll t (pairs ++ more) = (putAll t pairs).bind fun t => putAll t more := by
  induction pairs generalizing t with
  | nil => rw [putAll]; rfl
  | cons pair pairs ih =>
    obtain ⟨k, v⟩ := pair
    rw [List.cons_append, putAll_cons, putAll_cons, Option.bind_assoc]
    congr 1
    funext n
    rw [Option.bind_assoc]
    congr 1
    funext t
    exact ih t

theorem putAll_singleton (t : Entries) (k : Key) (v : Value) :
    putAll t [(k, v)] = v.node.bind fun n => Entries.put k.name n k.path t := by
  rw [putAll_cons]
  congr 1
  funext n
  cases Entries.put k.name n k.path t with
  | none => rfl
  | some t => rw [Option.bind_some, putAll]

theorem maintains_putAll (hx : x.IsClosed) (pairs : List (Key × Value)) :
    Maintains x y fun t => putAll t pairs := by
  intro step path t u t' h ht
  induction pairs generalizing t u with
  | nil =>
    cases ht
    exact ⟨u, rfl, h⟩
  | cons pair pairs ih =>
    obtain ⟨k, v⟩ := pair
    simp only [putAll_cons] at ht ⊢
    obtain ⟨n, hn, ht⟩ := Option.bind_eq_some_iff.mp ht
    obtain ⟨t₁, ht₁, ht⟩ := Option.bind_eq_some_iff.mp ht
    obtain ⟨u₁, hu₁, h₁⟩ := maintains_put hx k.name n k.path h ht₁
    simp only [hn, hu₁, Option.bind_some]
    exact ih h₁ ht

theorem maintains_open (hx : x.IsClosed) (name : String) (pairs : List (Key × Value)) :
    Maintains x y (open? name pairs) := by
  intro step path t u t' h ht
  rw [open?_eq] at ht ⊢
  apply h.update _ ht
  refine carries_of_tables hx (fun _ => rfl) (fun _ => rfl) ?_
  intro step path t u origin n haltered hn
  cases origin with
  | headed | dotted | inline => cases hn
  | implied => exact altered_table (fun _ => maintains_putAll hx pairs haltered) hn

theorem maintains_push (hx : x.IsClosed) (name : String) (pairs : List (Key × Value)) :
    Maintains x y (push? name pairs) := by
  intro step path t u t' h ht
  rw [push?_eq] at ht ⊢
  apply h.update _ ht
  refine carries_of_tables hx (fun _ => rfl) (fun _ => rfl) ?_
  intro step path t u origin n haltered hn
  cases hn

theorem maintains_section (hx : x.IsClosed) (s : Section) : Maintains x y s.apply := by
  intro step path t u t' h ht
  rw [Section.apply] at ht ⊢
  split_ifs at ht ⊢
  · exact maintains_descend hx (maintains_push hx s.key.name s.pairs) s.key.path h ht
  · exact maintains_descend hx (maintains_open hx s.key.name s.pairs) s.key.path h ht

end

end LetterPages.Toml
