import LetterPages.Proofs.TextSettings
import LetterPages.Proofs.Toml.MergedSections
import LetterPages.Settings.Changes

/-!
# Settings read from tables

A table that holds values for some of the settings, besides whatever else, is read to the settings
with these values. Each setting depends on one entry of one section, so no order matters.
-/

namespace LetterPages.Settings

open Toml (Node Entries Scalar Value Altered AlteredAt Merged Matched IsSection)

/-! ## The settings and their values -/

/-- A setting is a member of a section. -/
inductive Setting where
  | text (k : TextSetting)
  | chunkSize
  deriving DecidableEq, Repr

namespace Setting

def all : List Setting :=
  [text .inputPath, chunkSize, text .outputDir, text .metadataPath, text .locale]

def sectionName : Setting → String
  | text k => k.sectionName
  | chunkSize => "chunking"

def name : Setting → String
  | text k => k.name
  | chunkSize => "chunk_size"

def members : Setting → List Member
  | text k => k.members
  | chunkSize => chunking

/-- What a node does to the settings as the value of the member. -/
def set : Setting → Node → Settings → Option Settings
  | text k => k.set
  | chunkSize => fun n s => (sizeOf? n).map fun size => { s with chunkSize := size }

theorem mem_all (k : Setting) : k ∈ all := by
  cases k with
  | text k => cases k <;> decide
  | chunkSize => decide

end Setting

def isSetting (sectionName name : String) : Bool :=
  Setting.all.any fun k => k.sectionName == sectionName && k.name == name

/-- Values for some of the settings. -/
structure Assignment where
  text : TextSetting → Option String
  chunkSize : Option UInt64

namespace Assignment

def value? (a : Assignment) : Setting → Option Value
  | .text k => (a.text k).map fun text => .scalar (.string text)
  | .chunkSize => a.chunkSize.map fun size => .scalar (.integer (some size.toNat))

def changes (a : Assignment) : Changes where
  inputPath := (a.text .inputPath).map .ofString
  outputDir := (a.text .outputDir).map .ofString
  metadataPath := (a.text .metadataPath).map .ofString
  chunkSize := a.chunkSize
  locale := a.text .locale

end Assignment

theorem isSetting_iff {sectionName name : String} : isSetting sectionName name = true ↔
    ∃ k : Setting, k.sectionName = sectionName ∧ k.name = name := by
  simp only [isSetting, List.any_eq_true, Bool.and_eq_true, beq_iff_eq]
  exact ⟨fun ⟨k, _, h⟩ => ⟨k, h⟩, fun ⟨k, h⟩ => ⟨k, k.mem_all, h⟩⟩

theorem effect_setting (k : Setting) : effect k.members k.name = k.set := by
  cases k with
  | text k => exact effect_name k
  | chunkSize => rfl

theorem effect_section (k : Setting) : effect sections k.sectionName = visitSection k.members := by
  cases k with
  | text k => exact effect_sectionName k
  | chunkSize => rfl

/-! ## One part of the settings -/

section Parts

variable {α : Type} {get : Settings → α} {members : List Member} {t : Entries} {s s' : Settings}

/-- Reading that leaves a part of the settings as it is. -/
def Spares (get : Settings → α) (set : Node → Settings → Option Settings) : Prop :=
  ∀ n s s', set n s = some s' → get s' = get s

theorem spares_map {β : Type} {read : Node → Option β} {put : β → Settings → Settings}
    (h : ∀ b s, get (put b s) = get s) : Spares get fun n s => (read n).map fun b => put b s := by
  intro n s s' hset
  obtain ⟨b, -, rfl⟩ := Option.map_eq_some_iff.mp hset
  exact h b s

theorem spares_effect {name : String} (h : ∀ m ∈ members, m.1 = name → Spares get m.2) :
    Spares get (effect members name) := by
  intro n s s' heffect
  rw [effect] at heffect
  split at heffect
  next set hlookup =>
    obtain ⟨before, after, rfl, -⟩ := List.lookup_eq_some_iff.mp hlookup
    exact h (name, set) (by simp) rfl n s s' heffect
  next =>
    split at heffect
    · rw [Option.some.inj heffect]
    · cases heffect

theorem get_visit_of_spares (h : ∀ e ∈ t, Spares get (effect members e.1))
    (hvisit : visit members t s = some s') : get s' = get s := by
  induction t generalizing s with
  | nil => rw [Option.some.inj hvisit]
  | cons e t ih =>
    rw [visit_cons] at hvisit
    obtain ⟨s₁, hs₁, hvisit⟩ := Option.bind_eq_some_iff.mp hvisit
    rw [ih (fun e he => h e (List.mem_cons_of_mem _ he)) hvisit, h e List.mem_cons_self _ _ _ hs₁]

theorem get_visitItems_of_spares {items : List Node} (h : ∀ m ∈ members, Spares get m.2)
    (hvisit : visitItems members items s = some s') : get s' = get s := by
  induction members generalizing items s with
  | nil => rw [Option.some.inj hvisit]
  | cons m members ih =>
    cases items with
    | nil => rw [Option.some.inj hvisit]
    | cons n items =>
      obtain ⟨s₁, hs₁, hvisit⟩ := Option.bind_eq_some_iff.mp hvisit
      rw [ih (fun m hm => h m (List.mem_cons_of_mem _ hm)) hvisit]
      exact h m List.mem_cons_self n s s₁ hs₁

theorem spares_section (h : ∀ m ∈ members, Spares get m.2) : Spares get (visitSection members) := by
  intro n s s' hsection
  cases n with
  | scalar a =>
    cases a with
    | moment => rw [Option.some.inj hsection]
    | string | integer | fraction | boolean => cases hsection
  | array items => exact get_visitItems_of_spares h hsection
  | tables => cases hsection
  | table origin t =>
    exact get_visit_of_spares (fun e _ => spares_effect fun m hm _ => h m hm) hsection

/-- A part is what some reading of the node makes of it, and is left as it was without a node. -/
def ReadAs (get : Settings → α) (set : Node → Settings → Option Settings) (x : Option Node)
    (s s' : Settings) : Prop :=
  match x with
  | none => get s' = get s
  | some n => ∃ s₁ s₂, set n s₁ = some s₂ ∧ get s₁ = get s ∧ get s' = get s₂

/-- A part that no other name bears on is read from the entry of the name. -/
theorem readAs_visit (name : String) (hnodup : (t.map Prod.fst).Nodup)
    (hother : ∀ other, other ≠ name → Spares get (effect members other))
    (hvisit : visit members t s = some s') :
    ReadAs get (effect members name) (t.lookup name) s s' := by
  induction t generalizing s with
  | nil =>
    rw [← Option.some.inj hvisit]
    rfl
  | cons e t ih =>
    rw [visit_cons] at hvisit
    obtain ⟨s₁, hs₁, hvisit⟩ := Option.bind_eq_some_iff.mp hvisit
    obtain ⟨hfresh, hnodup⟩ := List.nodup_cons.mp hnodup
    rw [Entries.lookup_cons]
    by_cases hname : name = e.1
    · rw [if_pos hname]
      have hrest : get s' = get s₁ := by
        apply get_visit_of_spares _ hvisit
        intro e' he'
        apply hother
        rintro rfl
        exact hfresh (hname ▸ List.mem_map_of_mem he')
      exact ⟨s, s₁, hname ▸ hs₁, rfl, hrest⟩
    · rw [if_neg hname]
      have hfirst : get s₁ = get s := hother e.1 (Ne.symm hname) _ _ _ hs₁
      have hrest := ih hnodup hvisit
      unfold ReadAs at hrest ⊢
      rwa [hfirst] at hrest

/-- A part that depends on the entry of one name alone. -/
theorem get_visit (name : String) (own : α → α) (hnodup : (t.map Prod.fst).Nodup)
    (hother : ∀ other, other ≠ name → Spares get (effect members other))
    (hown : ∀ n, t.lookup name = some n →
      ∀ s s', effect members name n s = some s' → get s' = own (get s))
    (hnone : t.lookup name = none → ∀ x, own x = x) (hvisit : visit members t s = some s') :
    get s' = own (get s) := by
  have hread := readAs_visit name hnodup hother hvisit
  cases hlookup : t.lookup name with
  | none =>
    rw [hlookup] at hread
    rw [hnone hlookup, hread]
  | some n =>
    rw [hlookup] at hread
    obtain ⟨s₁, s₂, heffect, hs₁, hs'⟩ := hread
    rw [hs', hown n hlookup s₁ s₂ heffect, hs₁]

theorem exists_visit (h : ∀ e ∈ t, ∀ s, ∃ s', effect members e.1 e.2 s = some s') (s : Settings) :
    ∃ s', visit members t s = some s' := by
  induction t generalizing s with
  | nil => exact ⟨s, rfl⟩
  | cons e t ih =>
    obtain ⟨s₁, hs₁⟩ := h e List.mem_cons_self s
    obtain ⟨s', hs'⟩ := ih (fun e he => h e (List.mem_cons_of_mem _ he)) s₁
    exact ⟨s', by rw [visit_cons, hs₁, Option.bind_some, hs']⟩

theorem effect_of_not_mem {name : String} {n : Node} (h : ∀ m ∈ members, m.1 ≠ name)
    (hrange : n.isWithinRange = true) (s : Settings) : effect members name n s = some s := by
  have hlookup : members.lookup name = none :=
    List.lookup_eq_none_iff.mpr fun m hm => bne_iff_ne.mpr (h m hm).symm
  rw [effect, hlookup]
  exact if_pos hrange

end Parts

/-! ## Sections among others -/

theorem Setting.members_of_sectionName {j k : Setting} (h : j.sectionName = k.sectionName) :
    j.members = k.members := by
  rcases j with (_ | _ | _ | _) | _ <;> rcases k with (_ | _ | _ | _) | _ <;>
    first
    | rfl
    | exact absurd h (by decide)

theorem exists_of_mem_setting_members {k : Setting} {m : Member} (h : m ∈ k.members) :
    ∃ j : Setting, j.sectionName = k.sectionName ∧ m = (j.name, j.set) := by
  cases k with
  | text k =>
    obtain ⟨j, hsection, rfl⟩ := exists_of_mem_members h
    exact ⟨.text j, hsection, rfl⟩
  | chunkSize => exact ⟨.chunkSize, rfl, List.mem_singleton.mp h⟩

theorem exists_setting_of_mem_sections {m : Member} (h : m ∈ sections) :
    ∃ j : Setting, m = (j.sectionName, visitSection j.members) := by
  rcases exists_of_mem_sections h with rfl | ⟨j, rfl⟩
  · exact ⟨.chunkSize, rfl⟩
  · exact ⟨.text j, rfl⟩

theorem isSection_iff {sectionName : String} :
    IsSection isSetting sectionName ↔ ∃ k : Setting, k.sectionName = sectionName := by
  simp only [IsSection, isSetting_iff]
  exact ⟨fun ⟨_, k, h, _⟩ => ⟨k, h⟩, fun ⟨k, h⟩ => ⟨k.name, k, h, rfl⟩⟩

section Values

variable {a : Assignment} {values : String → String → List Value} {isDotted : String → Prop}
  {t u : Entries} {s s' : Settings}

section Spares

variable {k : Setting} {α : Type} {get : Settings → α} {other : String}
  (hspares : ∀ j, j ≠ k → Spares get j.set)

include hspares

theorem spares_of_ne_name (hne : other ≠ k.name) : Spares get (effect k.members other) := by
  apply spares_effect
  rintro m hm rfl
  obtain ⟨j, -, rfl⟩ := exists_of_mem_setting_members hm
  apply hspares
  rintro rfl
  exact hne rfl

theorem spares_of_ne_sectionName (hne : other ≠ k.sectionName) :
    Spares get (effect sections other) := by
  apply spares_effect
  rintro m hm rfl
  obtain ⟨j, rfl⟩ := exists_setting_of_mem_sections hm
  apply spares_section
  intro m hm
  obtain ⟨i, hi, rfl⟩ := exists_of_mem_setting_members hm
  apply hspares
  rintro rfl
  exact hne hi.symm

end Spares

section One

variable {k : Setting} {α : Type} (get : Settings → α) (own : α → α)
  (hvalues : values k.sectionName k.name = (a.value? k).toList)
  (hspares : ∀ j, j ≠ k → Spares get j.set)
  (hown : ∀ v n, a.value? k = some v → v.node = some n →
    ∀ s s', k.set n s = some s' → get s' = own (get s))
  (hnone : a.value? k = none → ∀ x, own x = x)

include hvalues hspares hown hnone

/-- In the section of the setting, its value alone shows in what is read for it. -/
theorem get_visit_members (h : Merged (isSetting k.sectionName) (values k.sectionName) t u)
    (hvisit : visit k.members u s = some s') : get s' = own (get s) := by
  have hname : isSetting k.sectionName k.name = true := isSetting_iff.mpr ⟨k, rfl, rfl⟩
  refine get_visit k.name own h.nodup (fun _ => spares_of_ne_name hspares) ?_ ?_ hvisit
  · intro n hlookup s s' hset
    rw [effect_setting] at hset
    obtain ⟨v, hv, hnode⟩ := h.node_of_lookup hname hvalues hlookup
    exact hown v n hv hnode s s' hset
  · intro hlookup
    exact hnone (h.eq_none_of_lookup hname hvalues hlookup)

/-- What is read for one setting is what its value does, whatever stands around. -/
theorem get_visit_sections (h : Matched isSetting isDotted values t u)
    (hvisit : visit sections u s = some s') : get s' = own (get s) := by
  have hside := h.side k.sectionName (isSection_iff.mpr ⟨k, rfl⟩)
  refine get_visit k.sectionName own h.nodup (fun _ => spares_of_ne_sectionName hspares)
    ?_ ?_ hvisit
  · intro n hlookup s s' heffect
    rw [hlookup] at hside
    obtain ⟨origin, t', w, rfl, hmerged, -⟩ := hside.exists_merged
    rw [effect_section] at heffect
    exact get_visit_members get own hvalues hspares hown hnone hmerged heffect
  · intro hlookup
    rw [hlookup] at hside
    generalize t.lookup k.sectionName = x at hside
    cases hside with
    | absent hempty =>
      apply hnone
      rw [hempty k.name (isSetting_iff.mpr ⟨k, rfl, rfl⟩)] at hvalues
      exact Option.toList_eq_nil_iff.mp hvalues.symm

end One

/-- The values of an assignment can be read. -/
theorem exists_set {k : Setting} {v : Value} {n : Node} (hv : a.value? k = some v)
    (hnode : v.node = some n) (s : Settings) : ∃ s', k.set n s = some s' := by
  cases k with
  | text k =>
    obtain ⟨text, -, rfl⟩ := Option.map_eq_some_iff.mp hv
    cases hnode
    exact ⟨_, rfl⟩
  | chunkSize =>
    obtain ⟨size, -, rfl⟩ := Option.map_eq_some_iff.mp hv
    cases hnode
    refine ⟨{ s with chunkSize := size }, ?_⟩
    simp [Setting.set, sizeOf?, size.toNat_lt_size]

theorem exists_visit_members {k : Setting}
    (h : Merged (isSetting k.sectionName) (values k.sectionName) t u)
    (hvalues : ∀ k : Setting, values k.sectionName k.name = (a.value? k).toList)
    (hrange : Toml.entriesAreWithinRange t = true) (s : Settings) :
    ∃ s', visit k.members u s = some s' := by
  apply exists_visit
  rintro ⟨name, n⟩ hmem s
  have hlookup := Entries.lookup_of_mem h.nodup hmem
  by_cases hname : isSetting k.sectionName name = true
  · obtain ⟨j, hj, rfl⟩ := isSetting_iff.mp hname
    rw [← Setting.members_of_sectionName hj, effect_setting]
    obtain ⟨v, hv, hnode⟩ := h.node_of_lookup hname (hj ▸ hvalues j) hlookup
    exact exists_set hv hnode s
  · rw [Bool.not_eq_true] at hname
    rw [h.other name hname] at hlookup
    refine ⟨s, effect_of_not_mem ?_ (Entries.isWithinRange_of_lookup hrange hlookup) s⟩
    rintro m hm rfl
    obtain ⟨j, hj, rfl⟩ := exists_of_mem_setting_members hm
    exact Bool.false_ne_true (hname.symm.trans (isSetting_iff.mpr ⟨j, hj, rfl⟩))

theorem exists_visit_sections (h : Matched isSetting isDotted values t u)
    (hvalues : ∀ k : Setting, values k.sectionName k.name = (a.value? k).toList)
    (hrange : Toml.entriesAreWithinRange t = true) (s : Settings) :
    ∃ s', visit sections u s = some s' := by
  apply exists_visit
  rintro ⟨sectionName, n⟩ hmem s
  have hlookup := Entries.lookup_of_mem h.nodup hmem
  by_cases hsection : IsSection isSetting sectionName
  · obtain ⟨k, rfl⟩ := isSection_iff.mp hsection
    have hside := h.side k.sectionName hsection
    rw [hlookup] at hside
    obtain ⟨origin, t', w, rfl, hmerged, hinner⟩ := hside.exists_merged
    have hrange' : Toml.entriesAreWithinRange t' = true := by
      rcases hinner with rfl | ⟨before, hinner⟩
      · rfl
      · exact Entries.isWithinRange_of_lookup hrange hinner
    rw [effect_section]
    exact exists_visit_members hmerged hvalues hrange' s
  · rw [h.other sectionName hsection] at hlookup
    refine ⟨s, effect_of_not_mem ?_ (Entries.isWithinRange_of_lookup hrange hlookup) s⟩
    rintro m hm rfl
    obtain ⟨j, rfl⟩ := exists_setting_of_mem_sections hm
    exact hsection (isSection_iff.mpr ⟨j, rfl⟩)

theorem get_text {k : TextSetting} {α : Type} (get : Settings → α) (f : String → α)
    (h : Matched isSetting isDotted values t u)
    (hvalues : ∀ k : Setting, values k.sectionName k.name = (a.value? k).toList)
    (hput : ∀ z s, get (k.put z s) = f z)
    (hother : ∀ j z s, j ≠ k → get (j.put z s) = get s)
    (hsize : ∀ size s, get { s with chunkSize := size } = get s)
    (hvisit : visit sections u s = some s') : get s' = ((a.text k).map f).getD (get s) := by
  refine get_visit_sections (k := .text k) get (fun x => ((a.text k).map f).getD x)
    (hvalues _) ?_ ?_ ?_ h hvisit
  · intro j hne
    cases j with
    | text j => exact spares_map fun z s => hother j z s fun heq => hne (heq ▸ rfl)
    | chunkSize => exact spares_map hsize
  · intro v n hv hnode s s' hset
    obtain ⟨text, htext, rfl⟩ := Option.map_eq_some_iff.mp hv
    cases hnode
    cases hset
    rw [htext]
    exact hput text s
  · intro hnone x
    rw [Option.map_eq_none_iff.mp hnone]
    rfl

theorem get_chunkSize (h : Matched isSetting isDotted values t u)
    (hvalues : ∀ k : Setting, values k.sectionName k.name = (a.value? k).toList)
    (hvisit : visit sections u s = some s') : s'.chunkSize = a.chunkSize.getD s.chunkSize := by
  refine get_visit_sections (k := .chunkSize) Settings.chunkSize (fun x => a.chunkSize.getD x)
    (hvalues _) ?_ ?_ ?_ h hvisit
  · intro j hne
    cases j with
    | text j => exact spares_map fun z s => by cases j <;> rfl
    | chunkSize => exact absurd rfl hne
  · intro v n hv hnode s s' hset
    obtain ⟨size, hsize, rfl⟩ := Option.map_eq_some_iff.mp hv
    cases hnode
    rw [hsize]
    simp only [Setting.set, sizeOf?, Int.natCast_nonneg, Int.toNat_natCast, size.toNat_lt_size,
      and_self, if_pos, UInt64.ofNat_toNat, Option.map_some, Option.some_inj] at hset
    rw [← hset]
    rfl
  · intro hnone x
    rw [Option.map_eq_none_iff.mp hnone]
    rfl

/-- Tables that hold the values of an assignment are read to the settings it changes. -/
theorem visit_sections_eq (h : Matched isSetting isDotted values t u)
    (hvalues : ∀ k : Setting, values k.sectionName k.name = (a.value? k).toList)
    (hrange : Toml.entriesAreWithinRange t = true) (s : Settings) :
    visit sections u s = some (a.changes.apply s) := by
  obtain ⟨s', hs'⟩ := exists_visit_sections h hvalues hrange s
  have hinput := get_text (k := .inputPath) Settings.inputPath .ofString h hvalues
    (fun _ _ => rfl) (by rintro (_ | _ | _ | _) z s hne <;> trivial) (fun _ _ => rfl) hs'
  have houtput := get_text (k := .outputDir) Settings.outputDir .ofString h hvalues
    (fun _ _ => rfl) (by rintro (_ | _ | _ | _) z s hne <;> trivial) (fun _ _ => rfl) hs'
  have hmetadata := get_text (k := .metadataPath) Settings.metadataPath .ofString h hvalues
    (fun _ _ => rfl) (by rintro (_ | _ | _ | _) z s hne <;> trivial) (fun _ _ => rfl) hs'
  have hlocale := get_text (k := .locale) Settings.locale id h hvalues
    (fun _ _ => rfl) (by rintro (_ | _ | _ | _) z s hne <;> trivial) (fun _ _ => rfl) hs'
  have hsize := get_chunkSize h hvalues hs'
  rw [Option.map_id_fun, id_eq] at hlocale
  cases s'
  simp_all [Changes.apply, Assignment.changes]

end Values

/-! ## Values that are no size -/

/-- Whole numbers that no 64-bit word holds, fractions and strings. -/
inductive IsNoSize : Scalar → Prop
  | negative {n : Int} (h : n < 0) : IsNoSize (.integer (some n))
  | tooLarge {n : Int} (h : UInt64.size ≤ n) : IsNoSize (.integer (some n))
  | fraction (isWithinRange : Bool) : IsNoSize (.fraction isWithinRange)
  | string (text : String) : IsNoSize (.string text)

theorem sizeOf?_eq_none {a : Scalar} (h : IsNoSize a) : sizeOf? (.scalar a) = none := by
  cases h with
  | negative h => exact if_neg fun hsize => by omega
  | tooLarge h =>
    rw [UInt64.size] at h
    exact if_neg fun hsize => by rw [UInt64.size] at hsize; omega
  | fraction => rfl
  | string => rfl

theorem visit_eq_none {members : List Member} {t : Entries} {name : String} {n : Node}
    (hlookup : t.lookup name = some n) (h : ∀ s, effect members name n s = none) (s : Settings) :
    visit members t s = none := by
  induction t generalizing s with
  | nil => cases hlookup
  | cons e t ih =>
    rw [visit_cons]
    rw [Entries.lookup_cons] at hlookup
    split at hlookup
    next hname =>
      subst hname
      rw [Option.some.inj hlookup, h, Option.bind_none]
    next => exact Option.bind_eq_none_iff.mpr fun s₁ _ => ih hlookup s₁

theorem exists_lookup_of_alteredAt {step : String} {R : Node → Node → Prop} {t : Entries}
    (h : AlteredAt step R t t) : ∃ n, t.lookup step = some n ∧ R n n := by
  obtain ⟨n, m, hn, hm, hR⟩ := h.alike.lookup_self h.mem
  cases hn.symm.trans hm
  exact ⟨n, hn, hR⟩

/-- Tables in which the number of letters is no size are not read. -/
theorem visit_sections_eq_none {a : Scalar} {t : Entries}
    (h : AlteredAt "chunking" (Altered (.scalar a) (.scalar a) ["chunk_size"]) t t)
    (ha : IsNoSize a) (s : Settings) : visit sections t s = none := by
  obtain ⟨n, hn, origin, inner, _, rfl, heq, hinner⟩ := exists_lookup_of_alteredAt h
  cases heq
  obtain ⟨m, hm, rfl, -⟩ := exists_lookup_of_alteredAt hinner
  have hset : ∀ s, effect chunking "chunk_size" (.scalar a) s = none := by
    intro s
    change (sizeOf? (.scalar a)).map _ = none
    rw [sizeOf?_eq_none ha, Option.map_none]
  have hsection : ∀ s, effect sections "chunking" (.table origin inner) s = none :=
    fun s => visit_eq_none hm hset s
  exact visit_eq_none hn hsection s

end LetterPages.Settings
