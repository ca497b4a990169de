import LetterPages.Settings.Text
import LetterPages.Proofs.Toml.Members

/-!
# Settings that are text

Reading a settings text never looks at the settings it has found so far. Tables that differ at the
address of one setting alone are therefore read to the same settings but for that one.
-/

namespace LetterPages.Settings

open Toml (Node Entries Alike AlteredAt Altered Stands)

/-- The settings whose value is a string. -/
inductive TextSetting where
  | inputPath
  | outputDir
  | metadataPath
  | locale
  deriving DecidableEq, Repr

namespace TextSetting

def sectionName : TextSetting → String
  | inputPath => "source"
  | outputDir => "load"
  | metadataPath => "load"
  | locale => "output"

def name : TextSetting → String
  | inputPath => "input_path"
  | outputDir => "output_dir"
  | metadataPath => "metadata_path"
  | locale => "locale"

/-- How many members of the section come before. -/
def index : TextSetting → Nat
  | metadataPath => 1
  | _ => 0

def members : TextSetting → List Member
  | inputPath => source
  | outputDir => load
  | metadataPath => load
  | locale => output

def put (k : TextSetting) (text : String) (s : Settings) : Settings :=
  match k with
  | inputPath => { s with inputPath := .ofString text }
  | outputDir => { s with outputDir := .ofString text }
  | metadataPath => { s with metadataPath := .ofString text }
  | locale => { s with locale := text }

@[simp]
theorem put_put (k : TextSetting) (a b : String) (s : Settings) :
    k.put a (k.put b s) = k.put a s := by
  cases k <;> rfl

theorem put_comm {j k : TextSetting} (h : j ≠ k) (a b : String) (s : Settings) :
    j.put a (k.put b s) = k.put b (j.put a s) := by
  cases j <;> cases k <;> first | rfl | exact absurd rfl h

theorem exists_put_standard (k : TextSetting) : ∃ z, k.put z standard = standard := by
  cases k <;> exact ⟨_, rfl⟩

/-- What a node does to the settings as the value of the member. -/
def set (k : TextSetting) (n : Node) (s : Settings) : Option Settings :=
  (textOf? n).map fun text => k.put text s

end TextSetting

theorem map_pathOf? {α : Type} (n : Node) (f : Path → α) :
    (pathOf? n).map f = (textOf? n).map fun text => f (.ofString text) := by
  rw [pathOf?, Option.map_map]
  rfl

theorem source_eq : source = [(TextSetting.inputPath.name, TextSetting.inputPath.set)] := by
  simp only [source, map_pathOf?]
  rfl

theorem load_eq : load = [(TextSetting.outputDir.name, TextSetting.outputDir.set),
    (TextSetting.metadataPath.name, TextSetting.metadataPath.set)] := by
  simp only [load, map_pathOf?]
  rfl

theorem output_eq : output = [(TextSetting.locale.name, TextSetting.locale.set)] :=
  rfl

variable {k : TextSetting} {members : List Member} {x y : List Char}

/-! ## What leaves a setting alone -/

/-- Reading that neither depends on the setting nor changes it. -/
def Overlooks (k : TextSetting) (set : Node → Settings → Option Settings) : Prop :=
  ∀ n z s, set n (k.put z s) = (set n s).map (k.put z)

theorem overlooks_set {j : TextSetting} (h : j ≠ k) : Overlooks k j.set := by
  intro n z s
  cases htext : textOf? n with
  | none => simp [TextSetting.set, htext]
  | some text => simp [TextSetting.set, htext, TextSetting.put_comm h]

theorem overlooks_chunkSize : Overlooks k fun n s =>
    (sizeOf? n).map fun size => { s with chunkSize := size } := by
  intro n z s
  cases hsize : sizeOf? n with
  | none => simp [hsize]
  | some size =>
    simp only [hsize, Option.map_some]
    cases k <;> rfl

/-- What the node of a name does to the settings, with nothing done for a name that is not needed. -/
def effect (members : List Member) (name : String) (n : Node) (s : Settings) : Option Settings :=
  match members.lookup name with
  | some set => set n s
  | none => if n.isWithinRange then some s else none

theorem visit_cons (members : List Member) (e : String × Node) (t : Entries) (s : Settings) :
    visit members (e :: t) s = (effect members e.1 e.2 s).bind (visit members t) :=
  rfl

theorem overlooks_effect {name : String}
    (h : ∀ m ∈ members, m.1 = name → Overlooks k m.2) : Overlooks k (effect members name) := by
  intro n z s
  rw [effect, effect]
  cases hlookup : members.lookup name with
  | none =>
    simp only
    split <;> rfl
  | some set =>
    obtain ⟨before, after, rfl, -⟩ := List.lookup_eq_some_iff.mp hlookup
    exact h (name, set) (by simp) rfl n z s

theorem visit_overlooks {t : Entries}
    (h : ∀ name ∈ t.map Prod.fst, Overlooks k (effect members name)) (z : String) (s : Settings) :
    visit members t (k.put z s) = (visit members t s).map (k.put z) := by
  induction t generalizing s with
  | nil => rfl
  | cons e t ih =>
    rw [visit_cons, visit_cons, h e.1 (by simp) e.2 z s]
    cases effect members e.1 e.2 s with
    | none => rfl
    | some s => exact ih (fun name hname => h name (List.mem_cons_of_mem _ hname)) s

theorem visitItems_cons (name : String) (set : Node → Settings → Option Settings)
    (members : List Member) (n : Node) (items : List Node) (s : Settings) :
    visitItems ((name, set) :: members) (n :: items) s =
      (set n s).bind (visitItems members items) :=
  rfl

theorem visitItems_overlooks (h : ∀ m ∈ members, Overlooks k m.2) (items : List Node) (z : String)
    (s : Settings) :
    visitItems members items (k.put z s) = (visitItems members items s).map (k.put z) := by
  induction members generalizing items s with
  | nil => rfl
  | cons m members ih =>
    cases items with
    | nil => rfl
    | cons n items =>
      obtain ⟨name, set⟩ := m
      have hset : set n (k.put z s) = (set n s).map (k.put z) := h (name, set) List.mem_cons_self n z s
      rw [visitItems_cons, visitItems_cons, hset]
      cases set n s with
      | none => rfl
      | some s => exact ih (fun m hm => h m (List.mem_cons_of_mem _ hm)) items s

theorem visitSection_overlooks (h : ∀ m ∈ members, Overlooks k m.2) :
    Overlooks k (visitSection members) := by
  intro n z s
  cases n with
  | scalar a => cases a <;> rfl
  | array items => exact visitItems_overlooks h items z s
  | tables => rfl
  | table origin t => exact visit_overlooks (fun name _ => overlooks_effect fun m hm _ => h m hm) z s

/-! ## The section of a setting -/

theorem exists_of_mem_members {m : Member} (h : m ∈ k.members) :
    ∃ j : TextSetting, j.sectionName = k.sectionName ∧ m = (j.name, j.set) := by
  cases k with
  | inputPath =>
    rw [TextSetting.members, source_eq, List.mem_singleton] at h
    exact ⟨.inputPath, rfl, h⟩
  | locale =>
    rw [TextSetting.members, output_eq, List.mem_singleton] at h
    exact ⟨.locale, rfl, h⟩
  | outputDir | metadataPath =>
    simp only [TextSetting.members, load_eq, List.mem_cons, List.not_mem_nil, or_false] at h
    rcases h with rfl | rfl
    · exact ⟨.outputDir, rfl, rfl⟩
    · exact ⟨.metadataPath, rfl, rfl⟩

theorem exists_of_mem_sections {m : Member} (h : m ∈ sections) :
    m = ("chunking", visitSection chunking) ∨
      ∃ j : TextSetting, m = (j.sectionName, visitSection j.members) := by
  simp only [sections, List.mem_cons, List.not_mem_nil, or_false] at h
  rcases h with rfl | rfl | rfl | rfl
  · exact .inr ⟨.inputPath, rfl⟩
  · exact .inl rfl
  · exact .inr ⟨.outputDir, rfl⟩
  · exact .inr ⟨.locale, rfl⟩

theorem overlooks_other_member {name : String} (h : name ≠ k.name) :
    Overlooks k (effect k.members name) := by
  apply overlooks_effect
  rintro m hm rfl
  obtain ⟨j, -, rfl⟩ := exists_of_mem_members hm
  apply overlooks_set
  rintro rfl
  exact h rfl

theorem overlooks_other_section {name : String} (h : name ≠ k.sectionName) :
    Overlooks k (effect sections name) := by
  apply overlooks_effect
  rintro m hm rfl
  rcases exists_of_mem_sections hm with rfl | ⟨j, rfl⟩
  · apply visitSection_overlooks
    intro m hm
    rw [chunking, List.mem_singleton] at hm
    rw [hm]
    exact overlooks_chunkSize
  · apply visitSection_overlooks
    intro m hm
    obtain ⟨i, hi, rfl⟩ := exists_of_mem_members hm
    apply overlooks_set
    rintro rfl
    exact h hi.symm

theorem effect_name (k : TextSetting) : effect k.members k.name = k.set := by
  cases k with
  | inputPath => rw [TextSetting.members, source_eq]; rfl
  | outputDir => rw [TextSetting.members, load_eq]; rfl
  | metadataPath => rw [TextSetting.members, load_eq]; rfl
  | locale => rw [TextSetting.members, output_eq]; rfl

theorem effect_sectionName (k : TextSetting) :
    effect sections k.sectionName = visitSection k.members := by
  cases k <;> rfl

/-- The members of a section around one of them. -/
theorem members_eq (k : TextSetting) : ∃ before after : List Member,
    k.members = before ++ (k.name, k.set) :: after ∧ before.length = k.index ∧
      ∀ m ∈ before ++ after, Overlooks k m.2 := by
  cases k with
  | inputPath => exact ⟨[], [], source_eq, rfl, by simp⟩
  | outputDir =>
    refine ⟨[], [_], load_eq, rfl, ?_⟩
    simp [overlooks_set]
  | metadataPath =>
    refine ⟨[_], [], load_eq, rfl, ?_⟩
    simp [overlooks_set]
  | locale => exact ⟨[], [], output_eq, rfl, by simp⟩

/-! ## Another text for the setting -/

/-- Settings read from tables that differ in the node of one name, from states that differ in the
setting. -/
theorem visit_alike {step : String} {R : Node → Node → Prop} {t u : Entries} {z w : String}
    {s r : Settings} (h : Alike step R t u) (hmem : step ∈ t.map Prod.fst)
    (hother : ∀ name, name ≠ step → Overlooks k (effect members name))
    (hstep : ∀ {n m s r z}, R n m → effect members step n s = some r →
      effect members step m (k.put z s) = some (k.put w r))
    (hr : visit members t s = some r) : visit members u (k.put z s) = some (k.put w r) := by
  induction h generalizing s z with
  | nil => cases hmem
  | @same other n t u hne h ih =>
    rw [visit_cons] at hr ⊢
    obtain ⟨s₁, hs₁, hr⟩ := Option.bind_eq_some_iff.mp hr
    have hmem : step ∈ t.map Prod.fst := (List.mem_cons.mp hmem).resolve_left (Ne.symm hne)
    have heffect : effect members other n (k.put z s) = some (k.put z s₁) := by
      rw [hother other hne n z s, hs₁]
      rfl
    rw [heffect]
    exact ih hmem hr
  | @related n m t u hnode h ih =>
    rw [visit_cons] at hr ⊢
    obtain ⟨s₁, hs₁, hr⟩ := Option.bind_eq_some_iff.mp hr
    rw [hstep hnode hs₁]
    by_cases hmem : step ∈ t.map Prod.fst
    · exact ih hmem hr
    · rw [← h.eq_of_not_mem hmem]
      have hnames : ∀ name ∈ t.map Prod.fst, Overlooks k (effect members name) := by
        rintro name hname
        apply hother
        rintro rfl
        exact hmem hname
      rw [Option.bind_some, visit_overlooks hnames, hr]
      rfl

theorem visitItems_append {before after : List Member} {first last : List Node}
    (h : first.length = before.length) (s : Settings) :
    visitItems (before ++ after) (first ++ last) s =
      (visitItems before first s).bind (visitItems after last) := by
  rw [visitItems, List.zip_append h.symm, List.foldlM_append]
  rfl

theorem set_ofText (k : TextSetting) (text : List Char) (s : Settings) :
    k.set (.ofText text) s = some (k.put (String.ofList text) s) :=
  rfl

theorem visitSection_stands {n m : Node} {path : List String} {node node' : Node} {z : String}
    {s r : Settings} (h : Stands k.name k.index x y n m path) (hnode : Altered n m path node node')
    (hr : visitSection k.members node s = some r) :
    visitSection k.members node' (k.put z s) = some (k.put (String.ofList y) r) := by
  cases h with
  | member =>
    obtain ⟨origin, t, u, rfl, rfl, hmem, halike⟩ := hnode
    refine visit_alike halike hmem (fun name => overlooks_other_member) ?_ hr
    rintro n m s r z ⟨rfl, rfl⟩ hn
    rw [effect_name, set_ofText] at hn ⊢
    cases hn
    rw [TextSetting.put_put, TextSetting.put_put]
  | item first last hindex =>
    obtain ⟨rfl, rfl⟩ := hnode
    obtain ⟨before, after, hmembers, hlength, hothers⟩ := members_eq k
    have hbefore : ∀ m ∈ before, Overlooks k m.2 := fun m hm => hothers m (by simp [hm])
    have hafter : ∀ m ∈ after, Overlooks k m.2 := fun m hm => hothers m (by simp [hm])
    have hsplit := hindex.trans hlength.symm
    rw [visitSection, hmembers, visitItems_append hsplit] at hr ⊢
    obtain ⟨s₁, hs₁, hr⟩ := Option.bind_eq_some_iff.mp hr
    rw [visitItems_cons, set_ofText, Option.bind_some] at hr
    rw [visitItems_overlooks hbefore, hs₁, Option.map_some, Option.bind_some, visitItems_cons,
      set_ofText, Option.bind_some, TextSetting.put_put, ← TextSetting.put_put k _ (String.ofList x),
      visitItems_overlooks hafter, hr]
    rfl

theorem visit_sections {n m : Node} {path : List String} {t u : Entries} {z : String}
    {s r : Settings} (h : Stands k.name k.index x y n m path)
    (haltered : AlteredAt k.sectionName (Altered n m path) t u)
    (hr : visit sections t s = some r) :
    visit sections u (k.put z s) = some (k.put (String.ofList y) r) := by
  refine visit_alike haltered.alike haltered.mem (fun name => overlooks_other_section) ?_ hr
  intro node node' s r z hnode hr
  rw [effect_sectionName] at hr ⊢
  exact visitSection_stands h hnode hr

/-! ## Whole texts -/

theorem ofToml_eq_ok_iff {text : List Char} {s : Settings} :
    ofToml text = .ok s ↔ ∃ l t, Toml.statements (Toml.withoutMark text) = .ok l ∧
      (Toml.Outline.ofStatements l).root = some t ∧ visit sections t standard = some s := by
  constructor
  · intro h
    obtain ⟨t, ht, hs⟩ := exists_of_bind_eq_ok h
    obtain ⟨l, hl, hroot⟩ := Toml.parse_eq_ok_iff.mp ht
    split at hs
    next hvisit =>
      cases hs
      exact ⟨l, t, hl, hroot, hvisit⟩
    next => cases hs
  · rintro ⟨l, t, hl, ht, hs⟩
    simp only [ofToml, Toml.parse_eq_ok_iff.mpr ⟨l, hl, ht⟩, bind, Except.bind, hs]

section

variable {wording : Wording} {path : Path} {env : Environment} {text : List Char} {s : Settings}

theorem ofTextIn_eq_ok_iff :
    ofTextIn wording path env text = .ok s ↔ ofToml (env.expand text) = .ok s := by
  unfold ofTextIn
  cases ofToml (env.expand text) <;> simp [Except.mapError]

theorem ofTextIn_eq_error_iff {f : Fault} : ofTextIn wording path env text = .error f ↔
    ∃ p, ofToml (env.expand text) = .error p ∧
      f = .configurationMalformed path (wording (env.expand text) p) := by
  unfold ofTextIn
  cases ofToml (env.expand text) with
  | error p => simpa [Except.mapError] using eq_comm
  | ok s => simp [Except.mapError]

theorem ofText_eq_ok_iff : ofText path env text = .ok s ↔ ofToml (env.expand text) = .ok s :=
  ofTextIn_eq_ok_iff

end

end LetterPages.Settings
