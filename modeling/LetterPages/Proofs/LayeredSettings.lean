import LetterPages.Proofs.ExitCodes
import LetterPages.Proofs.PlainPaths
import LetterPages.Proofs.Toml.DistinctNames
import LetterPages.Proofs.UsableSettings

/-!
# Settings in layers

A setting is what the arguments say, or else what the settings file says, or else its standard value,
each setting for itself. A settings file that cannot be loaded is a fault whatever the arguments say,
and the check sees no value that another has taken the place of.
-/

namespace LetterPages

namespace Settings

open Toml (Node Entries)

/-! ## Where a table holds a setting -/

namespace Setting

/-- How many members of the section come before. -/
def index : Setting → Nat
  | text k => k.index
  | chunkSize => 0

/-- The node for the setting in the node of its section, by name in a table and by place in an
array. -/
def nodeIn? (k : Setting) : Node → Option Node
  | .table _ t => t.lookup k.name
  | .array items => items[k.index]?
  | _ => none

def node? (k : Setting) (t : Entries) : Option Node :=
  (t.lookup k.sectionName).bind k.nodeIn?

def read? : (k : Setting) → Node → Option k.Kind
  | text .inputPath => pathOf?
  | text .outputDir => pathOf?
  | text .metadataPath => pathOf?
  | text .locale => textOf?
  | chunkSize => sizeOf?

/-- What changes make of the setting, if anything. -/
def given? : (k : Setting) → Changes → Option k.Kind
  | text .inputPath, c => c.inputPath
  | text .outputDir, c => c.outputDir
  | text .metadataPath, c => c.metadataPath
  | text .locale, c => c.locale
  | chunkSize, c => c.chunkSize

theorem get_apply (k : Setting) (c : Changes) (s : Settings) :
    k.get (c.apply s) = (k.given? c).getD (k.get s) := by
  cases k with
  | text k => cases k <;> rfl
  | chunkSize => rfl

theorem read?_of_set {k : Setting} {n : Node} {s s' : Settings} (h : k.set n s = some s') :
    k.read? n = some (k.get s') := by
  cases k with
  | text k =>
    obtain ⟨text, htext, rfl⟩ := Option.map_eq_some_iff.mp h
    cases k <;> simp [read?, pathOf?, htext, get, TextSetting.put]
  | chunkSize =>
    obtain ⟨size, hsize, rfl⟩ := Option.map_eq_some_iff.mp h
    exact hsize

theorem spares_set {j k : Setting} (h : j ≠ k) : Spares k.get j.set := by
  rcases j with j | _
  · refine spares_map fun text s => ?_
    rcases k with (_ | _ | _ | _) | _ <;> cases j <;> first | rfl | exact absurd rfl h
  · refine spares_map fun size s => ?_
    rcases k with (_ | _ | _ | _) | _ <;> first | rfl | exact absurd rfl h

/-- The members of a section around one of them. -/
theorem members_eq (k : Setting) : ∃ before after : List Member,
    k.members = before ++ (k.name, k.set) :: after ∧ before.length = k.index ∧
      ∀ m ∈ before ++ after, Spares k.get m.2 := by
  rcases k with (_ | _ | _ | _) | _
  · exact ⟨[], [], source_eq, rfl, by simp⟩
  · refine ⟨[], [_], load_eq, rfl, ?_⟩
    exact List.forall_mem_singleton.mpr (spares_set (j := text .metadataPath) (by decide))
  · refine ⟨[_], [], load_eq, rfl, ?_⟩
    exact List.forall_mem_singleton.mpr (spares_set (j := text .outputDir) (by decide))
  · exact ⟨[], [], output_eq, rfl, by simp⟩
  · exact ⟨[], [], rfl, rfl, by simp⟩

end Setting

/-! ## Reading one setting -/

section Read

variable {k : Setting} {s s' : Settings}

theorem readAs_visitItems {α : Type} {get : Settings → α} {name : String}
    {set : Node → Settings → Option Settings} {before after : List Member} {items : List Node}
    (h : ∀ m ∈ before ++ after, Spares get m.2)
    (hvisit : visitItems (before ++ (name, set) :: after) items s = some s') :
    ReadAs get set items[before.length]? s s' := by
  -- both lists are gone through together, so the item of the member is as far into the array
  induction before generalizing items s with
  | nil =>
    cases items with
    | nil =>
      cases hvisit
      rfl
    | cons n items =>
      rw [List.nil_append, visitItems_cons] at hvisit
      obtain ⟨s₁, hs₁, hvisit⟩ := Option.bind_eq_some_iff.mp hvisit
      exact ⟨s, s₁, hs₁, rfl, get_visitItems_of_spares h hvisit⟩
  | cons m before ih =>
    cases items with
    | nil =>
      cases hvisit
      rfl
    | cons n items =>
      obtain ⟨s₁, hs₁, hvisit⟩ := Option.bind_eq_some_iff.mp hvisit
      have hfirst : get s₁ = get s := h m List.mem_cons_self n s s₁ hs₁
      have hrest := ih (fun m hm => h m (List.mem_cons_of_mem _ hm)) hvisit
      unfold ReadAs at hrest ⊢
      rwa [hfirst] at hrest

theorem readAs_section {n : Node} (hn : n.Distinct) (h : visitSection k.members n s = some s') :
    ReadAs k.get k.set (k.nodeIn? n) s s' := by
  cases n with
  | scalar a =>
    cases a with
    | moment =>
      cases h
      rfl
    | string | integer | fraction | boolean => cases h
  | tables => cases h
  | array items =>
    obtain ⟨before, after, hmembers, hlength, hspares⟩ := k.members_eq
    change visitItems k.members items s = some s' at h
    rw [hmembers] at h
    change ReadAs k.get k.set items[k.index]? s s'
    rw [← hlength]
    exact readAs_visitItems hspares h
  | table origin t =>
    have hread := readAs_visit k.name hn.entries.nodup
      (fun _ => spares_of_ne_name fun _ => Setting.spares_set) h
    rwa [effect_setting] at hread

theorem readAs_sections {t : Entries} (ht : t.Distinct) (h : visit sections t s = some s') :
    ReadAs k.get k.set (k.node? t) s s' := by
  have hread := readAs_visit k.sectionName ht.nodup
    (fun _ => spares_of_ne_sectionName fun _ => Setting.spares_set) h
  rw [effect_section] at hread
  unfold Setting.node?
  cases hlookup : t.lookup k.sectionName with
  | none =>
    rw [hlookup] at hread
    exact hread
  | some n =>
    rw [hlookup] at hread
    -- sections before and after this one leave the setting alone
    obtain ⟨s₁, s₂, hsection, hs₁, hs'⟩ := hread
    have hinner := readAs_section (ht.of_lookup hlookup) hsection
    rw [Option.bind_some]
    unfold ReadAs at hinner ⊢
    rwa [hs₁, ← hs'] at hinner

/-- A setting that a table holds a node for is read from it, and another keeps its value. -/
theorem get_visit_sections_eq {t : Entries} (ht : t.Distinct) (h : visit sections t s = some s') :
    (∀ n, k.node? t = some n → (k.read? n).isSome = true) ∧
      k.get s' = ((k.node? t).bind k.read?).getD (k.get s) := by
  have hread := readAs_sections (k := k) ht h
  cases hnode : k.node? t with
  | none =>
    rw [hnode] at hread
    exact ⟨nofun, hread⟩
  | some n =>
    rw [hnode] at hread
    obtain ⟨s₁, s₂, hset, -, hs'⟩ := hread
    have hvalue := Setting.read?_of_set hset
    rw [Option.bind_some, hvalue, hs']
    refine ⟨?_, rfl⟩
    intro m hm
    rw [← Option.some.inj hm, hvalue]
    rfl

end Read

/-! ## Settings files -/

/-- The table that a settings file holds, given what reading it gave. -/
def tableOf? (env : Environment) (content : Except Refusal Bytes) : Option Entries := do
  let bytes ← content.toOption
  let text ← Utf8.decode? bytes
  (Toml.parse (env.expand text)).toOption

/-- Why what reading a file gave is no text. -/
inductive Textless : Except Refusal Bytes → Refusal → Prop
  | refused (reason : Refusal) : Textless (.error reason) reason
  | broken {content : Bytes} (h : ∀ text, content ≠ Utf8.encode text) :
      Textless (.ok content) .notUtf8

section Files

variable {wording : Wording} {path : Path} {env : Environment} {content : Except Refusal Bytes}
  {text : List Char} {s : Settings} {f : Fault}

theorem Textless.ne_ok {reason : Refusal} (h : Textless content reason) (text : List Char) :
    content ≠ .ok (Utf8.encode text) := by
  rintro rfl
  cases h with
  | broken h => exact h text rfl

theorem Textless.ofFileIn_eq {reason : Refusal} (h : Textless content reason) :
    ofFileIn wording path env content = .error (.configurationUnreadable path reason) := by
  cases h with
  | refused => rfl
  | @broken content h =>
    have hnone : Utf8.decode? content = none := by
      rw [Option.eq_none_iff_forall_ne_some]
      intro text htext
      exact h text (Utf8.decode?_eq_some_iff.mp htext)
    rw [ofFileIn, hnone]

/-- The fault of a text that is no file, found at the path of one. -/
theorem ofFileIn_encode (text : List Char) :
    ofFileIn wording path env (.ok (Utf8.encode text)) = ofTextIn wording path env text := by
  rw [ofFileIn, Utf8.decode?_encode]
  dsimp only
  unfold ofTextIn
  cases ofToml (env.expand text) <;> rfl

theorem textless_or_text (content : Except Refusal Bytes) :
    (∃ reason, Textless content reason) ∨ ∃ text, content = .ok (Utf8.encode text) := by
  cases content with
  | error reason => exact .inl ⟨reason, .refused reason⟩
  | ok content =>
    cases htext : Utf8.decode? content with
    | some text => exact .inr ⟨text, congrArg Except.ok (Utf8.decode?_eq_some_iff.mp htext)⟩
    | none =>
      refine .inl ⟨_, .broken ?_⟩
      rintro text rfl
      cases htext.symm.trans (Utf8.decode?_encode text)

/-- Loading a settings file fails unless it holds a text that can be read. -/
theorem exists_ofFileIn_eq_error_iff : (∃ f, ofFileIn wording path env content = .error f) ↔
    ∀ text, content = .ok (Utf8.encode text) →
      ∃ f, ofTextIn wording inlinePath env text = .error f := by
  rcases textless_or_text content with ⟨reason, hreason⟩ | ⟨text, rfl⟩
  · exact iff_of_true ⟨_, hreason.ofFileIn_eq⟩ fun text htext => absurd htext (hreason.ne_ok text)
  · simp only [ofFileIn_encode, ofTextIn_eq_error_iff]
    constructor
    · rintro ⟨_, p, hp, rfl⟩ text' htext
      rw [← Utf8.encode_inj (Except.ok.inj htext)]
      exact ⟨_, p, hp, rfl⟩
    · intro h
      obtain ⟨_, p, hp, -⟩ := h text rfl
      exact ⟨_, p, hp, rfl⟩

/-- The fault of a settings file tells, after the path of the file, why it holds no text, or what the
fault of the same text tells where it is no file: the problem of that text, put into words. -/
theorem ofFileIn_fault (h : ofFileIn wording path env content = .error f) :
    ∃ told, f.message = "Cannot load configuration " ++ path.shown ++ ": " ++ told ∧
      ((∃ reason, Textless content reason ∧ f = .configurationUnreadable path reason ∧
          told = reason.text) ∨
        ∃ text p inline, content = .ok (Utf8.encode text) ∧ ofToml (env.expand text) = .error p ∧
          f = .configurationMalformed path (wording (env.expand text) p) ∧
          told = "TOML parsing error: " ++ wording (env.expand text) p ∧
          ofTextIn wording inlinePath env text = .error inline ∧
          inline.message = "Cannot load configuration " ++ "<inline>" ++ ": " ++ told) := by
  rcases textless_or_text content with ⟨reason, hreason⟩ | ⟨text, rfl⟩
  · cases hreason.ofFileIn_eq.symm.trans h
    exact ⟨reason.text, rfl, .inl ⟨reason, hreason, rfl, rfl⟩⟩
  · rw [ofFileIn_encode] at h
    obtain ⟨p, hp, rfl⟩ := ofTextIn_eq_error_iff.mp h
    have hinline : ofTextIn wording inlinePath env text =
        .error (.configurationMalformed inlinePath (wording (env.expand text) p)) :=
      ofTextIn_eq_error_iff.mpr ⟨p, hp, rfl⟩
    have hshown : inlinePath.shown = "<inline>" := Path.shown_ofString "<inline>"
    refine ⟨"TOML parsing error: " ++ wording (env.expand text) p, rfl,
      .inr ⟨text, p, _, rfl, hp, rfl, rfl, hinline, ?_⟩⟩
    rw [← hshown]
    rfl

/-- Settings that a file is read to come from the table of its text. -/
theorem exists_table_of_ofFileIn (h : ofFileIn wording path env content = .ok s) :
    ∃ t, tableOf? env content = some t ∧ visit sections t standard = some s := by
  rcases textless_or_text content with ⟨reason, hreason⟩ | ⟨text, rfl⟩
  · cases hreason.ofFileIn_eq.symm.trans h
  · rw [ofFileIn_encode, ofTextIn_eq_ok_iff, ofToml_eq_ok_iff] at h
    obtain ⟨l, t, hl, ht, hvisit⟩ := h
    refine ⟨t, ?_, hvisit⟩
    change (Utf8.decode? (Utf8.encode text)).bind
      (fun text => (Toml.parse (env.expand text)).toOption) = _
    rw [Utf8.decode?_encode, Option.bind_some, Toml.parse_eq_ok_iff.mpr ⟨l, hl, ht⟩]
    rfl

theorem distinct_tableOf {t : Entries} (h : tableOf? env content = some t) : t.Distinct := by
  obtain ⟨bytes, -, h⟩ := Option.bind_eq_some_iff.mp h
  obtain ⟨text, -, h⟩ := Option.bind_eq_some_iff.mp h
  exact Toml.distinct_parse (eq_ok_of_toOption h)

end Files

end Settings

/-! ## The settings of a run -/

namespace Program

open CommandLine (Arguments)
open Settings (Setting)
open Toml (Entries)

variable (env : Environment) (content : Path → Except Refusal Bytes) (a : Arguments)

/-- The node that the settings file, if the arguments name one, holds for a setting. -/
def fileNode? (k : Setting) : Option Toml.Node := do
  let path ← a.config
  let t ← Settings.tableOf? env (content path)
  k.node? t

variable {wording : Settings.Wording} {env content a} {s : Settings}

theorem exists_of_settingsIn_eq_ok (h : settingsIn wording env content a = .ok s) :
    ∃ read, s = a.changes.apply read ∧
      match a.config with
      | none => read = Settings.standard
      | some path => Settings.ofFileIn wording path env (content path) = .ok read := by
  unfold settingsIn at h
  cases hconfig : a.config with
  | none =>
    rw [hconfig] at h
    exact ⟨_, (Except.ok.inj h).symm, rfl⟩
  | some path =>
    rw [hconfig] at h
    obtain ⟨read, hread, hs⟩ := exists_of_bind_eq_ok h
    exact ⟨read, (Except.ok.inj hs).symm, hread⟩

/-- Each setting is what the arguments give it, or else the file, or else it has its standard
value. -/
theorem get_settingsIn (h : settingsIn wording env content a = .ok s) (k : Setting) :
    (∀ n, fileNode? env content a k = some n → (k.read? n).isSome = true) ∧
      k.get s = (k.given? a.changes <|> (fileNode? env content a k).bind k.read?).getD
        (k.get Settings.standard) := by
  obtain ⟨read, rfl, hread⟩ := exists_of_settingsIn_eq_ok h
  rw [k.get_apply, Option.orElse_eq_orElse, Option.orElse_eq_or, Option.getD_or]
  cases hconfig : a.config with
  | none =>
    have hnode : fileNode? env content a k = none := by
      rw [fileNode?, hconfig]
      rfl
    rw [hconfig] at hread
    rw [hnode, hread]
    exact ⟨nofun, rfl⟩
  | some path =>
    rw [hconfig] at hread
    obtain ⟨t, ht, hvisit⟩ := Settings.exists_table_of_ofFileIn hread
    obtain ⟨hnodes, hget⟩ :=
      Settings.get_visit_sections_eq (k := k) (Settings.distinct_tableOf ht) hvisit
    have hnode : fileNode? env content a k = k.node? t := by
      change a.config.bind (fun path => (Settings.tableOf? env (content path)).bind k.node?) = _
      rw [hconfig, Option.bind_some, ht, Option.bind_some]
    rw [hnode, hget]
    exact ⟨hnodes, rfl⟩

theorem get_settingsIn_of_given {k : Setting} {v : k.Kind}
    (h : settingsIn wording env content a = .ok s) (hv : k.given? a.changes = some v) :
    k.get s = v := by
  rw [(get_settingsIn h k).2, hv]
  rfl

theorem checkedSettingsIn_eq_ok_iff : checkedSettingsIn wording env content a = .ok s ↔
    settingsIn wording env content a = .ok s ∧ ∀ k : Setting, k.IsUsable s := by
  constructor
  · intro h
    obtain ⟨s', hs', h⟩ := exists_of_bind_eq_ok h
    obtain ⟨u, hcheck, h⟩ := exists_of_bind_eq_ok h
    cases h
    exact ⟨hs', Settings.check_eq_ok_iff_isUsable.mp hcheck⟩
  · rintro ⟨hs, husable⟩
    rw [checkedSettingsIn, hs]
    change (s.check >>= fun _ => pure s) = _
    rw [Settings.check_eq_ok_iff_isUsable.mpr husable]
    rfl

/-- Settings cannot be had exactly when the arguments name a file that holds no text or one that
cannot be read, and the fault names the file and tells the problem of its text, in any wording the
same as where that text is no file. Otherwise each setting is what the arguments give it, or else what the
file gives it, or else its standard value. The check then looks at these values alone: where the
arguments give one, nothing that a file says makes it pass or fail. -/
theorem settings_layered (wording : Settings.Wording) (env : Environment)
    (content : Path → Except Refusal Bytes) (a : Arguments) :
    ((∃ f, settingsIn wording env content a = .error f) ↔
      ∃ path, a.config = some path ∧ ∀ text, content path = .ok (Utf8.encode text) →
        ∃ f, Settings.ofTextIn wording Settings.inlinePath env text = .error f) ∧
    (∀ path f, a.config = some path → settingsIn wording env content a = .error f →
      ∃ told, f.message = "Cannot load configuration " ++ path.shown ++ ": " ++ told ∧
        ((∃ reason, Settings.Textless (content path) reason ∧
            f = .configurationUnreadable path reason ∧ told = reason.text) ∨
          ∃ text p inline, content path = .ok (Utf8.encode text) ∧
            Settings.ofToml (env.expand text) = .error p ∧
            f = .configurationMalformed path (wording (env.expand text) p) ∧
            told = "TOML parsing error: " ++ wording (env.expand text) p ∧
            Settings.ofTextIn wording Settings.inlinePath env text = .error inline ∧
            inline.message = "Cannot load configuration " ++ "<inline>" ++ ": " ++ told)) ∧
    (∀ s, settingsIn wording env content a = .ok s → ∀ k : Setting,
      (∀ n, fileNode? env content a k = some n → (k.read? n).isSome = true) ∧
      k.get s = (k.given? a.changes <|> (fileNode? env content a k).bind k.read?).getD
        (k.get Settings.standard)) ∧
    (∀ s, checkedSettingsIn wording env content a = .ok s ↔
      settingsIn wording env content a = .ok s ∧
      ∀ k : Setting, match k.given? a.changes with
        | some v => k.Accepts v
        | none => k.IsUsable s) ∧
    ∀ k v, Setting.given? k a.changes = some v → ¬ k.Accepts v →
      ∃ f, checkedSettingsIn wording env content a = .error f := by
  refine ⟨?_, ?_, ?_, ?_, ?_⟩
  · simp only [settingsIn_eq_error_iff]
    rw [exists_comm]
    simp only [exists_and_left, Settings.exists_ofFileIn_eq_error_iff]
  · intro path f hconfig hf
    obtain ⟨_, hpath, hfile⟩ := settingsIn_eq_error_iff.mp hf
    cases hconfig.symm.trans hpath
    exact Settings.ofFileIn_fault hfile
  · intro s hs k
    exact get_settingsIn hs k
  · intro s
    rw [checkedSettingsIn_eq_ok_iff]
    apply and_congr_right
    intro hs
    apply forall_congr'
    intro k
    cases hgiven : k.given? a.changes with
    | none => exact Iff.rfl
    | some v =>
      rw [Setting.IsUsable, get_settingsIn_of_given hs hgiven]
  · intro k v hgiven hv
    cases hchecked : checkedSettingsIn wording env content a with
    | error f => exact ⟨f, rfl⟩
    | ok s =>
      obtain ⟨hs, husable⟩ := checkedSettingsIn_eq_ok_iff.mp hchecked
      have hk := husable k
      rw [Setting.IsUsable, get_settingsIn_of_given hs hgiven] at hk
      exact absurd hk hv

/-- A size that could not be used does no harm in a file when the arguments give another. The locale
is that of the file, and what neither names has its standard value. No argument helps with a file
that breaks off in a header, and the fault tells on which line it does. -/
theorem settings_layered_over_unusable_size :
    let content : Path → Except Refusal Bytes := fun _ =>
      .ok (Utf8.ofString "[chunking]\nchunk_size = 0\n[output]\nlocale = \"nb\"\n")
    let broken : Path → Except Refusal Bytes := fun _ =>
      .ok (Utf8.ofString "# pages\n[chunking\nchunk_size = ")
    let changes : Settings.Changes := { Settings.Changes.none with chunkSize := some 5 }
    let a : Arguments :=
      { Arguments.none with config := some (.ofString "pages.toml"), changes := changes }
    (∃ s, checkedSettings .empty content a = .ok s ∧ s.chunkSize = 5 ∧ s.locale = "nb" ∧
      s.inputPath = Settings.standard.inputPath) ∧
    ∃ f, settings .empty broken a = .error f ∧
      f.message = "Cannot load configuration pages.toml: " ++
        "TOML parsing error: line 2 holds no statement" := by
  intro content broken changes a
  constructor
  · let s : Settings := { Settings.standard with chunkSize := 5, locale := "nb" }
    have hs : settings .empty content a = .ok s := eq_ok_of_toOption (by decide +kernel)
    have husable : ∀ k : Setting, k.IsUsable s := by
      rintro ((_ | _ | _ | _) | _) <;> decide +kernel
    obtain ⟨-, -, hget, hchecked, -⟩ :=
      settings_layered Settings.plainWording .empty content a
    refine ⟨s, (hchecked s).mpr ⟨hs, ?_⟩, ?_, ?_, ?_⟩
    · rintro ((_ | _ | _ | _) | _) <;> exact husable _
    · exact (hget s hs .chunkSize).2
    · refine (hget s hs (.text .locale)).2.trans ?_
      decide +kernel
    · refine (hget s hs (.text .inputPath)).2.trans ?_
      decide +kernel
  · let f : Fault := .configurationMalformed (.ofString "pages.toml") "line 2 holds no statement"
    have hf : settings .empty broken a = .error f := by decide +kernel
    obtain ⟨told, hmessage, ⟨_, -, hfault, -⟩ | ⟨text, p, _, -, -, hfault, htold, -⟩⟩ :=
      (settings_layered Settings.plainWording .empty broken a).2.1 (.ofString "pages.toml") f rfl hf
    · simp [f] at hfault
    · have hdetail := (Fault.configurationMalformed.inj hfault).2
      rw [htold, ← hdetail] at hmessage
      exact ⟨f, hf, hmessage.trans (by decide +kernel)⟩

end Program

end LetterPages
