import LetterPages.Proofs.AssignedSettings
import LetterPages.Proofs.ChunkPlaces
import LetterPages.Proofs.DecodedText
import LetterPages.Proofs.Observation

/-!
# Usable settings

The check accepts just the settings that can be used, and otherwise names the first that cannot. It
looks at the text shown for a path, which is empty or holds a NUL just when the bytes are empty or
hold one. No call of a run with checked settings then has an empty path or one with a NUL.
-/

namespace LetterPages

/-! ## Text shown for bytes -/

namespace Utf8

theorem le_of_not_lt {a : UInt8} (h : ¬ a < 0x80) : 0x80 ≤ a.toNat :=
  UInt8.le_iff_toNat_le.mp (UInt8.not_lt.mp h)

theorem le_of_isSecond {a b : UInt8} (h : ¬ (!isSecond a b) = true) : 0x80 ≤ b.toNat :=
  ((isSecond_iff a b).mp (by simpa using h)).1.1

theorem le_of_isTail {b : UInt8} (h : ¬ (!isTail b) = true) : 0x80 ≤ b.toNat :=
  ((isTail_iff b).mp (by simpa using h)).1

/-- What cannot be decoded holds no byte that stands for a character of its own. -/
theorem le_of_mem_broken {b part : Bytes} (h : .broken part ∈ pieces b) :
    ∀ x ∈ part, 0x80 ≤ x.toNat := by
  fun_induction pieces b with
  | case1 => cases h
  -- a scalar value comes first
  | case2 _ _ _ ih | case6 _ _ _ _ _ _ _ ih | case9 _ _ _ _ _ _ _ _ _ _ ih
  | case12 _ _ _ _ _ _ _ _ _ _ _ _ ih =>
    exact ih (by simpa using h)
  -- a part of one, two or three bytes that nothing completes
  | case3 a r ha hout ih | case5 a ha hout b r hb ih =>
    rcases List.mem_cons.mp h with heq | h
    · cases heq
      simp [le_of_not_lt ha]
    · exact ih h
  | case4 a ha hout =>
    cases List.mem_singleton.mp h
    simp [le_of_not_lt ha]
  | case7 a ha hout b hb =>
    cases List.mem_singleton.mp h
    simp [le_of_not_lt ha, le_of_isSecond hb]
  | case8 a ha hout b hb hthree c r hc ih =>
    rcases List.mem_cons.mp h with heq | h
    · cases heq
      simp [le_of_not_lt ha, le_of_isSecond hb]
    · exact ih h
  | case10 a ha hout b hb hthree c hc =>
    cases List.mem_singleton.mp h
    simp [le_of_not_lt ha, le_of_isSecond hb, le_of_isTail hc]
  | case11 a ha hout b hb hthree c hc hfour d r hd ih =>
    rcases List.mem_cons.mp h with heq | h
    · cases heq
      simp [le_of_not_lt ha, le_of_isSecond hb, le_of_isTail hc]
    · exact ih h

theorem lossy_eq_empty_iff {b : Bytes} : lossy b = "" ↔ b = [] := by
  constructor
  · intro h
    have hpieces : pieces b = [] := by
      have hchars := congrArg String.toList h
      rw [lossy, String.toList_ofList] at hchars
      exact List.map_eq_nil_iff.mp hchars
    rw [← flatMap_bytes_pieces b, hpieces, List.flatMap_nil]
  · rintro rfl
    rfl

theorem nul_mem_bytes_iff {b : Bytes} {p : Piece} (h : p ∈ pieces b) :
    0 ∈ p.bytes ↔ p.shown = '\x00' := by
  cases p with
  | scalar c =>
    constructor
    · intro hc
      exact eq_of_mem_encodeChar hc (by decide) rfl
    · rintro rfl
      decide
  | broken part =>
    have hshown : '\uFFFD' ≠ '\x00' := by decide
    refine iff_of_false (fun hzero => ?_) hshown
    exact absurd (le_of_mem_broken h 0 hzero) (by decide)

theorem nul_mem_lossy_iff {b : Bytes} : '\x00' ∈ (lossy b).toList ↔ 0 ∈ b := by
  have hbytes : 0 ∈ b ↔ ∃ p ∈ pieces b, 0 ∈ p.bytes := by
    rw [← List.mem_flatMap, flatMap_bytes_pieces]
  rw [hbytes, lossy, String.toList_ofList, List.mem_map]
  exact exists_congr fun p => and_congr_right fun hp => (nul_mem_bytes_iff hp).symm

end Utf8

namespace Path

/-- A path that can be given to an operating system. -/
structure IsUsable (p : Path) : Prop where
  ne_nil : p.bytes ≠ []
  nul_not_mem : 0 ∉ p.bytes

theorem isUsable_iff {p : Path} : p.IsUsable ↔ p.bytes ≠ [] ∧ 0 ∉ p.bytes :=
  ⟨fun h => ⟨h.1, h.2⟩, fun h => ⟨h.1, h.2⟩⟩

instance (p : Path) : Decidable p.IsUsable :=
  decidable_of_iff _ isUsable_iff.symm

theorem isUsable_iff_shown {p : Path} :
    p.IsUsable ↔ p.shown ≠ "" ∧ '\x00' ∉ p.shown.toList := by
  rw [shown, ne_eq, Utf8.lossy_eq_empty_iff, Utf8.nul_mem_lossy_iff, isUsable_iff]

end Path

/-! ## Checks of single settings -/

namespace Check

variable {field : String} {f : Fault}

theorem path_eq_ok_iff {p : Path} : Check.path field p = .ok () ↔ p.IsUsable := by
  rw [Path.isUsable_iff_shown, Check.path]
  split
  next hempty => exact iff_of_false nofun fun h => h.1 hempty
  split
  next hnul => exact iff_of_false nofun fun h => h.2 hnul
  next hempty hnul => exact iff_of_true rfl ⟨hempty, hnul⟩

theorem nul_not_mem_visibleNul (s : String) : '\x00' ∉ (visibleNul s).toList := by
  rw [visibleNul, String.toList_ofList, List.mem_flatMap]
  rintro ⟨c, -, hc⟩
  split at hc
  · exact absurd hc (by decide)
  next hne => exact hne (List.mem_singleton.mp hc).symm

theorem nul_not_mem_message {value reason : String} (hfield : '\x00' ∉ field.toList)
    (hvalue : '\x00' ∉ value.toList) (hreason : '\x00' ∉ reason.toList) :
    '\x00' ∉ (Fault.invalidValue field value reason).message.toList := by
  have hopening : '\x00' ∉ "Invalid value for ".toList := by decide
  have hbetween : '\x00' ∉ " (".toList := by decide
  have hclosing : '\x00' ∉ "): ".toList := by decide
  change '\x00' ∉ ("Invalid value for " ++ field ++ " (" ++ value ++ "): " ++ reason).toList
  rw [String.toList_append, String.toList_append, String.toList_append, String.toList_append,
    String.toList_append]
  simp only [List.mem_append, not_or]
  exact ⟨⟨⟨⟨⟨hopening, hfield⟩, hbetween⟩, hvalue⟩, hclosing⟩, hreason⟩

/-- The fault of a path tells the field, and shows no NUL. -/
theorem path_eq_error {p : Path} (hfield : '\x00' ∉ field.toList) (h : Check.path field p = .error f) :
    ∃ value reason, f = .invalidValue field value reason ∧ '\x00' ∉ f.message.toList := by
  unfold Check.path at h
  split at h
  next hempty =>
    cases h
    refine ⟨_, _, rfl, nul_not_mem_message hfield ?_ (by decide +kernel)⟩
    rw [hempty]
    decide
  split at h
  next =>
    cases h
    exact ⟨_, _, rfl,
      nul_not_mem_message hfield (nul_not_mem_visibleNul _) (by decide +kernel)⟩
  next => cases h

theorem atLeast_eq_ok_iff {value min : Nat} : atLeast field value min = .ok () ↔ min ≤ value := by
  unfold atLeast
  split
  next h => exact iff_of_false nofun (Nat.not_le.mpr h)
  next h => exact iff_of_true rfl (Nat.not_lt.mp h)

theorem atLeast_eq_error {value min : Nat} (h : atLeast field value min = .error f) :
    ∃ value reason, f = .invalidValue field value reason := by
  unfold atLeast at h
  split at h <;> cases h
  exact ⟨_, _, rfl⟩

theorem oneOf_eq_ok_iff {value : String} {allowed : List String} :
    oneOf field value allowed = .ok () ↔ value ∈ allowed := by
  unfold oneOf
  split
  next h => exact iff_of_true rfl h
  next h => exact iff_of_false nofun h

theorem oneOf_eq_error {value : String} {allowed : List String}
    (h : oneOf field value allowed = .error f) :
    ∃ value reason, f = .invalidValue field value reason := by
  unfold oneOf at h
  split at h <;> cases h
  exact ⟨_, _, rfl⟩

end Check

/-! ## The first setting that cannot be used -/

namespace Settings

namespace Setting

/-- The settings in the order in which they are checked. -/
def checked : List Setting :=
  [text .inputPath, text .outputDir, text .metadataPath, chunkSize, text .locale]

def isPath : Setting → Bool
  | text .locale => false
  | text _ => true
  | chunkSize => false

/-- What a setting holds. -/
abbrev Kind : Setting → Type
  | text .inputPath => Path
  | text .outputDir => Path
  | text .metadataPath => Path
  | text .locale => String
  | chunkSize => UInt64

def get : (k : Setting) → Settings → k.Kind
  | text .inputPath, s => s.inputPath
  | text .outputDir, s => s.outputDir
  | text .metadataPath, s => s.metadataPath
  | text .locale, s => s.locale
  | chunkSize, s => s.chunkSize

/-- The values that a setting can be used with. -/
def Accepts : (k : Setting) → k.Kind → Prop
  | text .inputPath, p => p.IsUsable
  | text .outputDir, p => p.IsUsable
  | text .metadataPath, p => p.IsUsable
  | text .locale, locale => locale = "en" ∨ locale = "nb"
  | chunkSize, size => 1 ≤ size.toNat

instance : (k : Setting) → DecidablePred k.Accepts
  | text .inputPath, p => inferInstanceAs (Decidable p.IsUsable)
  | text .outputDir, p => inferInstanceAs (Decidable p.IsUsable)
  | text .metadataPath, p => inferInstanceAs (Decidable p.IsUsable)
  | text .locale, locale => inferInstanceAs (Decidable (locale = "en" ∨ locale = "nb"))
  | chunkSize, size => inferInstanceAs (Decidable (1 ≤ size.toNat))

def IsUsable (s : Settings) (k : Setting) : Prop :=
  k.Accepts (k.get s)

instance (s : Settings) : DecidablePred (IsUsable s) := fun k =>
  inferInstanceAs (Decidable (k.Accepts (k.get s)))

def check (s : Settings) : Setting → Except Fault Unit
  | text .inputPath => Check.path "input_path" s.inputPath
  | text .outputDir => Check.path "output_dir" s.outputDir
  | text .metadataPath => Check.path "metadata_path" s.metadataPath
  | text .locale => Check.oneOf "locale" s.locale locales
  | chunkSize => Check.atLeast "chunk_size" s.chunkSize.toNat 1

variable {s : Settings} {f : Fault}

theorem check_eq_ok_iff (k : Setting) : k.check s = .ok () ↔ k.IsUsable s := by
  have hlocales : s.locale ∈ locales ↔ s.locale = "en" ∨ s.locale = "nb" := by
    change s.locale ∈ ["en", "nb"] ↔ _
    simp
  cases k with
  | text k =>
    cases k with
    | inputPath | outputDir | metadataPath => exact Check.path_eq_ok_iff
    | locale => exact Check.oneOf_eq_ok_iff.trans hlocales
  | chunkSize => exact Check.atLeast_eq_ok_iff

theorem check_eq_error {k : Setting} (h : k.check s = .error f) :
    (∃ value reason, f = .invalidValue k.name value reason) ∧
      (k.isPath = true → '\x00' ∉ f.message.toList) := by
  have hpath : ∀ {p : Path}, '\x00' ∉ k.name.toList → Check.path k.name p = .error f →
      (∃ value reason, f = .invalidValue k.name value reason) ∧
        (k.isPath = true → '\x00' ∉ f.message.toList) := by
    intro p hname h
    obtain ⟨value, reason, hfault, hmessage⟩ := Check.path_eq_error hname h
    exact ⟨⟨value, reason, hfault⟩, fun _ => hmessage⟩
  cases k with
  | text k =>
    cases k with
    | inputPath | outputDir | metadataPath => exact hpath (by decide) h
    | locale => exact ⟨Check.oneOf_eq_error h, nofun⟩
  | chunkSize => exact ⟨Check.atLeast_eq_error h, nofun⟩

/-- Checks made in order end at the first setting that cannot be used. -/
theorem forM_check (l : List Setting) : l.forM (check s) =
    match l.find? fun k => ¬ k.IsUsable s with
    | none => .ok ()
    | some k => k.check s := by
  induction l with
  | nil => rfl
  | cons k l ih =>
    change (k.check s >>= fun _ => l.forM (check s)) = _
    rw [List.find?_cons]
    by_cases hk : k.IsUsable s
    · rw [k.check_eq_ok_iff.mpr hk]
      rw [decide_eq_false (not_not_intro hk)]
      exact ih
    · cases hcheck : k.check s with
      | ok u => exact absurd (k.check_eq_ok_iff.mp hcheck) hk
      | error f =>
        rw [decide_eq_true hk]
        exact hcheck.symm

/-- The first setting, in the order of the checks, that cannot be used. -/
def firstUnusable? (s : Settings) : Option Setting :=
  checked.find? fun k => ¬ k.IsUsable s

theorem not_isUsable_of_first {k : Setting} (h : firstUnusable? s = some k) : ¬ k.IsUsable s := by
  simpa using List.find?_some h

theorem mem_checked (k : Setting) : k ∈ checked := by
  cases k with
  | text k => cases k <;> decide
  | chunkSize => decide

theorem forall_iff {P : Setting → Prop} : (∀ k, P k) ↔ P (text .inputPath) ∧ P (text .outputDir) ∧
    P (text .metadataPath) ∧ P chunkSize ∧ P (text .locale) := by
  constructor
  · intro h
    exact ⟨h _, h _, h _, h _, h _⟩
  · rintro ⟨hinput, houtput, hmetadata, hsize, hlocale⟩ ((_ | _ | _ | _) | _) <;> assumption

theorem firstUnusable?_eq_none_iff : firstUnusable? s = none ↔ ∀ k : Setting, k.IsUsable s := by
  rw [firstUnusable?, List.find?_eq_none]
  constructor
  · intro h k
    simpa using h k k.mem_checked
  · intro h k _
    simpa using h k

end Setting

theorem check_eq_first (s : Settings) : s.check =
    match Setting.firstUnusable? s with
    | none => .ok ()
    | some k => k.check s := by
  have hlast : ∀ x : Except Fault Unit, (x >>= fun _ => pure ()) = x := by
    intro x
    cases x <;> rfl
  have hchecks : s.check = Setting.checked.forM (Setting.check s) := by
    change _ = (Check.path _ _ >>= fun _ => Check.path _ _ >>= fun _ => Check.path _ _ >>= fun _ =>
      Check.atLeast _ _ _ >>= fun _ => Check.oneOf _ _ _ >>= fun _ => pure ())
    rw [hlast]
    rfl
  exact hchecks.trans (Setting.forM_check _)

theorem check_eq_ok_iff_isUsable {s : Settings} :
    s.check = .ok () ↔ ∀ k : Setting, k.IsUsable s := by
  rw [check_eq_first, ← Setting.firstUnusable?_eq_none_iff]
  cases hfirst : Setting.firstUnusable? s with
  | none => exact iff_of_true rfl rfl
  | some k =>
    refine iff_of_false (fun h => ?_) (Option.some_ne_none k)
    exact Setting.not_isUsable_of_first hfirst (k.check_eq_ok_iff.mp h)

theorem check_eq_error_of_first {s : Settings} {k : Setting}
    (h : Setting.firstUnusable? s = some k) :
    ∃ value reason, s.check = .error (.invalidValue k.name value reason) ∧
      (k.isPath = true → '\x00' ∉ (Fault.invalidValue k.name value reason).message.toList) := by
  rw [check_eq_first, h]
  dsimp only
  cases hcheck : k.check s with
  | ok u => exact absurd (k.check_eq_ok_iff.mp hcheck) (Setting.not_isUsable_of_first h)
  | error f =>
    obtain ⟨⟨value, reason, rfl⟩, hmessage⟩ := Setting.check_eq_error hcheck
    exact ⟨value, reason, rfl, hmessage⟩

end Settings

/-! ## Paths made from usable paths -/

namespace Path

theorem mem_unsegment_iff {x : UInt8} (hx : x ≠ slash) {l : List Bytes} :
    x ∈ unsegment l ↔ ∃ s ∈ l, x ∈ s := by
  fun_induction unsegment l with
  | case1 => simp
  | case2 s => simp
  | case3 s rest hrest ih => simp [ih, hx]

/-- A parent holds no byte of its own, but for the slashes between its segments. -/
theorem mem_of_mem_parent? {p dir : Path} {x : UInt8} (h : p.parent? = some dir) (hx : x ≠ slash)
    (hmem : x ∈ dir.bytes) : x ∈ p.bytes := by
  rw [← splitFront_append p.bytes, List.mem_append]
  unfold parent? at h
  dsimp only at h
  split at h
  next s before htrimmed =>
    cases h
    rcases List.mem_append.mp hmem with hfront | hbody
    · exact .inl hfront
    · obtain ⟨t, ht, hxt⟩ := (mem_unsegment_iff hx).mp hbody
      have hbefore : t ∈ before := (List.dropWhile_sublist _).subset (List.mem_reverse.mp ht)
      have hsegment : t ∈ segments (splitFront p.bytes).2 := by
        rw [← List.mem_reverse]
        apply (List.dropWhile_sublist fun s => !isNamed s).subset
        change t ∈ trimmed _
        rw [htrimmed]
        exact List.mem_cons_of_mem _ hbefore
      rw [← unsegment_segments (splitFront p.bytes).2]
      exact .inr ((mem_unsegment_iff hx).mpr ⟨t, hsegment, hxt⟩)
  next =>
    split at h
    · cases h
      cases hmem
    · cases h

theorem IsUsable.pagePath {dir : Path} (h : dir.IsUsable) (index : Nat) :
    (pagePath dir index).IsUsable := by
  have hbytes : (LetterPages.pagePath dir index).bytes =
      dir.front ++ Utf8.ofString (Chunk.nameOf index) := bytes_join (isAbsolute_nameOf index)
  have hfront : 0 ∉ dir.front := by
    rw [front]
    split
    · exact h.nul_not_mem
    · simpa [slash] using h.nul_not_mem
  obtain ⟨rest, hrest⟩ := Chunk.ofString_nameOf index
  constructor
  · rw [hbytes, hrest]
    exact List.append_ne_nil_of_right_ne_nil _ (List.cons_ne_nil _ _)
  · rw [hbytes]
    exact List.not_mem_append hfront (Chunk.nul_not_mem_nameOf index)

end Path

/-! ## Paths given to a storage -/

namespace Publication

variable {s : Settings} {c : Call}

theorem isUsable_of_mem_parentCalls {path : Path} (h : path.IsUsable)
    (hc : c ∈ parentCalls path) : c.path.IsUsable := by
  unfold parentCalls at hc
  split at hc
  next => cases hc
  next dir hdir =>
    split at hc
    next => cases hc
    next hne =>
      cases List.mem_singleton.mp hc
      exact ⟨hne, fun hnul => h.nul_not_mem (Path.mem_of_mem_parent? hdir (by decide) hnul)⟩

theorem isUsable_of_mem_plannedCalls {plan : Plan} (hdir : s.outputDir.IsUsable)
    (hmetadata : s.metadataPath.IsUsable) (hc : c ∈ plannedCalls s plan) : c.path.IsUsable := by
  rw [plannedCalls, List.mem_cons, List.mem_append, List.mem_append, List.mem_singleton] at hc
  rcases hc with rfl | hc | hc | rfl
  · exact hdir
  · obtain ⟨chunk, -, rfl⟩ := List.mem_map.mp hc
    exact hdir.pagePath chunk.index
  · exact isUsable_of_mem_parentCalls hmetadata hc
  · exact hmetadata

variable {σ : Type} (storage : Storage σ) (isMonitored : Bool) (st : σ)

theorem calls_plan : ((plan storage.base s isMonitored).run storage st).calls = [.read s.inputPath] :=
  congrArg Observed.calls (observe_plan storage s isMonitored st)

/-- A run reads its input, and makes no calls besides but those that publish its plan. -/
theorem mem_calls_run (hc : c ∈ ((run storage.base s isMonitored).run storage st).calls) :
    c = .read s.inputPath ∨ ∃ plan, c ∈ plannedCalls s plan := by
  change c ∈ ((run storage.base s isMonitored).observe storage st).calls at hc
  cases hplan : planOf storage.base s (storage.read s.inputPath st) with
  | error f =>
    rw [observe_run_of_error storage s isMonitored hplan] at hc
    exact .inl (List.mem_singleton.mp hc)
  | ok plan =>
    rw [observe_run_of_ok storage s isMonitored hplan] at hc
    rcases List.mem_cons.mp hc with rfl | hc
    · exact .inl rfl
    · rw [(follows_publish s plan).run_eq] at hc
      refine .inr ⟨plan, ?_⟩
      rw [← callsOf_script]
      exact Job.mem_of_mem_calls_play hc

theorem isUsable_of_mem_calls (h : s.check = .ok ())
    (hc : c ∈ ((plan storage.base s isMonitored).run storage st).calls ++
      ((run storage.base s isMonitored).run storage st).calls) : c.path.IsUsable := by
  have husable := Settings.check_eq_ok_iff_isUsable.mp h
  rcases List.mem_append.mp hc with hc | hc
  · rw [calls_plan] at hc
    cases List.mem_singleton.mp hc
    exact husable (.text .inputPath)
  · rcases mem_calls_run storage isMonitored st hc with rfl | ⟨plan, hc⟩
    · exact husable (.text .inputPath)
    · exact isUsable_of_mem_plannedCalls (husable (.text .outputDir))
        (husable (.text .metadataPath)) hc

end Publication

/-- Settings pass the check exactly when every one of them can be used, and the fault is about the
first one that cannot. Whatever the storage and its store, planning and running with checked settings
give it no path that is empty or holds a NUL. -/
theorem Settings.check_keeps_usable (s : Settings) :
    (s.check = .ok () ↔
      (s.inputPath.bytes ≠ [] ∧ 0 ∉ s.inputPath.bytes) ∧
      (s.outputDir.bytes ≠ [] ∧ 0 ∉ s.outputDir.bytes) ∧
      (s.metadataPath.bytes ≠ [] ∧ 0 ∉ s.metadataPath.bytes) ∧
      1 ≤ s.chunkSize.toNat ∧ (s.locale = "en" ∨ s.locale = "nb")) ∧
    (s.check ≠ .ok () → ∃ k value reason, Setting.firstUnusable? s = some k ∧
      s.check = .error (.invalidValue k.name value reason) ∧
      (k.isPath = true → '\x00' ∉ (Fault.invalidValue k.name value reason).message.toList)) ∧
    (∀ p : Path, (p.shown = "" ↔ p.bytes = []) ∧ ('\x00' ∈ p.shown.toList ↔ 0 ∈ p.bytes)) ∧
    (s.check = .ok () → ∀ {σ : Type} (storage : Storage σ) (st : σ) (isMonitored : Bool),
      ∀ c ∈ ((Publication.plan storage.base s isMonitored).run storage st).calls ++
        ((Publication.run storage.base s isMonitored).run storage st).calls,
      c.path.bytes ≠ [] ∧ 0 ∉ c.path.bytes) := by
  refine ⟨?_, ?_, ?_, ?_⟩
  · rw [check_eq_ok_iff_isUsable, Setting.forall_iff]
    simp only [Setting.IsUsable, Setting.Accepts, Setting.get, Path.isUsable_iff]
  · intro h
    cases hfirst : Setting.firstUnusable? s with
    | none =>
      rw [check_eq_first, hfirst] at h
      exact absurd rfl h
    | some k =>
      obtain ⟨value, reason, hcheck⟩ := check_eq_error_of_first hfirst
      exact ⟨k, value, reason, rfl, hcheck⟩
  · intro p
    exact ⟨Utf8.lossy_eq_empty_iff, Utf8.nul_mem_lossy_iff⟩
  · intro h σ storage st isMonitored c hc
    have husable := Publication.isUsable_of_mem_calls storage isMonitored st h hc
    exact ⟨husable.ne_nil, husable.nul_not_mem⟩

/-- A directory whose bytes are no text passes the check, and a run gives its storage no path that is
empty or holds a NUL. A NUL behind such bytes is found, before the size is looked at. -/
theorem Settings.check_keeps_usable_beyond_text :
    let s : Settings := { Settings.standard with outputDir := ⟨[0xFF, 0x2F]⟩ }
    let m : Memory := ⟨[(s.inputPath.shown, Utf8.ofString "id\n1\n2\n")], []⟩
    let refused : Settings := { s with metadataPath := ⟨[0xFF, 0x00]⟩, chunkSize := 0 }
    s.check = .ok () ∧
      (∀ c ∈ ((Publication.run ⟨[]⟩ s false).run (.memory ⟨[]⟩) m).calls,
        c.path.bytes ≠ [] ∧ 0 ∉ c.path.bytes) ∧
      ∃ value reason, refused.check = .error (.invalidValue "metadata_path" value reason) ∧
        '\x00' ∉ (Fault.invalidValue "metadata_path" value reason).message.toList := by
  intro s m refused
  have hcheck : s.check = .ok () := (check_keeps_usable s).1.mpr (by decide +kernel)
  refine ⟨hcheck, ?_, ?_⟩
  · intro c hc
    exact (check_keeps_usable s).2.2.2 hcheck (.memory ⟨[]⟩) m false c (List.mem_append_right _ hc)
  · have hfirst : Setting.firstUnusable? refused = some (.text .metadataPath) := by decide +kernel
    have hrefused : refused.check ≠ .ok () := by
      intro h
      exact absurd ((check_keeps_usable refused).1.mp h) (by decide +kernel)
    obtain ⟨k, value, reason, hk, herror, hmessage⟩ := (check_keeps_usable refused).2.1 hrefused
    cases hfirst.symm.trans hk
    exact ⟨value, reason, herror, hmessage rfl⟩

end LetterPages
