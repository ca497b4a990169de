import LetterPages.Proofs.DryRun
import LetterPages.Proofs.RunFaults

/-!
# What an exit code tells

The program fails on its configuration first, on its input then, and on its output last. Each has an
exit code of its own, and until the output is written nothing has been changed or said.
-/

namespace LetterPages

/-! ## Faults of the configuration -/

section Blame

/-- Every fault that this can end in is one of the configuration. -/
def BlamesConfiguration {α : Type} (x : Except Fault α) : Prop :=
  ∀ f, x = .error f → f.category = .configuration

variable {α β : Type}

theorem blames_ok (a : α) : BlamesConfiguration (.ok a) := by
  intro f h
  cases h

theorem blames_error {f : Fault} (h : f.category = .configuration) :
    BlamesConfiguration (.error f : Except Fault α) := by
  intro g hg
  cases hg
  exact h

theorem BlamesConfiguration.bind {x : Except Fault α} {k : α → Except Fault β}
    (hx : BlamesConfiguration x) (hk : ∀ a, BlamesConfiguration (k a)) :
    BlamesConfiguration (x >>= k) := by
  intro f h
  cases x with
  | error g =>
    cases h
    exact hx f rfl
  | ok a => exact hk a f h

end Blame

namespace Check

theorem blames_path (field : String) (p : Path) : BlamesConfiguration (Check.path field p) := by
  unfold Check.path
  split
  · exact blames_error rfl
  · split
    · exact blames_error rfl
    · exact blames_ok ()

theorem blames_atLeast (field : String) (value min : Nat) :
    BlamesConfiguration (atLeast field value min) := by
  unfold atLeast
  split
  · exact blames_error rfl
  · exact blames_ok ()

theorem blames_oneOf (field value : String) (allowed : List String) :
    BlamesConfiguration (oneOf field value allowed) := by
  unfold oneOf
  split
  · exact blames_ok ()
  · exact blames_error rfl

end Check

namespace Settings

theorem blames_check (s : Settings) : BlamesConfiguration s.check :=
  (Check.blames_path _ _).bind fun _ => (Check.blames_path _ _).bind fun _ =>
    (Check.blames_path _ _).bind fun _ => (Check.blames_atLeast _ _ _).bind fun _ =>
      Check.blames_oneOf _ _ _

theorem chunkSize_ne_zero {s : Settings} (h : s.check = .ok ()) : s.chunkSize ≠ 0 := by
  obtain ⟨⟨⟩, -, h⟩ := exists_of_bind_eq_ok h
  obtain ⟨⟨⟩, -, h⟩ := exists_of_bind_eq_ok h
  obtain ⟨⟨⟩, -, h⟩ := exists_of_bind_eq_ok h
  obtain ⟨⟨⟩, hsize, -⟩ := exists_of_bind_eq_ok h
  intro hzero
  rw [hzero] at hsize
  cases hsize

theorem blames_ofFile (path : Path) (env : Environment) (content : Except Refusal Bytes) :
    BlamesConfiguration (ofFile path env content) := by
  unfold ofFile ofFileIn
  split
  · exact blames_error rfl
  · split
    · exact blames_error rfl
    · rename_i text _
      unfold ofTextIn
      cases ofToml (env.expand text) with
      | error p => exact blames_error rfl
      | ok s => exact blames_ok s

end Settings

namespace Fault

theorem exitCode_eq_two_iff (f : Fault) : f.exitCode = 2 ↔ f.category = .configuration := by
  unfold exitCode severity
  cases f.category <;> decide

theorem exitCode_eq_one_iff (f : Fault) : f.exitCode = 1 ↔ f.category = .input := by
  unfold exitCode severity
  cases f.category <;> decide

theorem exitCode_eq_three_iff (f : Fault) :
    f.exitCode = 3 ↔ f.category = .output ∨ f.category = .internal := by
  unfold exitCode severity
  cases f.category <;> decide

end Fault

namespace Program

open CommandLine (Arguments)
open Publication (AreLetters)

/-! ## Stages of a run -/

/-- The settings file that the arguments name cannot be loaded, or the settings that it and the
arguments amount to do not pass the check. -/
def Misconfigured (host : Host) (a : Arguments) : Prop :=
  (∃ path f, a.config = some path ∧
    Settings.ofFile path host.environment (host.tree.read host.current path) = .error f) ∨
  ∃ s f, settings host.environment (fun path => host.tree.read host.current path) a = .ok s ∧
    s.check = .error f

/-- What reading the input answers. -/
def inputOn (host : Host) (a : Arguments) (s : Settings) : Except Refusal Bytes :=
  host.tree.read host.current ((baseDir host.programDir a).join s.inputPath)

/-- One of the calls that a run makes is meant to make a directory or write a file and is refused. -/
def RefusesOutput (host : Host) (a : Arguments) : Prop :=
  ∃ c reason, c.IsOutput ∧
    (storageOn host a).firstRefusal? (jobOn host a).calls host.tree = some (c, reason)

variable {host : Host} {a : Arguments} {s : Settings}

theorem settingsIn_eq_error_iff {wording : Settings.Wording} {env : Environment}
    {content : Path → Except Refusal Bytes} {f : Fault} : settingsIn wording env content a = .error f ↔
      ∃ path, a.config = some path ∧
        Settings.ofFileIn wording path env (content path) = .error f := by
  unfold settingsIn
  cases a.config with
  | none =>
    constructor
    · intro h
      cases h
    · rintro ⟨path, hpath, -⟩
      cases hpath
  | some path =>
    dsimp only
    cases hfile : Settings.ofFileIn wording path env (content path) with
    | error g =>
      constructor
      · intro h
        cases h
        exact ⟨path, rfl, hfile⟩
      · rintro ⟨_, hpath, h⟩
        cases hpath
        rw [hfile] at h
        cases h
        rfl
    | ok s =>
      constructor
      · intro h
        cases h
      · rintro ⟨_, hpath, h⟩
        cases hpath
        rw [hfile] at h
        cases h

theorem settings_eq_error_iff {env : Environment} {content : Path → Except Refusal Bytes}
    {f : Fault} : settings env content a = .error f ↔
      ∃ path, a.config = some path ∧ Settings.ofFile path env (content path) = .error f :=
  settingsIn_eq_error_iff

theorem checkedSettings_eq (env : Environment) (content : Path → Except Refusal Bytes)
    (a : Arguments) : checkedSettings env content a = (do
      let s ← settings env content a
      s.check
      return s) :=
  rfl

theorem settingsOn_cases (host : Host) (a : Arguments) :
    (Misconfigured host a ∧
      ∃ f, settingsOn host a = .error f ∧ f.category = .configuration) ∨
    (¬ Misconfigured host a ∧ ∃ s, settingsOn host a = .ok s ∧ s.check = .ok ()) := by
  unfold Misconfigured
  rw [settingsOn, checkedSettings_eq]
  cases hsettings : settings host.environment (fun path => host.tree.read host.current path) a with
  | error f =>
    obtain ⟨path, hconfig, hfile⟩ := settings_eq_error_iff.mp hsettings
    exact .inl ⟨.inl ⟨path, f, hconfig, hfile⟩, f, rfl, Settings.blames_ofFile path _ _ f hfile⟩
  | ok s =>
    dsimp only [bind, Except.bind]
    cases hcheck : s.check with
    | error f => exact .inl ⟨.inr ⟨s, f, rfl, hcheck⟩, f, rfl, s.blames_check f hcheck⟩
    | ok u =>
      refine .inr ⟨?_, s, rfl, hcheck⟩
      rintro (⟨path, f, hconfig, hfile⟩ | ⟨s', f, hs', hfailed⟩)
      · rw [settings_eq_error_iff.mpr ⟨path, hconfig, hfile⟩] at hsettings
        cases hsettings
      · cases hs'
        rw [hcheck] at hfailed
        cases hfailed

/-! ## Endings -/

theorem jobOn_of_error {f : Fault} (h : settingsOn host a = .error f) :
    (jobOn host a).observed = ⟨host.tree, [], [], .error f⟩ := by
  unfold jobOn
  rw [h]
  exact observe_job_of_error (storageOn host a) host.tree _ a f

theorem jobOn_of_ok (h : settingsOn host a = .ok s) : (jobOn host a).observed =
    (work (storageOn host a).base a s).observe (storageOn host a) host.tree := by
  unfold jobOn
  rw [h]
  exact observe_job_of_ok (storageOn host a) host.tree _ a s

/-- Publishing ends with an output fault if one of the calls made was refused, and else with
success. -/
theorem refusesOutput_cases (hs : settingsOn host a = .ok s) (hreal : a.dryRun = false)
    (hletters : AreLetters (inputOn host a s)) {plan : Plan}
    (hplan : Publication.planOf (storageOn host a).base s (inputOn host a s) = .ok plan) :
    (RefusesOutput host a ∧
      ∃ f, (jobOn host a).outcome = .error f ∧ f.category = .output) ∨
    (¬ RefusesOutput host a ∧ (jobOn host a).outcome = .ok ()) := by
  let published := (Publication.publish s plan).run (storageOn host a) host.tree
  have hplay : published = ((storageOn host a).play (Publication.script s plan) host.tree).giving
      (Publication.receipt s plan) := (Publication.follows_publish s plan).run_eq _ _
  have hobserved := (jobOn_of_ok hs).trans (observe_real_work _ _ hreal hplan)
  have hcalls : (jobOn host a).calls = .read s.inputPath :: published.calls :=
    congrArg Observed.calls hobserved
  have houtcome : (jobOn host a).outcome = published.outcome.map fun _ => () :=
    congrArg Observed.outcome hobserved
  have hrefusal : (storageOn host a).firstRefusal? (jobOn host a).calls host.tree =
      (storageOn host a).firstRefusal? (Publication.plannedCalls s plan) host.tree := by
    have hattempt : (storageOn host a).attempt (.read s.inputPath) host.tree = (host.tree, none) := by
      obtain ⟨input, -, hinput, -⟩ := hletters
      exact Storage.attempt_read_of_ok _ hinput
    have hmade : published.calls =
        ((storageOn host a).play (Publication.script s plan) host.tree).calls :=
      congrArg Job.Run.calls hplay
    rw [hcalls, Storage.firstRefusal?, hattempt, hmade, ← Publication.callsOf_script]
    exact Job.firstRefusal?_play _ _ _
  have hended : published.outcome = (((storageOn host a).play (Publication.script s plan)
      host.tree).outcome.map fun _ => Publication.receipt s plan) := congrArg Job.Run.outcome hplay
  rw [Job.outcome_play, Publication.callsOf_script] at hended
  rw [houtcome, hended]
  unfold RefusesOutput
  rw [hrefusal]
  cases hfirst : (storageOn host a).firstRefusal? (Publication.plannedCalls s plan) host.tree with
  | none =>
    refine .inr ⟨?_, rfl⟩
    rintro ⟨c, reason, -, h⟩
    cases h
  | some refused =>
    obtain ⟨c, reason⟩ := refused
    have hc : c.IsOutput :=
      Publication.isOutput_of_mem_plannedCalls (Job.mem_of_firstRefusal? hfirst)
    refine .inl ⟨⟨c, reason, hc, rfl⟩, _, rfl, ?_⟩
    rw [Call.category_fault]
    cases c with
    | read p => exact hc.elim
    | makeDir p => rfl
    | write p content => rfl

theorem output_conclude (filter : Log.Filter) (a : Arguments) (r : Job.Run FileTree Unit) :
    (conclude filter a r).output = text r.lines := by
  unfold conclude
  cases r.outcome <;> rfl

/-- The ways in which the program ends. -/
theorem ending_cases (a : Arguments) (host : Host) :
    let r := jobOn host a
    let ending := runWith a host
    (Misconfigured host a ∧ r.calls = [] ∧ ending.exitCode = 2 ∧ ending.tree = host.tree ∧
      ending.output = "") ∨
    (¬ Misconfigured host a ∧ ∃ s, settingsOn host a = .ok s ∧ s.check = .ok () ∧
      ((¬ AreLetters (inputOn host a s) ∧ ending.exitCode = 1 ∧ ending.tree = host.tree ∧
          ending.output = "") ∨
        (AreLetters (inputOn host a s) ∧ a.dryRun = true ∧ ending.exitCode = 0 ∧
          ending.tree = host.tree) ∨
        (AreLetters (inputOn host a s) ∧ a.dryRun = false ∧
          ((RefusesOutput host a ∧ ending.exitCode = 3) ∨
            (¬ RefusesOutput host a ∧ ending.exitCode = 0))))) := by
  intro r ending
  have hending : ending = conclude (filter host.environment a) a r := rfl
  rw [hending]
  rcases settingsOn_cases host a with ⟨hmis, f, hf, hcategory⟩ | ⟨hconf, s, hs, hcheck⟩
  · have hobserved := jobOn_of_error hf
    have houtcome : r.outcome = .error f := congrArg Observed.outcome hobserved
    obtain ⟨hexit, htree, -⟩ := conclude_of_error (filter host.environment a) a houtcome
    refine .inl ⟨hmis, congrArg Observed.calls hobserved, ?_, ?_, ?_⟩
    · rw [hexit, Fault.exitCode_eq_two_iff, hcategory]
    · rw [htree]
      exact congrArg Observed.store hobserved
    · rw [output_conclude]
      exact congrArg (fun o => text o.lines) hobserved
  · refine .inr ⟨hconf, s, hs, hcheck, ?_⟩
    rcases Publication.planOf_cases (storageOn host a).base s (inputOn host a s) with
      ⟨hletters, hsize, plan, hplan⟩ | ⟨-, hsize, -⟩ | ⟨hletters, f, hf, hcategory⟩
    · right
      cases hdry : a.dryRun with
      | true =>
        have hobserved := (jobOn_of_ok hs).trans (observe_dry_work _ _ hdry hplan)
        obtain ⟨hexit, -, htree⟩ := conclude_of_ok (filter host.environment a) a
          (congrArg Observed.outcome hobserved)
        refine .inl ⟨hletters, rfl, hexit, ?_⟩
        rw [htree]
        exact congrArg Observed.store hobserved
      | false =>
        refine .inr ⟨hletters, rfl, ?_⟩
        rcases refusesOutput_cases hs hdry hletters hplan with
          ⟨hrefuses, f, hf, hcategory⟩ | ⟨hgranted, hok⟩
        · obtain ⟨hexit, -, -⟩ := conclude_of_error (filter host.environment a) a hf
          refine .inl ⟨hrefuses, ?_⟩
          rw [hexit, Fault.exitCode_eq_three_iff]
          exact .inl hcategory
        · exact .inr ⟨hgranted, (conclude_of_ok (filter host.environment a) a hok).1⟩
    · exact absurd hsize (Settings.chunkSize_ne_zero hcheck)
    · left
      have hobserved := (jobOn_of_ok hs).trans (observe_work_of_error _ _ hf)
      obtain ⟨hexit, htree, -⟩ := conclude_of_error (filter host.environment a) a
        (congrArg Observed.outcome hobserved)
      refine ⟨hletters, ?_, ?_, ?_⟩
      · rw [hexit, Fault.exitCode_eq_one_iff, hcategory]
      · rw [htree]
        exact congrArg Observed.store hobserved
      · rw [output_conclude]
        exact congrArg (fun o => text o.lines) hobserved

/-- The program ends with exit code 2 exactly if its configuration fails, and then has not read its
input. Otherwise it ends with 1 exactly if its input is not a table of letters, and otherwise with
0 if it is a dry run. A real run then ends with 3 if a directory or a file is refused and with 0 if
none is. On 1 and 2 and in a dry run the tree is left alone, and on 1 and 2 nothing is said. Settings
that have passed the check have no chunk size that cutting refuses. -/
theorem exitCode_tells (a : Arguments) (host : Host) :
    let r := jobOn host a
    let ending := runWith a host
    ending = conclude (filter host.environment a) a r ∧
    (∀ arguments, CommandLine.parse arguments = .ok a → run arguments host = ending) ∧
    (ending.exitCode = 2 ↔ Misconfigured host a) ∧
    (Misconfigured host a → r.calls = []) ∧
    (¬ Misconfigured host a → ∃ s, settingsOn host a = .ok s ∧
      (ending.exitCode = 1 ↔ ¬ AreLetters (inputOn host a s)) ∧
      (AreLetters (inputOn host a s) →
        (a.dryRun = true → ending.exitCode = 0) ∧
        (a.dryRun = false →
          (ending.exitCode = 3 ↔ RefusesOutput host a) ∧
          (ending.exitCode = 0 ↔ ¬ RefusesOutput host a))) ∧
      (∀ records, ∃ chunks, Chunk.ofRecords records s.chunkSize.toNat = .ok chunks)) ∧
    (ending.exitCode = 1 ∨ ending.exitCode = 2 ∨ a.dryRun = true → ending.tree = host.tree) ∧
    (ending.exitCode = 1 ∨ ending.exitCode = 2 → ending.output = "") := by
  intro r ending
  refine ⟨rfl, ?_, ?_⟩
  · intro arguments hparse
    rw [run, hparse]
  rcases ending_cases a host with ⟨hmis, hcalls, hexit, htree, houtput⟩ | ⟨hconf, s, hs, hcheck, hend⟩
  · have hexit' : ending.exitCode = 2 := hexit
    refine ⟨iff_of_true hexit' hmis, fun _ => hcalls, fun h => absurd hmis h, fun _ => htree,
      fun _ => houtput⟩
  · have hcut : ∀ records, ∃ chunks, Chunk.ofRecords records s.chunkSize.toNat = .ok chunks := by
      intro records
      refine ⟨Chunk.pages records s.chunkSize.toNat, ?_⟩
      rw [Chunk.ofRecords_eq, if_neg]
      intro hzero
      exact Settings.chunkSize_ne_zero hcheck (UInt64.toNat_inj.mp hzero)
    rcases hend with ⟨hletters, hexit, htree, houtput⟩ | ⟨hletters, hdry, hexit, htree⟩ |
      ⟨hletters, hreal, ⟨hrefuses, hexit⟩ | ⟨hgranted, hexit⟩⟩
    all_goals
      have hexit' : ending.exitCode = _ := hexit
      rw [hexit']
    · refine ⟨by simp [hconf], fun h => absurd h hconf, fun _ => ⟨s, hs, by simp [hletters], ?_, hcut⟩,
        fun _ => htree, fun _ => houtput⟩
      intro h
      exact absurd h hletters
    · refine ⟨by simp [hconf], fun h => absurd h hconf,
        fun _ => ⟨s, hs, by simp [hletters], fun _ => ⟨fun _ => rfl, ?_⟩, hcut⟩, fun _ => htree, ?_⟩
      · simp [hdry]
      · simp
    · refine ⟨by simp [hconf], fun h => absurd h hconf,
        fun _ => ⟨s, hs, by simp [hletters], fun _ => ⟨?_, fun _ => ?_⟩, hcut⟩, ?_, ?_⟩
      · simp [hreal]
      · simp [hrefuses]
      · simp [hreal]
      · simp
    · refine ⟨by simp [hconf], fun h => absurd h hconf,
        fun _ => ⟨s, hs, by simp [hletters], fun _ => ⟨fun _ => rfl, fun _ => ?_⟩, hcut⟩, ?_, ?_⟩
      · simp [hgranted]
      · simp [hreal]
      · simp

/-- Without an input file and with the chunk size 0 the configuration is at fault; with the chunk
size 1 it is the input. -/
theorem exitCode_tells_configuration_first :
    let a (size : UInt64) : Arguments := { Arguments.none with
      changes := { Settings.Changes.none with chunkSize := some size } }
    let host : Host := ⟨⟨[]⟩, [], .ofString "/w", ⟨[([Utf8.ofString "w"], .directory)]⟩⟩
    (runWith (a 0) host).exitCode = 2 ∧ (jobOn host (a 0)).calls = [] ∧
      (runWith (a 1) host).exitCode = 1 ∧ (runWith (a 1) host).tree = host.tree := by
  intro a host
  have htwo : (runWith (a 0) host).exitCode = 2 := by decide +kernel
  have hone : (runWith (a 1) host).exitCode = 1 := by decide +kernel
  obtain ⟨-, -, hmis, hcalls, -⟩ := exitCode_tells (a 0) host
  obtain ⟨-, -, -, -, -, htree, -⟩ := exitCode_tells (a 1) host
  exact ⟨htwo, hcalls (hmis.mp htwo), hone, htree (.inl hone)⟩

end Program

end LetterPages
