import LetterPages.Program
import LetterPages.Proofs.ConsoleLines
import LetterPages.Proofs.Observation
import LetterPages.Proofs.Switches
import LetterPages.Proofs.WrittenFiles

/-!
# Dry runs

A dry run plans and then says what it would write. So it fails where a run fails before publishing,
and otherwise its lines name the files that a run writes, and its last line is the metadata.
-/

namespace LetterPages

namespace Program

open CommandLine (Arguments)

section Observe

variable {σ : Type} (storage : Storage σ) (st : σ) {a : Arguments} {s : Settings}

theorem observe_sayAll (lines : List String) :
    (sayAll lines).observe storage st = ⟨st, [], lines, .ok ()⟩ := by
  induction lines with
  | nil => rfl
  | cons line lines ih =>
    have hsay : (Job.say line).observe storage st = ⟨st, [], [line], .ok ()⟩ := rfl
    rw [sayAll, Job.observe_bind, hsay]
    unfold Observed.andThen
    dsimp only
    rw [ih]
    rfl

theorem observe_job_of_error (base : Path) (a : Arguments) (f : Fault) :
    (job base a (.error f)).observe storage st = ⟨st, [], [], .error f⟩ := by
  rw [job, opening, Job.observe_bind]
  rfl

theorem observe_job_of_ok (base : Path) (a : Arguments) (s : Settings) :
    (job base a (.ok s)).observe storage st = (work base a s).observe storage st := by
  rw [job, opening, Job.observe_bind]
  rfl

/-- Whether or not it is dry, work without a plan ends when the input has been read. -/
theorem observe_work_of_error {f : Fault}
    (h : Publication.planOf storage.base s (storage.read s.inputPath st) = .error f) :
    (work storage.base a s).observe storage st = ⟨st, [.read s.inputPath], [], .error f⟩ := by
  rw [work, Job.observe_note_bind]
  split
  · rw [Job.observe_bind, Publication.observe_plan, h]
    rfl
  · rw [Job.observe_bind, Publication.observe_run_of_error storage s a.monitor h]
    rfl

theorem observe_dry_work {plan : Plan} (hdry : a.dryRun = true)
    (h : Publication.planOf storage.base s (storage.read s.inputPath st) = .ok plan) :
    (work storage.base a s).observe storage st =
      ⟨st, [.read s.inputPath], Publication.preview s plan, .ok ()⟩ := by
  rw [work, Job.observe_note_bind, if_pos hdry, Job.observe_bind, Publication.observe_plan, h]
  unfold Observed.andThen
  dsimp only
  rw [observe_sayAll]
  rfl

theorem observe_real_work {plan : Plan} (hreal : a.dryRun = false)
    (h : Publication.planOf storage.base s (storage.read s.inputPath st) = .ok plan) :
    (work storage.base a s).observe storage st =
      let r := (Publication.publish s plan).run storage st
      ⟨r.store, .read s.inputPath :: r.calls, r.lines, r.outcome.map fun _ => ()⟩ := by
  rw [work, Job.observe_note_bind, if_neg (by simp [hreal]), Job.observe_bind,
    Publication.observe_run_of_ok storage s a.monitor h]
  have hsaved : ∀ (receipt : Publication.Receipt) (st : σ),
      (Job.note .info .program ("Metadata saved to " ++ receipt.metadataPath.shown)).observe
        storage st = ⟨st, [], [], .ok ()⟩ := fun _ _ => rfl
  unfold Observed.andThen
  dsimp only
  cases ((Publication.publish s plan).run storage st).outcome with
  | error f => rfl
  | ok receipt =>
    dsimp only
    rw [hsaved, List.append_nil, List.append_nil]
    rfl

end Observe

section Endings

variable (filter : Log.Filter) (a : Arguments) {r : Job.Run FileTree Unit}

theorem exitCode_ne_zero (f : Fault) : f.exitCode ≠ 0 := by
  unfold Fault.exitCode Fault.severity
  cases f.category <;> decide

theorem conclude_of_ok (h : r.outcome = .ok ()) :
    (conclude filter a r).exitCode = 0 ∧ (conclude filter a r).output = text r.lines ∧
      (conclude filter a r).tree = r.store := by
  unfold conclude
  rw [h]
  exact ⟨rfl, rfl, rfl⟩

theorem conclude_of_error {f : Fault} (h : r.outcome = .error f) :
    (conclude filter a r).exitCode = f.exitCode ∧ (conclude filter a r).tree = r.store ∧
      faultNotices filter a f <:+ (conclude filter a r).notices := by
  unfold conclude
  rw [h]
  exact ⟨rfl, rfl, List.suffix_append _ _⟩

variable {filter a} in
theorem outcome_eq_ok (h : (conclude filter a r).exitCode = 0) : r.outcome = .ok () := by
  cases houtcome : r.outcome with
  | error f =>
    rw [(conclude_of_error filter a houtcome).1] at h
    exact absurd h (exitCode_ne_zero f)
  | ok u => rfl

end Endings

/-- The settings that the arguments and the file they name amount to. -/
def settingsOn (host : Host) (a : Arguments) : Except Fault Settings :=
  checkedSettings host.environment (fun path => host.tree.read host.current path) a

def storageOn (host : Host) (a : Arguments) : Storage FileTree :=
  .disk host.current (baseDir host.programDir a)

/-- The plan for the input that the host holds. -/
def planOn (host : Host) (a : Arguments) (s : Settings) : Except Fault Plan :=
  Publication.planOf (storageOn host a).base s ((storageOn host a).read s.inputPath host.tree)

def jobOn (host : Host) (a : Arguments) : Job.Run FileTree Unit :=
  (job (baseDir host.programDir a) a (settingsOn host a)).run (storageOn host a) host.tree

/-- A dry run fails only where the real run fails as well, before either has changed anything.
Otherwise it shows the plan that the real run publishes. -/
theorem dryRun_cases (a : Arguments) (host : Host) :
    let real := jobOn host { a with dryRun := false }
    let dry := jobOn host { a with dryRun := true }
    dry.store = host.tree ∧
    ((∃ f, dry.outcome = .error f ∧ real.outcome = .error f ∧ real.store = host.tree) ∨
    ∃ s plan, settingsOn host a = .ok s ∧ planOn host a s = .ok plan ∧
      dry.outcome = .ok () ∧ dry.lines = Publication.preview s plan ∧
      let r := (Publication.publish s plan).run (storageOn host a) host.tree
      real.outcome = r.outcome.map (fun _ => ()) ∧ real.lines = r.lines ∧ real.store = r.store) := by
  intro real dry
  have hobserved : ∀ isDry, (jobOn host { a with dryRun := isDry }).observed =
      (job (storageOn host a).base { a with dryRun := isDry } (settingsOn host a)).observe
        (storageOn host a) host.tree := fun _ => rfl
  have hreal : real.observed = _ := hobserved false
  have hdry : dry.observed = _ := hobserved true
  cases hs : settingsOn host a with
  | error f =>
    rw [hs, observe_job_of_error] at hreal hdry
    exact ⟨congrArg Observed.store hdry, .inl ⟨f, congrArg Observed.outcome hdry,
      congrArg Observed.outcome hreal, congrArg Observed.store hreal⟩⟩
  | ok s =>
    rw [hs, observe_job_of_ok] at hreal hdry
    cases hplan : Publication.planOf (storageOn host a).base s
        ((storageOn host a).read s.inputPath host.tree) with
    | error f =>
      rw [observe_work_of_error _ _ hplan] at hreal hdry
      exact ⟨congrArg Observed.store hdry, .inl ⟨f, congrArg Observed.outcome hdry,
        congrArg Observed.outcome hreal, congrArg Observed.store hreal⟩⟩
    | ok plan =>
      rw [observe_real_work _ _ rfl hplan] at hreal
      rw [observe_dry_work _ _ rfl hplan] at hdry
      exact ⟨congrArg Observed.store hdry, .inr ⟨s, plan, rfl, hplan,
        congrArg Observed.outcome hdry, congrArg Observed.lines hdry,
        congrArg Observed.outcome hreal, congrArg Observed.lines hreal,
        congrArg Observed.store hreal⟩⟩

/-- The two runs are those of arguments that do not ask for a dry run, and of these arguments after
the switch that does. -/
theorem run_dryRun_argument {arguments : List Bytes} {a : Arguments}
    (h : CommandLine.parse arguments = .ok a) (hreal : a.dryRun = false) (host : Host) :
    run arguments host = runWith { a with dryRun := false } host ∧
      run (CommandLine.Switch.dryRun.argument :: arguments) host =
        runWith { a with dryRun := true } host := by
  have hoff : a.has .dryRun = false := hreal
  have hsame : { a with dryRun := false } = a := by
    rw [← hreal]
  constructor
  · rw [hsame, run, h]
  · rw [run, CommandLine.parse_argument h hoff]
    rfl

/-- The line of a template that names the file of a chunk and how many records it holds. -/
def chunkLine (template : String) (s : Settings) (c : Chunk) : String :=
  Console.fileLine template (Publication.chunkPath s.outputDir c).shown c.size

theorem progressLine_eq (s : Settings) : Publication.progressLine s =
    chunkLine (Console.wroteTemplate (.ofLocale s.locale)) s :=
  funext fun c => Console.wrote_eq s.locale _ c.size

theorem closingLines_eq (s : Settings) (plan : Plan) : Publication.closingLines s plan =
    ["", Console.totalLine (Console.totalTemplate (.ofLocale s.locale))
      plan.metadata.totalLetters.toNat plan.metadata.chunks.toNat] := by
  rw [Publication.closingLines, Console.total_eq]

theorem preview_eq (s : Settings) (plan : Plan) : Publication.preview s plan =
    plan.chunks.map (chunkLine (Console.wouldWriteTemplate (.ofLocale s.locale)) s) ++
      [String.ofList (plan.metadata.json .spaced)] := by
  have hline : (fun c : Chunk => Console.wouldWrite s.locale
      (Publication.chunkPath s.outputDir c).shown c.size) =
      chunkLine (Console.wouldWriteTemplate (.ofLocale s.locale)) s :=
    funext fun c => Console.wouldWrite_eq s.locale _ c.size
  rw [Publication.preview, hline]

/-- When the real run succeeds the dry run does and changes nothing. For the chunks of the plan, in
order, both say one line each that names the path of the chunk file and the number of its records,
and the dry run then says what the metadata file holds after the real run. When the dry run fails
the real run fails with the same fault and changes nothing either. The two are the runs of one
invocation without and with the switch. -/
theorem dryRun_predicts (a : Arguments) (host : Host) :
    let real := runWith { a with dryRun := false } host
    let dry := runWith { a with dryRun := true } host
    (∀ arguments, CommandLine.parse arguments = .ok a → a.dryRun = false →
      run arguments host = real ∧
        run (CommandLine.Switch.dryRun.argument :: arguments) host = dry) ∧
    (real.exitCode = 0 →
      dry.exitCode = 0 ∧ dry.tree = host.tree ∧
      ∃ (s : Settings) (plan : Plan),
        let manifest := String.ofList (plan.metadata.json .spaced)
        settingsOn host a = .ok s ∧ planOn host a s = .ok plan ∧
        real.output = text
          (plan.chunks.map (chunkLine (Console.wroteTemplate (.ofLocale s.locale)) s) ++
            ["", Console.totalLine (Console.totalTemplate (.ofLocale s.locale))
              plan.metadata.totalLetters.toNat plan.metadata.chunks.toNat]) ∧
        dry.output = text
          (plan.chunks.map (chunkLine (Console.wouldWriteTemplate (.ofLocale s.locale)) s) ++
            [manifest]) ∧
        real.tree.read host.current ((baseDir host.programDir a).join s.metadataPath) =
          .ok (Utf8.ofString manifest)) ∧
    (dry.exitCode ≠ 0 →
      dry.tree = host.tree ∧ real.tree = host.tree ∧ real.exitCode = dry.exitCode ∧
      ∃ f, real.exitCode = f.exitCode ∧
        faultNotices (filter host.environment a) a f <:+ dry.notices ∧
        faultNotices (filter host.environment a) a f <:+ real.notices) := by
  intro real dry
  refine ⟨fun _ hparse hfalse => run_dryRun_argument hparse hfalse host, ?_⟩
  have hreal : real = conclude (filter host.environment a) { a with dryRun := false }
    (jobOn host { a with dryRun := false }) := rfl
  have hdry : dry = conclude (filter host.environment a) { a with dryRun := true }
    (jobOn host { a with dryRun := true }) := rfl
  rw [hreal, hdry]
  obtain ⟨hstore, ⟨f, hdryFault, hrealFault, hrealStore⟩ |
    ⟨s, plan, hs, hplan, hdone, hdryLines, hrealOutcome, hrealLines, hrealStore⟩⟩ :=
      dryRun_cases a host
  · obtain ⟨hdryExit, hdryTree, hdryNotices⟩ := conclude_of_error (filter host.environment a)
      { a with dryRun := true } hdryFault
    obtain ⟨hrealExit, hrealTree, hrealNotices⟩ := conclude_of_error (filter host.environment a)
      { a with dryRun := false } hrealFault
    constructor
    · intro hexit
      rw [outcome_eq_ok hexit] at hrealFault
      cases hrealFault
    · intro _
      exact ⟨hdryTree.trans hstore, hrealTree.trans hrealStore, hrealExit.trans hdryExit.symm, f,
        hrealExit, hdryNotices, hrealNotices⟩
  · obtain ⟨hdryExit, hdryOutput, hdryTree⟩ := conclude_of_ok (filter host.environment a)
      { a with dryRun := true } hdone
    constructor
    · intro hexit
      refine ⟨hdryExit, hdryTree.trans hstore, ?_⟩
      have hok := outcome_eq_ok hexit
      obtain ⟨receipt, hreceipt, -⟩ := exists_of_map_eq_ok (hrealOutcome.symm.trans hok)
      obtain ⟨hlines, before, hwritten⟩ := Publication.publish_ok hreceipt
      obtain ⟨-, hrealOutput, hrealTree⟩ :=
        conclude_of_ok (filter host.environment a) { a with dryRun := false } hok
      rw [hrealLines, hlines, progressLine_eq, closingLines_eq] at hrealOutput
      rw [hdryLines, preview_eq] at hdryOutput
      refine ⟨s, plan, hs, hplan, hrealOutput, hdryOutput, ?_⟩
      rw [hrealTree, hrealStore, Disk.read_of_write hwritten, Utf8.ofString,
        String.toList_ofList]
      rfl
    · intro hexit
      exact absurd hdryExit hexit

/-- Three letters that lie beside the program fill two pages. Where they do not lie there, both runs
say so. -/
theorem dryRun_predicts_two_pages :
    let a : CommandLine.Arguments := { CommandLine.Arguments.none with
      changes := { Settings.Changes.none with
        inputPath := some (.ofString "in.csv"), chunkSize := some 2 } }
    let file : Bytes := Utf8.ofString "id,to\n1,a\n2,b\n3,c\n"
    let host : Host := ⟨⟨[]⟩, [], .ofString "/w", ⟨[([Utf8.ofString "w"], .directory),
      ([Utf8.ofString "w", Utf8.ofString "in.csv"], .file file)]⟩⟩
    let real := runWith { a with dryRun := false } host
    let dry := runWith { a with dryRun := true } host
    let bare : Host := { host with tree := ⟨[([Utf8.ofString "w"], .directory)]⟩ }
    (real.exitCode = 0 ∧ dry.exitCode = 0 ∧ dry.tree = host.tree ∧
      real.output = "Wrote data/chunks/letters-chunk-00.json with 2 letters\n" ++
        "Wrote data/chunks/letters-chunk-01.json with 1 letters\n" ++
        "\nTotal: 3 letters split into 2 files\n" ∧
      dry.output = "Would write data/chunks/letters-chunk-00.json with 2 letters\n" ++
        "Would write data/chunks/letters-chunk-01.json with 1 letters\n" ++
        "\x7b\"total_letters\": 3, \"chunks\": 2, \"chunk_size\": 2, " ++
        "\"fields\": [\"id\", \"to\"]\x7d\n") ∧
    (runWith { a with dryRun := true } bare).exitCode = 1 ∧
      (runWith { a with dryRun := false } bare).exitCode = 1 ∧
      (runWith { a with dryRun := false } bare).tree = bare.tree := by
  intro a file host real dry bare
  have hreal : real.exitCode = 0 := by decide +kernel
  obtain ⟨hexit, htree, -⟩ := (dryRun_predicts a host).2.1 hreal
  have hbare : (runWith { a with dryRun := true } bare).exitCode = 1 := by decide +kernel
  have hfails : (runWith { a with dryRun := true } bare).exitCode ≠ 0 := by
    rw [hbare]
    decide
  obtain ⟨-, hunchanged, hsame, -⟩ := (dryRun_predicts a bare).2.2 hfails
  exact ⟨⟨hreal, hexit, htree, by decide +kernel, by decide +kernel⟩, hbare, hsame.trans hbare,
    hunchanged⟩

end Program

end LetterPages
