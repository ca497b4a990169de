import LetterPages.Proofs.Partition
import LetterPages.Proofs.Publishing

/-!
# What can be observed of a run

Apart from its log entries a run shows its store, its calls, its lines and its outcome. Planning is
observed as one reading, and a whole run as that reading followed by the publication of the plan.
-/

namespace LetterPages

/-! ## Observed runs -/

/-- A run without its log entries. -/
structure Observed (σ α : Type) where
  store : σ
  calls : List Call
  lines : List String
  outcome : Except Fault α

def Observed.andThen {σ α β : Type} (o : Observed σ α) (next : α → σ → Observed σ β) :
    Observed σ β :=
  match o.outcome with
  | .ok a =>
    { next a o.store with
      calls := o.calls ++ (next a o.store).calls
      lines := o.lines ++ (next a o.store).lines }
  | .error f => ⟨o.store, o.calls, o.lines, .error f⟩

theorem Observed.andThen_ok {σ α β : Type} (s : σ) (a : α) (next : α → σ → Observed σ β) :
    (Observed.mk s [] [] (.ok a)).andThen next = next a s := rfl

namespace Job

variable {σ α β : Type}

def Run.observed (r : Run σ α) : Observed σ α :=
  ⟨r.store, r.calls, r.lines, r.outcome⟩

def observe (storage : Storage σ) (job : Job α) (s : σ) : Observed σ α :=
  (job.run storage s).observed

section Observe

variable (storage : Storage σ)

theorem observe_bind (job : Job α) (k : α → Job β) (s : σ) :
    (job >>= k).observe storage s =
      (job.observe storage s).andThen fun a => (k a).observe storage := by
  unfold observe Observed.andThen
  rw [run_bind]
  obtain ⟨store, events, outcome⟩ := job.run storage s
  cases outcome with
  | error f => rfl
  | ok a =>
    unfold Run.andThen Run.after Run.observed Run.calls Run.lines
    dsimp only
    rw [List.filterMap_append, List.filterMap_append]

theorem observe_ofExcept (outcome : Except Fault α) (s : σ) :
    (ofExcept outcome).observe storage s = ⟨s, [], [], outcome⟩ := by
  cases outcome <;> rfl

theorem observe_note_bind (level : Log.Level) (origin : Log.Origin) (message : String)
    (k : Unit → Job β) (s : σ) :
    (note level origin message >>= k).observe storage s = (k ()).observe storage s := by
  rw [observe_bind]
  rfl

theorem observe_fetch (p : Path) (s : σ) : (fetch p).observe storage s =
    ⟨s, [.read p], [],
      (storage.read p s).mapError fun reason => (Call.read p).fault storage.base reason⟩ := by
  rw [observe, fetch, Run.observed, Run.calls, Run.lines, run, Run.after]
  cases storage.read p s with
  | error reason =>
    dsimp only
    rw [List.append_nil, calls_announce, lines_announce]
    rfl
  | ok content =>
    dsimp only [run]
    rw [List.append_nil, calls_announce, lines_announce]
    rfl

/-- What only notes entries after a job cannot be observed. -/
theorem observe_bind_quiet (job : Job α) (k : α → Job α)
    (h : ∀ a s, (k a).observe storage s = ⟨s, [], [], .ok a⟩) (s : σ) :
    (job >>= k).observe storage s = job.observe storage s := by
  rw [observe_bind]
  obtain ⟨store, calls, lines, outcome⟩ := job.observe storage s
  cases outcome with
  | error f => rfl
  | ok a =>
    unfold Observed.andThen
    dsimp only
    rw [h a store, List.append_nil, List.append_nil]

end Observe

end Job

/-! ## Planning -/

namespace Publication

variable {σ : Type} (storage : Storage σ) (base : Path) (s : Settings) (isMonitored : Bool)

theorem observe_ofFlaw {α : Type} (source : Path) (outcome : Except Csv.Flaw α) (st : σ) :
    (ofFlaw source outcome).observe storage st =
      ⟨st, [], [], outcome.mapError (.inputMalformed source)⟩ := by
  cases outcome <;> rfl

theorem observe_milestone_bind {β : Type} (stage : String) (k : Unit → Job β) (st : σ) :
    (milestone isMonitored stage >>= k).observe storage st = (k ()).observe storage st := by
  unfold milestone
  cases isMonitored with
  | false => rfl
  | true => exact Job.observe_note_bind storage _ _ _ k st

theorem observe_parse (source : Path) (input : Bytes) (st : σ) :
    (parse source input).observe storage st =
      ⟨st, [], [], (Csv.read input).mapError (.inputMalformed source)⟩ := by
  rw [parse, Csv.read, Job.observe_bind, observe_ofFlaw]
  cases Csv.header (Csv.rows input) with
  | error flaw => rfl
  | ok names =>
    dsimp only [Except.mapError]
    rw [Observed.andThen_ok]
    -- the warning and the note after the records cannot be observed
    split
    · rw [Job.observe_note_bind, Job.observe_bind_quiet, observe_ofFlaw]
      · rfl
      · exact fun _ _ => rfl
    · rw [Job.observe_bind_quiet, observe_ofFlaw]
      · rfl
      · exact fun _ _ => rfl

theorem outcome_parse (source : Path) (input : Bytes) (st : σ) :
    ((parse source input).run storage st).outcome =
      (Csv.read input).mapError (.inputMalformed source) :=
  congrArg Observed.outcome (observe_parse storage source input st)

/-- The letters of an input, for what a storage answers to its reading. -/
def lettersOf (input : Except Refusal Bytes) : Except Fault Dataset :=
  match input with
  | .error reason => .error ((Call.read s.inputPath).fault base reason)
  | .ok input => (Csv.read input).mapError (.inputMalformed (base.join s.inputPath))

def planOf (input : Except Refusal Bytes) : Except Fault Plan :=
  match lettersOf base s input with
  | .error f => .error f
  | .ok data => Plan.ofDataset data s.chunkSize

theorem observe_readLetters (st : σ) : (readLetters storage.base s).observe storage st =
    ⟨st, [.read s.inputPath], [], lettersOf storage.base s (storage.read s.inputPath st)⟩ := by
  unfold readLetters lettersOf
  rw [Job.observe_note_bind, Job.observe_bind, Job.observe_fetch]
  cases storage.read s.inputPath st with
  | error reason => rfl
  | ok input =>
    have hparse := observe_parse storage (storage.base.join s.inputPath) input st
    unfold Observed.andThen
    dsimp only [Except.mapError]
    rw [hparse]
    rfl

theorem observe_paginate (data : Dataset) (st : σ) : (paginate s data).observe storage st =
    ⟨st, [], [], Plan.ofDataset data s.chunkSize⟩ := by
  rw [paginate, Job.observe_bind, Job.observe_ofExcept]
  cases Plan.ofDataset data s.chunkSize <;> rfl

theorem observe_plan (st : σ) : (plan storage.base s isMonitored).observe storage st =
    ⟨st, [.read s.inputPath], [], planOf storage.base s (storage.read s.inputPath st)⟩ := by
  rw [plan, planOf, Job.observe_note_bind, Job.observe_bind, observe_readLetters]
  cases lettersOf storage.base s (storage.read s.inputPath st) with
  | error f => rfl
  | ok data =>
    unfold Observed.andThen
    dsimp only
    rw [Job.observe_note_bind, observe_milestone_bind, Job.observe_note_bind,
      Job.observe_bind_quiet, observe_paginate]
    · rfl
    · intro plan st
      rw [Job.observe_note_bind, observe_milestone_bind]
      rfl

/-- A whole run is the reading of the input followed by the publication of its plan. -/
theorem observe_run (st : σ) : (run storage.base s isMonitored).observe storage st =
    ((plan storage.base s isMonitored).observe storage st).andThen fun plan =>
      (publish s plan).observe storage := by
  rw [run, Job.observe_bind]
  apply congrArg
  funext plan st
  rw [Job.observe_note_bind]
  apply Job.observe_bind_quiet
  intro receipt st
  rw [Job.observe_note_bind, observe_milestone_bind, observe_milestone_bind]
  rfl

/-- Without a plan a run ends as soon as its input has been read. -/
theorem observe_run_of_error {st : σ} {f : Fault}
    (h : planOf storage.base s (storage.read s.inputPath st) = .error f) :
    (run storage.base s isMonitored).observe storage st =
      ⟨st, [.read s.inputPath], [], .error f⟩ := by
  rw [observe_run, observe_plan, h]
  rfl

theorem observe_run_of_ok {st : σ} {plan : Plan}
    (h : planOf storage.base s (storage.read s.inputPath st) = .ok plan) :
    (run storage.base s isMonitored).observe storage st =
      let r := (publish s plan).run storage st
      ⟨r.store, .read s.inputPath :: r.calls, r.lines, r.outcome⟩ := by
  rw [observe_run, observe_plan, h]
  rfl

theorem read_mem_calls_run (st : σ) :
    .read s.inputPath ∈ ((run storage.base s isMonitored).run storage st).calls := by
  change .read s.inputPath ∈ ((run storage.base s isMonitored).observe storage st).calls
  cases hplan : planOf storage.base s (storage.read s.inputPath st) with
  | error f =>
    rw [observe_run_of_error storage s isMonitored hplan]
    exact List.mem_cons_self
  | ok plan =>
    rw [observe_run_of_ok storage s isMonitored hplan]
    exact List.mem_cons_self

theorem store_run (st : σ) : ((run storage.base s isMonitored).run storage st).store =
    match planOf storage.base s (storage.read s.inputPath st) with
    | .error _ => st
    | .ok plan => ((publish s plan).run storage st).store := by
  refine (congrArg Observed.store (observe_run storage s isMonitored st)).trans ?_
  rw [observe_plan]
  cases planOf storage.base s (storage.read s.inputPath st) <;> rfl

/-! ## Runs in memory -/

section InMemory

variable {input : Bytes} {data : Dataset} {m : Memory}

/-- On an input that can be read, a run is its reading and the publication of its plan. -/
theorem observe_run_memory (hread : Csv.read input = .ok data) (hsize : s.chunkSize ≠ 0)
    (hinput : m.get? s.inputPath.shown = some input)
    (hgranted : m.refusalOf (.read s.inputPath) = none) :
    (run base s isMonitored).observe (.memory base) m =
      let r := (publish s (.pages data s.chunkSize)).run (.memory base) m
      ⟨r.store, .read s.inputPath :: r.calls, r.lines, r.outcome⟩ := by
  have hanswer : (Storage.memory base).read s.inputPath m = .ok input := by
    change m.read s.inputPath = .ok input
    change m.refusal? .read s.inputPath = none at hgranted
    rw [Memory.read, hgranted, hinput]
  have hletters : lettersOf base s (.ok input) = .ok data := by
    change (Csv.read input).mapError _ = _
    rw [hread]
    rfl
  have hplan : planOf base s (.ok input) = .ok (.pages data s.chunkSize) := by
    rw [planOf, hletters]
    exact (Plan.ofDataset_eq data s.chunkSize).trans (if_neg hsize)
  exact observe_run_of_ok (.memory base) s isMonitored (hanswer ▸ hplan)

/-- On an input that can be read, a run leaves what the granted ones of its planned calls leave. -/
theorem store_run_memory (hread : Csv.read input = .ok data) (hsize : s.chunkSize ≠ 0)
    (hinput : m.get? s.inputPath.shown = some input)
    (hgranted : m.refusalOf (.read s.inputPath) = none) :
    ((run base s isMonitored).run (.memory base) m).store =
      (m.granted (plannedCalls s (.pages data s.chunkSize))).foldl Memory.perform m := by
  have hobserved := observe_run_memory base s isMonitored hread hsize hinput hgranted
  have hpublish := run_publish base s (.pages data s.chunkSize) m
  exact (congrArg Observed.store hobserved).trans (congrArg Job.Run.store hpublish)

end InMemory

end Publication

end LetterPages
