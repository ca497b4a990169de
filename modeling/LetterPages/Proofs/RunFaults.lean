import LetterPages.Proofs.Observation

/-!
# How far a failed run has come

A run reads, plans and publishes, and the category of its fault tells in which of these it ended.
Until it publishes, a run has read its input and done nothing else.
-/

namespace LetterPages

theorem Call.category_fault (base : Path) (reason : Refusal) (c : Call) :
    (c.fault base reason).category =
      match c with
      | .read _ => .input
      | _ => .output := by
  cases c with
  | read p =>
    rw [fault]
    by_cases h : reason = .noSuchFile
    · rw [if_pos h]
      rfl
    · rw [if_neg h]
      rfl
  | makeDir p => rfl
  | write p content => rfl

/-- The answer to a reading is a table of letters. -/
def Publication.AreLetters (answer : Except Refusal Bytes) : Prop :=
  ∃ input data, answer = .ok input ∧ Csv.read input = .ok data

/-- The file can be read and its bytes are a table of letters. -/
def Memory.HoldsLetters (m : Memory) (path : Path) : Prop :=
  ∃ input data, m.read path = .ok input ∧ Csv.read input = .ok data

/-- One of the calls is meant to change the store and is refused. -/
def Memory.RefusesOutput (m : Memory) (calls : List Call) : Prop :=
  ∃ c ∈ calls, c.IsOutput ∧ m.refusalOf c ≠ none

theorem Memory.refusesOutput_cons_read (m : Memory) (path : Path) (calls : List Call) :
    m.RefusesOutput (.read path :: calls) ↔ m.RefusesOutput calls := by
  constructor
  · rintro ⟨c, hc, houtput, hrefused⟩
    rcases List.mem_cons.mp hc with rfl | hc
    · exact houtput.elim
    · exact ⟨c, hc, houtput, hrefused⟩
  · rintro ⟨c, hc, houtput, hrefused⟩
    exact ⟨c, List.mem_cons_of_mem _ hc, houtput, hrefused⟩

namespace Publication

/-! ## Planning -/

section Planning

variable (base : Path) (s : Settings) (answer : Except Refusal Bytes)

theorem lettersOf_cases :
    (AreLetters answer ∧ ∃ data, lettersOf base s answer = .ok data) ∨
    (¬ AreLetters answer ∧
      ∃ f, lettersOf base s answer = .error f ∧ f.category = .input) := by
  unfold AreLetters lettersOf
  cases answer with
  | error reason =>
    right
    constructor
    · rintro ⟨input, data, hinput, -⟩
      cases hinput
    · exact ⟨_, rfl, Call.category_fault base reason _⟩
  | ok input =>
    dsimp only
    cases hread : Csv.read input with
    | error flaw =>
      right
      constructor
      · rintro ⟨_, data, hinput, hdata⟩
        cases hinput
        rw [hread] at hdata
        cases hdata
      · exact ⟨_, rfl, rfl⟩
    | ok data => exact .inl ⟨⟨input, data, rfl, hread⟩, data, rfl⟩

/-- Planning fails on the input first and on the chunk size then. -/
theorem planOf_cases :
    (AreLetters answer ∧ s.chunkSize ≠ 0 ∧ ∃ plan, planOf base s answer = .ok plan) ∨
    (AreLetters answer ∧ s.chunkSize = 0 ∧
      ∃ f, planOf base s answer = .error f ∧ f.category = .configuration) ∨
    (¬ AreLetters answer ∧ ∃ f, planOf base s answer = .error f ∧ f.category = .input) := by
  unfold planOf
  rcases lettersOf_cases base s answer with ⟨hletters, data, hdata⟩ | ⟨hletters, f, hf, hcategory⟩
  · rw [hdata]
    dsimp only
    rw [Plan.ofDataset_eq]
    by_cases hsize : s.chunkSize = 0
    · rw [if_pos hsize]
      exact .inr (.inl ⟨hletters, hsize, _, rfl, rfl⟩)
    · rw [if_neg hsize]
      exact .inl ⟨hletters, hsize, _, rfl⟩
  · rw [hf]
    exact .inr (.inr ⟨hletters, f, rfl, hcategory⟩)

end Planning

section Stages

variable (base : Path) (s : Settings) (m : Memory)

theorem planOf_read_cases :
    (m.HoldsLetters s.inputPath ∧ s.chunkSize ≠ 0 ∧
      ∃ plan, planOf base s (m.read s.inputPath) = .ok plan) ∨
    (m.HoldsLetters s.inputPath ∧ s.chunkSize = 0 ∧
      ∃ f, planOf base s (m.read s.inputPath) = .error f ∧ f.category = .configuration) ∨
    (¬ m.HoldsLetters s.inputPath ∧
      ∃ f, planOf base s (m.read s.inputPath) = .error f ∧ f.category = .input) :=
  planOf_cases base s (m.read s.inputPath)

/-! ## Publishing -/

variable {m} in
theorem refusesOutput_planned_iff {plan : Plan} :
    m.RefusesOutput ((publish s plan).run (.memory base) m).calls ↔
      m.firstRefused (plannedCalls s plan) ≠ none := by
  have hcalls : ((publish s plan).run (.memory base) m).calls =
      (plannedCalls s plan).take ((m.granted (plannedCalls s plan)).length + 1) := by
    rw [run_publish, ← callsOf_script]
    exact callsOf_performed m (script s plan)
  rw [hcalls]
  constructor
  · rintro ⟨c, hc, -, hrefused⟩ hnone
    rw [Memory.firstRefused, List.findSome?_eq_none_iff] at hnone
    have hgranted := hnone c (List.mem_of_mem_take hc)
    exact hrefused (Option.map_eq_none_iff.mp hgranted)
  · intro hsome
    refine Classical.byContradiction fun hnone => hsome ?_
    -- then every call that was made was granted, and so all were made
    apply Memory.firstRefused_of_granted
    apply Memory.granted_eq_self
    intro c hc
    refine Classical.byContradiction fun hrefused => hnone ?_
    exact ⟨c, hc, isOutput_of_mem_plannedCalls (List.mem_of_mem_take hc), hrefused⟩

theorem publish_cases (plan : Plan) :
    let r := (publish s plan).run (.memory base) m
    (¬ m.RefusesOutput r.calls ∧ ∃ receipt, r.outcome = .ok receipt) ∨
    (m.RefusesOutput r.calls ∧ ∃ f, r.outcome = .error f ∧ f.category = .output) := by
  intro r
  have houtcome : r.outcome = _ := congrArg Job.Run.outcome (run_publish base s plan m)
  rw [refusesOutput_planned_iff, houtcome]
  cases hrefused : m.firstRefused (plannedCalls s plan) with
  | none => exact .inl ⟨fun h => h rfl, _, rfl⟩
  | some refused =>
    obtain ⟨c, reason⟩ := refused
    refine .inr ⟨fun h => (by cases h), _, rfl, ?_⟩
    have hc : c.IsOutput := isOutput_of_mem_plannedCalls (Memory.mem_of_firstRefused hrefused)
    rw [Call.category_fault]
    cases c with
    | read p => exact hc.elim
    | makeDir p => rfl
    | write p content => rfl

/-! ## Whole runs -/

variable {s m} (isMonitored : Bool)

/-- Before it publishes a run does nothing but read its input. -/
theorem run_of_fault {f : Fault} (h : planOf base s (m.read s.inputPath) = .error f) :
    let r := (run base s isMonitored).run (.memory base) m
    r.calls = [.read s.inputPath] ∧ r.store = m ∧ r.lines = [] ∧ r.outcome = .error f := by
  intro r
  have hr : r.observed = ⟨m, [.read s.inputPath], [], .error f⟩ :=
    observe_run_of_error (.memory base) s isMonitored h
  exact ⟨congrArg Observed.calls hr, congrArg Observed.store hr, congrArg Observed.lines hr,
    congrArg Observed.outcome hr⟩

theorem run_of_plan {plan : Plan} (h : planOf base s (m.read s.inputPath) = .ok plan) :
    let r := (run base s isMonitored).run (.memory base) m
    let l := (publish s plan).run (.memory base) m
    r.calls = .read s.inputPath :: l.calls ∧ r.store = l.store ∧ r.lines = l.lines ∧
      r.outcome = l.outcome := by
  intro r l
  have hr : r.observed = ⟨l.store, .read s.inputPath :: l.calls, l.lines, l.outcome⟩ :=
    observe_run_of_ok (.memory base) s isMonitored h
  exact ⟨congrArg Observed.calls hr, congrArg Observed.store hr, congrArg Observed.lines hr,
    congrArg Observed.outcome hr⟩

end Stages

/-- A run succeeds when its input holds letters, its chunk size is not 0, and no directory or file is
refused; a fault has the category of the first of these that fails, and is never an internal one.
Unless it is an output fault the run has only read its input. Planning reads the input and no more;
it has the faults of a run apart from output faults, and what it plans is what the run publishes. -/
theorem run_category (base : Path) (s : Settings) (m : Memory) (isMonitored : Bool) :
    let r := (run base s isMonitored).run (.memory base) m
    let p := (plan base s isMonitored).run (.memory base) m
    ((∃ receipt, r.outcome = .ok receipt) ↔
      m.HoldsLetters s.inputPath ∧ s.chunkSize ≠ 0 ∧ ¬ m.RefusesOutput r.calls) ∧
    (∀ f, r.outcome = .error f →
      f.category ≠ .internal ∧
      (f.category = .input ↔ ¬ m.HoldsLetters s.inputPath) ∧
      (f.category = .configuration ↔ m.HoldsLetters s.inputPath ∧ s.chunkSize = 0) ∧
      (f.category = .output ↔
        m.HoldsLetters s.inputPath ∧ s.chunkSize ≠ 0 ∧ m.RefusesOutput r.calls) ∧
      (f.category = .input ∨ f.category = .configuration →
        r.calls = [.read s.inputPath] ∧ r.store = m ∧ r.lines = [])) ∧
    p.calls = [.read s.inputPath] ∧ p.store = m ∧ p.lines = [] ∧
    (∀ f, p.outcome = .error f ↔
      r.outcome = .error f ∧ (f.category = .input ∨ f.category = .configuration)) ∧
    (∀ plan, p.outcome = .ok plan →
      let l := (publish s plan).run (.memory base) m
      r.calls = .read s.inputPath :: l.calls ∧ r.store = l.store ∧ r.lines = l.lines ∧
        r.outcome = l.outcome) := by
  intro r p
  have hp : p.observed = ⟨m, [.read s.inputPath], [], planOf base s (m.read s.inputPath)⟩ :=
    observe_plan (.memory base) s isMonitored m
  have hpcalls : p.calls = [.read s.inputPath] := congrArg Observed.calls hp
  have hpstore : p.store = m := congrArg Observed.store hp
  have hplines : p.lines = [] := congrArg Observed.lines hp
  have hpoutcome : p.outcome = planOf base s (m.read s.inputPath) := congrArg Observed.outcome hp
  have hload : ∀ plan, planOf base s (m.read s.inputPath) = .ok plan → _ :=
    fun _ hplan => run_of_plan base isMonitored hplan
  rw [hpoutcome]
  rcases planOf_read_cases base s m with
    ⟨hholds, hsize, plan, hplan⟩ | ⟨hholds, hsize, f, hf, hcategory⟩ | ⟨hholds, f, hf, hcategory⟩
  · obtain ⟨hcalls, -, -, houtcome⟩ := run_of_plan base isMonitored hplan
    have hrefuses : m.RefusesOutput r.calls ↔
        m.RefusesOutput ((publish s plan).run (.memory base) m).calls := by
      rw [hcalls, Memory.refusesOutput_cons_read]
    refine ⟨?_, ?_, hpcalls, hpstore, hplines, ?_, hload⟩
    all_goals
      rw [houtcome]
      rcases publish_cases base s m plan with ⟨hgranted, receipt, hok⟩ | ⟨hrefused, f, hf, hcategory⟩
      all_goals grind
  · obtain ⟨hcalls, hstore, hlines, houtcome⟩ := run_of_fault base isMonitored hf
    refine ⟨?_, ?_, hpcalls, hpstore, hplines, ?_, hload⟩
    all_goals grind
  · obtain ⟨hcalls, hstore, hlines, houtcome⟩ := run_of_fault base isMonitored hf
    refine ⟨?_, ?_, hpcalls, hpstore, hplines, ?_, hload⟩
    all_goals grind

end Publication

end LetterPages
