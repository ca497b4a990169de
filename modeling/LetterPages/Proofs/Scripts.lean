import LetterPages.Job

/-!
# Jobs that follow a script

A job that asks nothing is a script: calls, lines and log entries one after another, up to the first
call that is refused. Such jobs are put together by appending their scripts.
-/

namespace LetterPages

/-! ## Calls and lines of a script -/

def callsOf (script : List Event) : List Call :=
  script.filterMap Event.call?

def linesOf (script : List Event) : List String :=
  script.filterMap Event.line?

theorem callsOf_append (script more : List Event) :
    callsOf (script ++ more) = callsOf script ++ callsOf more :=
  List.filterMap_append

theorem linesOf_append (script more : List Event) :
    linesOf (script ++ more) = linesOf script ++ linesOf more :=
  List.filterMap_append

theorem callsOf_called (calls : List Call) : callsOf (calls.map .called) = calls := by
  rw [callsOf, List.filterMap_map]
  exact List.filterMap_some

theorem callsOf_printed (lines : List String) : callsOf (lines.map .printed) = [] := by
  rw [callsOf, List.filterMap_map]
  exact List.filterMap_eq_nil_iff.mpr fun _ _ => rfl

theorem linesOf_printed (lines : List String) : linesOf (lines.map .printed) = lines := by
  rw [linesOf, List.filterMap_map]
  exact List.filterMap_some

/-! ## Playing a script -/

/-- The run of a job without result, with a result for its success. -/
def Job.Run.giving {σ α : Type} (a : α) (r : Job.Run σ Unit) : Job.Run σ α :=
  { r with outcome := r.outcome.map fun _ => a }

namespace Storage

variable {σ : Type} (storage : Storage σ)

def attempt : Call → σ → σ × Option Refusal
  | .read p, s =>
    match storage.read p s with
    | .ok _ => (s, none)
    | .error reason => (s, some reason)
  | .makeDir p, s => storage.makeDir p s
  | .write p content, s => storage.write p content s

theorem attempt_read_state (p : Path) (s : σ) : (storage.attempt (.read p) s).1 = s := by
  rw [attempt]
  cases storage.read p s <;> rfl

theorem attempt_read_of_ok {p : Path} {s : σ} {content : Bytes}
    (h : storage.read p s = .ok content) : storage.attempt (.read p) s = (s, none) := by
  rw [attempt, h]

/-- The run that brings about these events in order until a call is refused. -/
def play : List Event → σ → Job.Run σ Unit
  | [], s => ⟨s, [], .ok ()⟩
  | .called c :: rest, s =>
    .after (storage.announce c) <|
      match storage.attempt c s with
      | (s, none) => play rest s
      | (s, some reason) => ⟨s, [], .error (c.fault storage.base reason)⟩
  | .printed line :: rest, s => .after [.printed line] (play rest s)
  | .logged e :: rest, s => .after [.logged e] (play rest s)

/-- These calls, made in order, are all granted and lead from the one store to the other. -/
def Performs : List Call → σ → σ → Prop
  | [], s, s' => s = s'
  | c :: rest, s, s' => ∃ next, storage.attempt c s = (next, none) ∧ Performs rest next s'

/-- The first call to be refused when these calls are made in order. -/
def firstRefusal? : List Call → σ → Option (Call × Refusal)
  | [], _ => none
  | c :: rest, s =>
    match storage.attempt c s with
    | (s, none) => firstRefusal? rest s
    | (_, some reason) => some (c, reason)

end Storage

namespace Job

variable {σ α β : Type}

/-! ## Running one job after another -/

def Run.andThen (r : Run σ α) (next : α → σ → Run σ β) : Run σ β :=
  match r.outcome with
  | .ok a => .after r.events (next a r.store)
  | .error f => ⟨r.store, r.events, .error f⟩

theorem Run.after_after (e e' : List Event) (r : Run σ α) :
    Run.after e (.after e' r) = .after (e ++ e') r := by
  unfold Run.after
  rw [List.append_assoc]

theorem Run.after_andThen (e : List Event) (r : Run σ α) (next : α → σ → Run σ β) :
    (Run.after e r).andThen next = .after e (r.andThen next) := by
  obtain ⟨store, events, outcome⟩ := r
  cases outcome with
  | error f => rfl
  | ok a => exact (Run.after_after e events _).symm

theorem run_bind (storage : Storage σ) (job : Job α) (k : α → Job β) (s : σ) :
    (job >>= k).run storage s = (job.run storage s).andThen fun a => (k a).run storage := by
  change (job.bind k).run storage s = _
  induction job generalizing s with
  | done a => rfl
  | failed f => rfl
  | read p next ih =>
    rw [bind, run, run, Run.after_andThen]
    cases storage.read p s with
    | error reason => rfl
    | ok content => exact congrArg _ (ih content s)
  | makeDir p next ih =>
    rw [bind, run, run, Run.after_andThen]
    obtain ⟨s', refusal⟩ := storage.makeDir p s
    cases refusal with
    | none => exact congrArg _ (ih s')
    | some reason => rfl
  | write p content next ih =>
    rw [bind, run, run, Run.after_andThen]
    obtain ⟨s', refusal⟩ := storage.write p content s
    cases refusal with
    | none => exact congrArg _ (ih s')
    | some reason => rfl
  | print line next ih =>
    rw [bind, run, run, Run.after_andThen, ih]
  | log e next ih =>
    rw [bind, run, run, Run.after_andThen, ih]

theorem play_append (storage : Storage σ) (script more : List Event) (s : σ) :
    storage.play (script ++ more) s =
      (storage.play script s).andThen fun _ => storage.play more := by
  induction script generalizing s with
  | nil => rfl
  | cons e script ih =>
    cases e with
    | called c =>
      rw [List.cons_append, Storage.play, Storage.play, Run.after_andThen]
      obtain ⟨s', refusal⟩ := storage.attempt c s
      cases refusal with
      | none => exact congrArg _ (ih s')
      | some reason => rfl
    | printed line => rw [List.cons_append, Storage.play, Storage.play, Run.after_andThen, ih]
    | logged e => rw [List.cons_append, Storage.play, Storage.play, Run.after_andThen, ih]

/-! ## Announcements -/

theorem calls_announce (storage : Storage σ) (c : Call) :
    (storage.announce c).filterMap Event.call? = [c] := by
  have hnotes : ((storage.notes c).map Event.logged).filterMap Event.call? = [] := by
    rw [List.filterMap_map]
    exact List.filterMap_eq_nil_iff.mpr fun _ _ => rfl
  exact congrArg (c :: ·) hnotes

theorem lines_announce (storage : Storage σ) (c : Call) :
    (storage.announce c).filterMap Event.line? = [] := by
  have hnotes : ((storage.notes c).map Event.logged).filterMap Event.line? = [] := by
    rw [List.filterMap_map]
    exact List.filterMap_eq_nil_iff.mpr fun _ _ => rfl
  exact hnotes

theorem Run.calls_announced (storage : Storage σ) (c : Call) (r : Run σ α) :
    (Run.after (storage.announce c) r).calls = c :: r.calls := by
  rw [Run.calls, Run.after, List.filterMap_append, calls_announce]
  rfl

theorem Run.lines_announced (storage : Storage σ) (c : Call) (r : Run σ α) :
    (Run.after (storage.announce c) r).lines = r.lines := by
  rw [Run.lines, Run.after, List.filterMap_append, lines_announce]
  rfl

/-! ## Refusals -/

theorem outcome_play (storage : Storage σ) (script : List Event) (s : σ) :
    (storage.play script s).outcome =
      match storage.firstRefusal? (callsOf script) s with
      | none => .ok ()
      | some (c, reason) => .error (c.fault storage.base reason) := by
  induction script generalizing s with
  | nil => rfl
  | cons e script ih =>
    cases e with
    | printed line => exact ih s
    | logged e => exact ih s
    | called c =>
      have hcalls : callsOf (.called c :: script) = c :: callsOf script := rfl
      rw [Storage.play, hcalls, Storage.firstRefusal?]
      obtain ⟨s', refusal⟩ := storage.attempt c s
      cases refusal with
      | none => exact ih s'
      | some reason => rfl

theorem mem_of_firstRefusal? {storage : Storage σ} {calls : List Call} {s : σ} {c : Call}
    {reason : Refusal} (h : storage.firstRefusal? calls s = some (c, reason)) : c ∈ calls := by
  induction calls generalizing s with
  | nil => cases h
  | cons first rest ih =>
    rw [Storage.firstRefusal?] at h
    split at h
    · exact List.mem_cons_of_mem _ (ih h)
    · cases h
      exact List.mem_cons_self

/-- The calls that a script makes are refused where the script is. -/
theorem firstRefusal?_play (storage : Storage σ) (script : List Event) (s : σ) :
    storage.firstRefusal? (storage.play script s).calls s =
      storage.firstRefusal? (callsOf script) s := by
  induction script generalizing s with
  | nil => rfl
  | cons e script ih =>
    cases e with
    | printed line => exact ih s
    | logged e => exact ih s
    | called c =>
      have hcalls : callsOf (.called c :: script) = c :: callsOf script := rfl
      rw [Storage.play, Run.calls_announced, hcalls, Storage.firstRefusal?, Storage.firstRefusal?]
      obtain ⟨s', refusal⟩ := storage.attempt c s
      cases refusal with
      | none => exact ih s'
      | some reason => rfl

/-- A script makes no calls but its own. -/
theorem mem_of_mem_calls_play {storage : Storage σ} {script : List Event} {s : σ} {c : Call}
    (h : c ∈ (storage.play script s).calls) : c ∈ callsOf script := by
  induction script generalizing s with
  | nil => cases h
  | cons e script ih =>
    cases e with
    | printed line => exact ih h
    | logged e => exact ih h
    | called first =>
      have hcalls : callsOf (.called first :: script) = first :: callsOf script := rfl
      rw [Storage.play, Run.calls_announced] at h
      rw [hcalls]
      rcases List.mem_cons.mp h with rfl | h
      · exact List.mem_cons_self
      · generalize storage.attempt first s = attempted at h
        obtain ⟨s', refusal⟩ := attempted
        cases refusal with
        | none => exact List.mem_cons_of_mem _ (ih h)
        | some reason => cases h

/-! ## Scripts without refusals -/

section Unrefused

variable {storage : Storage σ}

theorem Run.lines_after (events : List Event) (r : Run σ α) :
    (Run.after events r).lines = linesOf events ++ r.lines :=
  List.filterMap_append

theorem play_called {c : Call} {rest : List Event} {s : σ}
    (h : (storage.play (.called c :: rest) s).outcome = .ok ()) :
    ∃ s', storage.attempt c s = (s', none) ∧
      storage.play (.called c :: rest) s = .after (storage.announce c) (storage.play rest s') := by
  rw [Storage.play] at h ⊢
  cases hattempt : storage.attempt c s with
  | mk s' refusal =>
    cases refusal with
    | none => exact ⟨s', rfl, rfl⟩
    | some reason =>
      rw [hattempt] at h
      cases h

/-- A script of which no call is refused prints all its lines. -/
theorem lines_play {script : List Event} {s : σ}
    (h : (storage.play script s).outcome = .ok ()) :
    (storage.play script s).lines = linesOf script := by
  induction script generalizing s with
  | nil => rfl
  | cons e script ih =>
    cases e with
    | printed line =>
      have hrest := ih h
      rw [Storage.play, Run.lines_after, hrest]
      rfl
    | logged e =>
      have hrest := ih h
      rw [Storage.play, Run.lines_after, hrest]
      rfl
    | called c =>
      obtain ⟨s', -, hplay⟩ := play_called h
      rw [hplay] at h ⊢
      rw [Run.lines_announced]
      exact ih h

theorem store_play_quiet {quiet : List Event} (h : callsOf quiet = []) (s : σ) :
    (storage.play quiet s).store = s := by
  induction quiet with
  | nil => rfl
  | cons e quiet ih =>
    cases e with
    | called c => cases h
    | printed line => exact ih h
    | logged e => exact ih h

/-- If no call of a script is refused, its last call leaves the store as it is in the end. -/
theorem attempt_last {script quiet : List Event} {c : Call} {s : σ} (hquiet : callsOf quiet = [])
    (h : (storage.play (script ++ .called c :: quiet) s).outcome = .ok ()) :
    ∃ before, storage.attempt c before =
      ((storage.play (script ++ .called c :: quiet) s).store, none) := by
  rw [play_append] at h ⊢
  unfold Run.andThen at h ⊢
  cases hscript : (storage.play script s).outcome with
  | error f =>
    rw [hscript] at h
    cases h
  | ok u =>
    rw [hscript] at h
    obtain ⟨after, hattempt, hplay⟩ := play_called h
    refine ⟨(storage.play script s).store, ?_⟩
    dsimp only
    rw [hattempt, hplay]
    exact congrArg (·, none) (store_play_quiet hquiet after).symm

theorem performs_play {script : List Event} {s : σ}
    (h : (storage.play script s).outcome = .ok ()) :
    storage.Performs (callsOf script) s (storage.play script s).store := by
  induction script generalizing s with
  | nil => rfl
  | cons e script ih =>
    cases e with
    | printed line => exact ih h
    | logged e => exact ih h
    | called c =>
      obtain ⟨s', hattempt, hplay⟩ := play_called h
      rw [hplay] at h ⊢
      exact ⟨s', hattempt, ih h⟩

theorem performs_append_iff {calls more : List Call} {s s' : σ} :
    storage.Performs (calls ++ more) s s' ↔
      ∃ between, storage.Performs calls s between ∧ storage.Performs more between s' := by
  induction calls generalizing s with
  | nil =>
    constructor
    · intro h
      exact ⟨s, rfl, h⟩
    · rintro ⟨between, rfl, h⟩
      exact h
  | cons c calls ih =>
    constructor
    · rintro ⟨next, hattempt, hrest⟩
      obtain ⟨between, hcalls, hmore⟩ := ih.mp hrest
      exact ⟨between, ⟨next, hattempt, hcalls⟩, hmore⟩
    · rintro ⟨between, ⟨next, hattempt, hcalls⟩, hmore⟩
      exact ⟨next, hattempt, ih.mpr ⟨between, hcalls, hmore⟩⟩

end Unrefused

/-! ## Following a script -/

/-- On every storage the job brings about the script, and gives `a` when nothing is refused. -/
structure Follows (job : Job α) (script : List Event) (a : α) : Prop where
  run_eq : ∀ {σ : Type} (storage : Storage σ) (s : σ),
    job.run storage s = (storage.play script s).giving a

theorem follows_pure (a : α) : Follows (pure a) [] a :=
  ⟨fun _ _ => rfl⟩

theorem follows_note (level : Log.Level) (origin : Log.Origin) (message : String) :
    Follows (.note level origin message) [.logged ⟨level, origin, message⟩] () :=
  ⟨fun _ _ => rfl⟩

theorem follows_say (line : String) : Follows (.say line) [.printed line] () :=
  ⟨fun _ _ => rfl⟩

theorem follows_prepareDir (p : Path) : Follows (.prepareDir p) [.called (.makeDir p)] () where
  run_eq storage s := by
    rw [prepareDir, run, Storage.play, Storage.attempt]
    obtain ⟨s', refusal⟩ := storage.makeDir p s
    cases refusal <;> rfl

theorem follows_store (p : Path) (content : Bytes) :
    Follows (.store p content) [.called (.write p content)] () where
  run_eq storage s := by
    rw [store, run, Storage.play, Storage.attempt]
    obtain ⟨s', refusal⟩ := storage.write p content s
    cases refusal <;> rfl

theorem Follows.bind {job : Job α} {k : α → Job β} {script more : List Event} {a : α} {b : β}
    (h : Follows job script a) (h' : Follows (k a) more b) :
    Follows (job >>= k) (script ++ more) b where
  run_eq storage s := by
    rw [run_bind, h.run_eq, play_append]
    obtain ⟨store, events, outcome⟩ := storage.play script s
    cases outcome with
    | error f => rfl
    | ok u => exact congrArg (Run.after events) (h'.run_eq storage store)

end Job

end LetterPages
