import LetterPages.Proofs.RunFaults

/-!
# Running again

What a script has written stays as it is when the script is played again: of several writes under
one key the last one counts, and it finds its content in place. So a run that leaves its input alone
can be repeated without a trace.
-/

namespace LetterPages

namespace Memory

/-! ## Writing what is there -/

section Replace

variable {key other : String} {files : List (String × Bytes)} (content more : Bytes)

theorem replace_of_lookup (h : files.lookup key = some content) :
    replace key content files = files := by
  induction files with
  | nil => cases h
  | cons f rest ih =>
    obtain ⟨name, held⟩ := f
    rw [replace]
    by_cases hname : name = key
    · subst hname
      rw [List.lookup_cons, beq_self_eq_true] at h
      cases h
      exact if_pos rfl
    · rw [List.lookup_cons, beq_eq_false_iff_ne.mpr (Ne.symm hname)] at h
      rw [if_neg hname, ih h]

theorem replace_replace :
    replace key more (replace key content files) = replace key more files := by
  induction files with
  | nil => exact if_pos rfl
  | cons f rest ih =>
    by_cases hname : f.1 = key
    · simp [replace, hname]
    · simp [replace, hname, ih]

/-- Under different keys the order of two writes does not matter, unless both are new. -/
theorem replace_comm (hne : key ≠ other) (h : (files.lookup key).isSome) :
    replace other more (replace key content files) =
      replace key content (replace other more files) := by
  induction files with
  | nil => cases h
  | cons f rest ih =>
    obtain ⟨name, held⟩ := f
    rw [List.lookup_cons] at h
    by_cases hkey : name = key
    · subst hkey
      simp [replace, hne]
    · rw [beq_eq_false_iff_ne.mpr (Ne.symm hkey)] at h
      by_cases hother : name = other
      · subst hother
        simp [replace, Ne.symm hne]
      · simp [replace, hkey, hother, ih h]

end Replace

/-! ## Playing calls again -/

/-- What the last write under a key has written. -/
def lastWritten? (key : String) : List Call → Option Bytes
  | [] => none
  | .write p content :: rest =>
    (lastWritten? key rest).or (if p.shown = key then some content else none)
  | _ :: rest => lastWritten? key rest

theorem get?_foldl_perform_eq (calls : List Call) (key : String) (m : Memory) :
    (calls.foldl perform m).get? key = (lastWritten? key calls).or (m.get? key) := by
  induction calls generalizing m with
  | nil => rfl
  | cons c rest ih =>
    rw [List.foldl_cons, ih]
    cases c with
    | read p => rfl
    | makeDir p => rfl
    | write p content =>
      rw [perform, get?_put, lastWritten?, Option.or_assoc]
      by_cases h : key = p.shown
      · rw [if_pos h, if_pos h.symm, Option.some_or]
      · rw [if_neg h, if_neg (Ne.symm h), Option.none_or]

/-- A write has no effect if another one under its key follows. -/
theorem foldl_perform_put {calls : List Call} {key : String} {later : Bytes}
    (hlater : lastWritten? key calls = some later) {m : Memory} (hkey : (m.get? key).isSome)
    (content : Bytes) : calls.foldl perform (m.put key content) = calls.foldl perform m := by
  induction calls generalizing m with
  | nil => cases hlater
  | cons c rest ih =>
    rw [List.foldl_cons, List.foldl_cons]
    cases c with
    | read p => exact ih hlater hkey
    | makeDir p => exact ih hlater hkey
    | write p written =>
      rw [perform, perform]
      by_cases h : p.shown = key
      · rw [h, put, put, put, replace_replace]
      · have hcomm : (m.put key content).put p.shown written =
            (m.put p.shown written).put key content := by
          rw [put, put, put, put, replace_comm _ _ (Ne.symm h) hkey]
        rw [lastWritten?, if_neg h, Option.or_none] at hlater
        rw [hcomm]
        apply ih hlater
        rw [get?_put, if_neg (Ne.symm h)]
        exact hkey

theorem foldl_perform_eq_self {calls : List Call} {m : Memory}
    (h : ∀ key content, lastWritten? key calls = some content → m.get? key = some content) :
    calls.foldl perform m = m := by
  induction calls with
  | nil => rfl
  | cons c rest ih =>
    rw [List.foldl_cons]
    cases c with
    | read p => exact ih h
    | makeDir p => exact ih h
    | write p written =>
      have hrest : ∀ key content, lastWritten? key rest = some content →
          m.get? key = some content := by
        intro key content hlast
        apply h
        rw [lastWritten?, hlast, Option.some_or]
      cases hlast : lastWritten? p.shown rest with
      | none =>
        have hheld : m.get? p.shown = some written := by
          apply h
          rw [lastWritten?, hlast, if_pos rfl, Option.none_or]
        rw [perform, put, replace_of_lookup written hheld]
        exact ih hrest
      | some later =>
        have hheld : (m.get? p.shown).isSome := by
          rw [hrest p.shown later hlast]
          rfl
        rw [perform, foldl_perform_put hlast hheld]
        exact ih hrest

theorem foldl_perform_twice (calls : List Call) (m : Memory) :
    calls.foldl perform (calls.foldl perform m) = calls.foldl perform m := by
  apply foldl_perform_eq_self
  intro key content hlast
  rw [get?_foldl_perform_eq, hlast, Option.some_or]

/-- What no call changes is the same after any calls. -/
theorem foldl_perform_keeps {γ : Type} (f : Memory → γ) (hf : ∀ m c, f (m.perform c) = f m)
    (calls : List Call) (m : Memory) : f (calls.foldl perform m) = f m := by
  induction calls generalizing m with
  | nil => rfl
  | cons c rest ih =>
    rw [List.foldl_cons, ih, hf]

theorem refusal?_perform (m : Memory) (c : Call) : (m.perform c).refusal? = m.refusal? := by
  cases c <;> rfl

theorem granted_of_firstRefused {m : Memory} {calls : List Call}
    (h : m.firstRefused calls = none) : m.granted calls = calls := by
  apply granted_eq_self
  intro c hc
  rw [firstRefused, List.findSome?_eq_none_iff] at h
  exact Option.map_eq_none_iff.mp (h c (List.mem_of_mem_take hc))

end Memory

/-! ## Whole runs -/

namespace Publication

/-- A publication that succeeds makes all its calls, and can be repeated without a trace. -/
theorem publish_again (base : Path) (s : Settings) (plan : Plan) {m : Memory} {written : Receipt}
    (h : ((publish s plan).run (.memory base) m).outcome = .ok written) :
    let r := (publish s plan).run (.memory base) m
    r.calls = plannedCalls s plan ∧ r.store = (plannedCalls s plan).foldl Memory.perform m ∧
      (publish s plan).run (.memory base) r.store = r := by
  intro r
  have hall : m.granted (plannedCalls s plan) = plannedCalls s plan := by
    rw [run_publish] at h
    apply Memory.granted_of_firstRefused
    cases hrefused : m.firstRefused (plannedCalls s plan) with
    | none => rfl
    | some refused =>
      rw [hrefused] at h
      cases h
  have hr : r = _ := run_publish base s plan m
  rw [hall] at hr
  have hstore : r.store = (plannedCalls s plan).foldl Memory.perform m :=
    congrArg Job.Run.store hr
  refine ⟨?_, hstore, ?_⟩
  · have hcalls : r.calls = callsOf (m.performed (script s plan)) := congrArg Job.Run.calls hr
    rw [hcalls, callsOf_performed, callsOf_script, hall]
    exact List.take_of_length_le (Nat.le_succ _)
  · rw [run_publish, hstore,
      Memory.foldl_perform_keeps Memory.granted Memory.granted_perform,
      Memory.foldl_perform_keeps Memory.firstRefused Memory.firstRefused_perform,
      Memory.foldl_perform_keeps Memory.performed Memory.performed_perform, hall,
      Memory.foldl_perform_twice, hr]

/-- An input that no call writes is read as before. -/
theorem read_foldl_perform {path : Path} {calls : List Call}
    (h : ∀ p content, .write p content ∈ calls → p.shown ≠ path.shown) (m : Memory) :
    (calls.foldl Memory.perform m).read path = m.read path := by
  rw [Memory.read, Memory.read, Memory.get?_foldl_perform h,
    Memory.foldl_perform_keeps Memory.refusal? Memory.refusal?_perform]

/-- A run that succeeds and does not write over its input can be repeated: the second run makes the
same calls, prints the same lines and gives the same receipt, and leaves the store as it found it. -/
theorem run_again (base : Path) (s : Settings) (isMonitored : Bool) (m : Memory)
    (written : Receipt)
    (hok : ((run base s isMonitored).run (.memory base) m).outcome = .ok written)
    (hinput : ∀ p content,
      .write p content ∈ ((run base s isMonitored).run (.memory base) m).calls →
        p.shown ≠ s.inputPath.shown) :
    let first := (run base s isMonitored).run (.memory base) m
    let second := (run base s isMonitored).run (.memory base) first.store
    second.outcome = .ok written ∧ second.calls = first.calls ∧ second.lines = first.lines ∧
      second.store = first.store := by
  intro first second
  cases hplan : planOf base s (m.read s.inputPath) with
  | error f =>
    obtain ⟨-, -, -, houtcome⟩ := run_of_fault base isMonitored hplan
    rw [houtcome] at hok
    cases hok
  | ok plan =>
    obtain ⟨hcalls, hstore, hlines, houtcome⟩ := run_of_plan base isMonitored hplan
    rw [houtcome] at hok
    obtain ⟨hplanned, hleft, hagain⟩ := publish_again base s plan hok
    have hread : first.store.read s.inputPath = m.read s.inputPath := by
      rw [hstore, hleft]
      apply read_foldl_perform
      intro p content hmem
      apply hinput p content
      rw [hcalls, hplanned]
      exact List.mem_cons_of_mem _ hmem
    have hplan' : planOf base s (first.store.read s.inputPath) = .ok plan := by rw [hread, hplan]
    obtain ⟨hcalls', hstore', hlines', houtcome'⟩ := run_of_plan base isMonitored hplan'
    have hsame : (publish s plan).run (.memory base) first.store =
        (publish s plan).run (.memory base) m := by rw [hstore, hagain]
    rw [hsame] at hcalls' hstore' hlines' houtcome'
    exact ⟨houtcome'.trans hok, hcalls'.trans hcalls.symm, hlines'.trans hlines.symm,
      hstore'.trans hstore.symm⟩

/-- The metadata goes over the first of two chunk files, and does so again. -/
theorem run_again_over_chunk_file :
    let base : Path := .ofString "/work"
    let s : Settings := { Settings.standard with
      metadataPath := .ofString "data/chunks/letters-chunk-00.json", chunkSize := 1 }
    let m : Memory := ⟨[("_data/letters.csv", Utf8.ofString "id\n1\n2\n")], []⟩
    let first := (run base s false).run (.memory base) m
    let second := (run base s false).run (.memory base) first.store
    ∃ written, first.outcome = .ok written ∧
      written.chunkFiles.map Path.shown =
        ["data/chunks/letters-chunk-00.json", "data/chunks/letters-chunk-01.json"] ∧
      first.store.get? "data/chunks/letters-chunk-00.json" = some written.metadata.encode ∧
      second.outcome = .ok written ∧ second.calls = first.calls ∧ second.lines = first.lines ∧
      second.store = first.store := by
  intro base s m first second
  let written : Receipt :=
    ⟨[.ofString "data/chunks/letters-chunk-00.json", .ofString "data/chunks/letters-chunk-01.json"],
      .ofString "data/chunks/letters-chunk-00.json", ⟨2, 2, 1, ["id"]⟩⟩
  have hok : first.outcome = .ok written := eq_ok_of_toOption (by decide +kernel)
  have hkeys : first.calls.all (fun c =>
      decide (c = .read s.inputPath) || c.path.shown != "_data/letters.csv") = true := by
    decide +kernel
  have hinput : ∀ p content, .write p content ∈ first.calls → p.shown ≠ s.inputPath.shown := by
    intro p content hmem hkey
    have hkept := List.all_eq_true.mp hkeys _ hmem
    have hshown : s.inputPath.shown = "_data/letters.csv" := by decide +kernel
    simp [Call.path, hkey, hshown] at hkept
  exact ⟨written, hok, by decide +kernel, by decide +kernel,
    run_again base s false m written hok hinput⟩

end Publication

end LetterPages
