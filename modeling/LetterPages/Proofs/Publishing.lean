import LetterPages.Proofs.MemoryRuns
import LetterPages.Publication

/-!
# What publishing does

Publishing a plan follows a script: the directory, the chunk files in order, the directory of the
metadata and the metadata. In memory this tells the calls, the store, the lines and the outcome for
every set of failures.
-/

namespace LetterPages.Publication

/-! ## The script of publishing -/

def chunkCall (s : Settings) (c : Chunk) : Call :=
  .write (chunkPath s.outputDir c) c.encode

/-- The directory made before a file is written, unless the file has no parent or lies directly in
the base. -/
def parentCalls (path : Path) : List Call :=
  match path.parent? with
  | none => []
  | some dir => if dir.bytes = [] then [] else [.makeDir dir]

/-- The calls that publish a plan when none of them is refused. -/
def plannedCalls (s : Settings) (plan : Plan) : List Call :=
  .makeDir s.outputDir :: (plan.chunks.map (chunkCall s) ++
    (parentCalls s.metadataPath ++ [.write s.metadataPath plan.metadata.encode]))

def progressLine (s : Settings) (c : Chunk) : String :=
  Console.wrote s.locale (chunkPath s.outputDir c).shown c.size

def closingLines (s : Settings) (plan : Plan) : List String :=
  ["", Console.total s.locale plan.metadata.totalLetters.toNat plan.metadata.chunks.toNat]

def chunkScript (s : Settings) (c : Chunk) : List Event :=
  [.called (chunkCall s c),
    .logged ⟨.debug, .writer, s!"Chunk {c.index} encoded to {c.encode.length} bytes"⟩,
    .printed (progressLine s c)]

def metadataScript (path : Path) (m : Metadata) : List Event :=
  (parentCalls path).map .called ++
    [.logged ⟨.debug, .writer, s!"Writing metadata ({m.encode.length} bytes) to {path.shown}"⟩,
      .called (.write path m.encode)]

def script (s : Settings) (plan : Plan) : List Event :=
  .called (.makeDir s.outputDir) :: (plan.chunks.flatMap (chunkScript s) ++
    (metadataScript s.metadataPath plan.metadata ++ (closingLines s plan).map .printed))

def receipt (s : Settings) (plan : Plan) : Receipt :=
  ⟨plan.chunks.map (chunkPath s.outputDir), s.metadataPath, plan.metadata⟩

theorem follows_writeChunk (s : Settings) (c : Chunk) :
    Job.Follows (writeChunk s.outputDir s.locale c) (chunkScript s c) (chunkPath s.outputDir c) :=
  (Job.follows_store _ _).bind ((Job.follows_note _ _ _).bind
    ((Job.follows_say _).bind (Job.follows_pure _)))

theorem follows_writeEach (s : Settings) (chunks : List Chunk) :
    Job.Follows (writeEach s.outputDir s.locale chunks) (chunks.flatMap (chunkScript s))
      (chunks.map (chunkPath s.outputDir)) := by
  induction chunks with
  | nil => exact Job.follows_pure []
  | cons c rest ih =>
    rw [List.flatMap_cons, ← List.append_nil (rest.flatMap (chunkScript s))]
    exact (follows_writeChunk s c).bind (ih.bind (Job.follows_pure _))

theorem neededDir?_eq (path : Path) :
    (neededDir? path).toList.map Call.makeDir = parentCalls path := by
  unfold neededDir? parentCalls
  cases path.parent? with
  | none => rfl
  | some dir =>
    cases hdir : dir.bytes with
    | nil => simp [Option.filter, hdir]
    | cons b rest => simp [Option.filter, hdir]

theorem follows_writeMetadata (path : Path) (m : Metadata) :
    Job.Follows (writeMetadata path m) (metadataScript path m) () := by
  rw [writeMetadata, metadataScript, ← neededDir?_eq]
  cases neededDir? path with
  | none =>
    exact (Job.follows_note _ _ _).bind (Job.follows_store path m.encode)
  | some dir =>
    refine Job.Follows.bind (Job.follows_prepareDir dir) ?_
    exact (Job.follows_note _ _ _).bind (Job.follows_store path m.encode)

theorem follows_publish (s : Settings) (plan : Plan) :
    Job.Follows (publish s plan) (script s plan) (receipt s plan) :=
  ((Job.follows_prepareDir s.outputDir).bind (follows_writeEach s plan.chunks)).bind
    ((follows_writeMetadata s.metadataPath plan.metadata).bind
      ((Job.follows_say _).bind ((Job.follows_say _).bind (Job.follows_pure _))))

theorem callsOf_metadataScript (path : Path) (m : Metadata) :
    callsOf (metadataScript path m) = parentCalls path ++ [.write path m.encode] := by
  rw [metadataScript, callsOf_append, callsOf_called]
  rfl

theorem linesOf_metadataScript (path : Path) (m : Metadata) :
    linesOf (metadataScript path m) = [] := by
  rw [metadataScript, linesOf, List.filterMap_append, List.filterMap_map]
  exact List.append_eq_nil_iff.mpr ⟨List.filterMap_eq_nil_iff.mpr fun _ _ => rfl, rfl⟩

theorem callsOf_chunkScripts (s : Settings) (chunks : List Chunk) :
    callsOf (chunks.flatMap (chunkScript s)) = chunks.map (chunkCall s) := by
  induction chunks with
  | nil => rfl
  | cons c rest ih =>
    rw [List.flatMap_cons, callsOf_append, ih]
    rfl

theorem callsOf_script (s : Settings) (plan : Plan) :
    callsOf (script s plan) = plannedCalls s plan := by
  have hrest : callsOf (plan.chunks.flatMap (chunkScript s) ++
      (metadataScript s.metadataPath plan.metadata ++ (closingLines s plan).map .printed)) =
      plan.chunks.map (chunkCall s) ++
        (parentCalls s.metadataPath ++ [.write s.metadataPath plan.metadata.encode]) := by
    rw [callsOf_append, callsOf_append, callsOf_chunkScripts, callsOf_metadataScript,
      callsOf_printed, List.append_nil]
  exact congrArg _ hrest

theorem linesOf_chunkScripts (s : Settings) (chunks : List Chunk) :
    linesOf (chunks.flatMap (chunkScript s)) = chunks.map (progressLine s) := by
  induction chunks with
  | nil => rfl
  | cons c rest ih =>
    rw [List.flatMap_cons, linesOf_append, ih]
    rfl

theorem linesOf_script (s : Settings) (plan : Plan) :
    linesOf (script s plan) = plan.chunks.map (progressLine s) ++ closingLines s plan := by
  have hrest : linesOf (plan.chunks.flatMap (chunkScript s) ++
      (metadataScript s.metadataPath plan.metadata ++ (closingLines s plan).map .printed)) =
      plan.chunks.map (progressLine s) ++ closingLines s plan := by
    rw [linesOf_append, linesOf_append, linesOf_chunkScripts, linesOf_metadataScript,
      linesOf_printed, List.nil_append]
  exact hrest

theorem makeDir_of_mem_parentCalls {path : Path} {c : Call} (h : c ∈ parentCalls path) :
    ∃ dir, c = .makeDir dir := by
  unfold parentCalls at h
  split at h
  · cases h
  · split at h
    · cases h
    · exact ⟨_, List.mem_singleton.mp h⟩

theorem isOutput_of_mem_plannedCalls {s : Settings} {plan : Plan} {c : Call}
    (h : c ∈ plannedCalls s plan) : c.IsOutput := by
  unfold plannedCalls at h
  rw [List.mem_cons, List.mem_append, List.mem_append, List.mem_singleton] at h
  rcases h with rfl | h | h | rfl
  · trivial
  · obtain ⟨c, _, rfl⟩ := List.mem_map.mp h
    trivial
  · obtain ⟨dir, rfl⟩ := makeDir_of_mem_parentCalls h
    trivial
  · trivial

/-! ## Publishing without refusals -/

/-- The script of publishing with its last call set apart. -/
theorem script_eq (s : Settings) (plan : Plan) : ∃ before, script s plan =
    before ++ .called (.write s.metadataPath plan.metadata.encode) ::
      (closingLines s plan).map .printed := by
  unfold script metadataScript
  simp only [List.append_assoc, List.cons_append, List.nil_append]
  exact ⟨.called (.makeDir s.outputDir) :: (plan.chunks.flatMap (chunkScript s) ++
    ((parentCalls s.metadataPath).map .called ++ [.logged _])), by simp; rfl⟩

/-- A publication without a fault has printed all its lines, and has written its metadata last. -/
theorem publish_ok {σ : Type} {storage : Storage σ} {s : Settings} {plan : Plan} {st : σ}
    {written : Receipt} (h : ((publish s plan).run storage st).outcome = .ok written) :
    let r := (publish s plan).run storage st
    r.lines = plan.chunks.map (progressLine s) ++ closingLines s plan ∧
    ∃ before, storage.write s.metadataPath plan.metadata.encode before = (r.store, none) := by
  intro r
  have hr : r = (storage.play (script s plan) st).giving (receipt s plan) :=
    (follows_publish s plan).run_eq storage st
  have hplay : (storage.play (script s plan) st).outcome = .ok () := by
    change r.outcome = .ok written at h
    rw [hr] at h
    unfold Job.Run.giving at h
    cases houtcome : (storage.play (script s plan) st).outcome with
    | error f =>
      rw [houtcome] at h
      cases h
    | ok u => rfl
  obtain ⟨before, hbefore⟩ := script_eq s plan
  rw [hr]
  constructor
  · rw [← linesOf_script]
    exact Job.lines_play hplay
  · rw [hbefore] at hplay ⊢
    exact Job.attempt_last (callsOf_printed _) hplay

/-! ## Publishing in memory -/

/-- The lines of chunk scripts, when what comes after them prints only if all is granted. -/
theorem linesOf_performed_chunks (m : Memory) (s : Settings) (more : List Event)
    (closing : List String) (hmore : linesOf (m.performed more) =
      if m.granted (callsOf more) = callsOf more then closing else [])
    (chunks : List Chunk) :
    linesOf (m.performed (chunks.flatMap (chunkScript s) ++ more)) =
      (chunks.take (m.granted (chunks.map (chunkCall s) ++ callsOf more)).length).map
        (progressLine s) ++
      if m.granted (chunks.map (chunkCall s) ++ callsOf more) =
        chunks.map (chunkCall s) ++ callsOf more then closing else [] := by
  induction chunks with
  | nil =>
    rw [List.take_nil]
    exact hmore
  | cons c rest ih =>
    have hscript : (c :: rest).flatMap (chunkScript s) ++ more =
        .called (chunkCall s c) :: _ :: .printed (progressLine s c) ::
          (rest.flatMap (chunkScript s) ++ more) := rfl
    rw [hscript, Memory.performed, List.map_cons, List.cons_append]
    cases hrefusal : m.refusalOf (chunkCall s c) with
    | none =>
      rw [Memory.granted_cons_of_none _ hrefusal, List.length_cons, List.take_succ_cons,
        List.map_cons, List.cons_append]
      simp only [List.cons.injEq, true_and]
      exact congrArg _ ih
    | some reason =>
      rw [Memory.granted_cons_of_some _ hrefusal, if_neg (List.cons_ne_nil _ _).symm]
      rfl

theorem run_publish (base : Path) (s : Settings) (plan : Plan) (m : Memory) :
    (publish s plan).run (.memory base) m =
      { store := (m.granted (plannedCalls s plan)).foldl Memory.perform m
        events := m.performed (script s plan)
        outcome :=
          match m.firstRefused (plannedCalls s plan) with
          | none => .ok (receipt s plan)
          | some (c, reason) => .error (c.fault base reason) } := by
  have houtput : ∀ c ∈ callsOf (script s plan), c.IsOutput := by
    intro c hc
    rw [callsOf_script] at hc
    exact isOutput_of_mem_plannedCalls hc
  rw [(follows_publish s plan).run_eq, play_memory base houtput, callsOf_script]
  unfold Job.Run.giving
  cases m.firstRefused (plannedCalls s plan) <;> rfl

theorem linesOf_performed_script (s : Settings) (plan : Plan) (m : Memory) :
    linesOf (m.performed (script s plan)) =
      (plan.chunks.take ((m.granted (plannedCalls s plan)).length - 1)).map (progressLine s) ++
        if m.granted (plannedCalls s plan) = plannedCalls s plan then closingLines s plan
        else [] := by
  have hmetadata := linesOf_performed_quiet m (linesOf_metadataScript s.metadataPath plan.metadata)
    (closingLines s plan)
  have hchunks := linesOf_performed_chunks m s
    (metadataScript s.metadataPath plan.metadata ++ (closingLines s plan).map .printed)
    (closingLines s plan) (by rw [hmetadata, callsOf_append, callsOf_printed, List.append_nil])
    plan.chunks
  rw [callsOf_append, callsOf_printed, List.append_nil, callsOf_metadataScript] at hchunks
  rw [script, plannedCalls, Memory.performed]
  cases hrefusal : m.refusalOf (.makeDir s.outputDir) with
  | none =>
    rw [Memory.granted_cons_of_none _ hrefusal]
    simp only [List.cons.injEq, true_and]
    exact hchunks
  | some reason =>
    rw [Memory.granted_cons_of_some _ hrefusal, if_neg (List.cons_ne_nil _ _).symm]
    rfl

end LetterPages.Publication
