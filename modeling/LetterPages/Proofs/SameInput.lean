import LetterPages.Proofs.Overwriting
import LetterPages.Proofs.Reconstruction

/-!
# Runs on the same input

The bytes of the input and the chunk size decide whether a run fails, with which variant of fault,
and what it writes. Where the files lie, what else the store holds, the base and the language of the
lines do not show in any of these.
-/

namespace LetterPages

/-! ## Variants of faults -/

/-- The variants by which a fault is told apart before its texts are looked at. -/
inductive Fault.Kind where
  | inputNotFound
  | inputUnreadable
  | inputMalformed
  | outputDirectory
  | outputWrite
  | serialization
  | invalidValue
  | configuration
  deriving DecidableEq, Repr

def Fault.kind : Fault → Kind
  | inputNotFound .. => .inputNotFound
  | inputUnreadable .. => .inputUnreadable
  | inputMalformed .. => .inputMalformed
  | outputDirectory .. => .outputDirectory
  | outputWrite .. => .outputWrite
  | serialization .. => .serialization
  | invalidValue .. => .invalidValue
  | configurationUnreadable .. => .configuration
  | configurationMalformed .. => .configuration

/-! ## Written files -/

def Call.written? : Call → Option (Path × Bytes)
  | write p content => some (p, content)
  | _ => none

/-- The files that calls write, in order, with their contents. -/
def writesOf (calls : List Call) : List (Path × Bytes) :=
  calls.filterMap Call.written?

namespace Publication

/-- The run has succeeded, has written its chunk files with these contents and then its metadata with
that text, and all of them are in place. -/
structure Publishes (s : Settings) (r : Job.Run Memory Receipt) (receipt : Receipt)
    (contents : List Bytes) (manifest : Bytes) : Prop where
  outcome_eq : r.outcome = .ok receipt
  length_eq : receipt.chunkFiles.length = contents.length
  writes_eq : writesOf r.calls =
    receipt.chunkFiles.zip contents ++ [(s.metadataPath, manifest)]
  chunkFiles_eq : receipt.chunkFiles.map (fun p => r.store.get? p.shown) = contents.map some
  metadata_eq : r.store.get? s.metadataPath.shown = some manifest

theorem writesOf_plannedCalls (s : Settings) (plan : Plan) : writesOf (plannedCalls s plan) =
    (plan.chunks.map (chunkPath s.outputDir)).zip (plan.chunks.map Chunk.encode) ++
      [(s.metadataPath, plan.metadata.encode)] := by
  have hparents : writesOf (parentCalls s.metadataPath) = [] := by
    apply List.filterMap_eq_nil_iff.mpr
    intro c hc
    obtain ⟨dir, rfl⟩ := makeDir_of_mem_parentCalls hc
    rfl
  have hchunks : writesOf (plan.chunks.map (chunkCall s)) =
      (plan.chunks.map (chunkPath s.outputDir)).zip (plan.chunks.map Chunk.encode) := by
    rw [writesOf, List.filterMap_map, List.zip_map', ← List.filterMap_eq_map]
    rfl
  rw [plannedCalls, writesOf, List.filterMap_cons, List.filterMap_append, List.filterMap_append]
  simp only [writesOf] at hparents hchunks
  rw [hchunks, hparents]
  rfl

/-! ## What decides a run -/

/-- What the bytes of an input and a chunk size decide: the variant of the fault, or the plan. -/
def decided (input : Bytes) (size : UInt64) : Except Fault.Kind Plan :=
  match Csv.read input with
  | .error _ => .error .inputMalformed
  | .ok data => if size = 0 then .error .invalidValue else .ok (.pages data size)

section Decided

variable (base : Path) {s : Settings} (isMonitored : Bool) {m : Memory} {input : Bytes}

/-- Planning looks at the places of the files only to name the input in a fault. -/
theorem planOf_cases_of_input (s : Settings) (input : Bytes) :
    (∃ f, decided input s.chunkSize = .error f.kind ∧ planOf base s (.ok input) = .error f) ∨
    ∃ data, Csv.read input = .ok data ∧ s.chunkSize ≠ 0 ∧
      decided input s.chunkSize = .ok (.pages data s.chunkSize) ∧
      planOf base s (.ok input) = .ok (.pages data s.chunkSize) := by
  cases hread : Csv.read input with
  | error flaw =>
    left
    exact ⟨.inputMalformed (base.join s.inputPath) flaw, by simp [decided, hread, Fault.kind],
      by simp [planOf, lettersOf, hread, Except.mapError]⟩
  | ok data =>
    have hplan : planOf base s (.ok input) = Plan.ofDataset data s.chunkSize := by
      simp [planOf, lettersOf, hread, Except.mapError]
    rw [hplan, Plan.ofDataset_eq]
    by_cases hsize : s.chunkSize = 0
    · left
      simp [decided, hread, hsize, Fault.kind]
    · right
      simp [decided, hread, hsize]

variable (hinput : m.get? s.inputPath.shown = some input)
  (hgranted : ∀ c ∈ ((run base s isMonitored).run (.memory base) m).calls, m.refusalOf c = none)

include hinput hgranted

theorem read_of_granted : m.read s.inputPath = .ok input := by
  have hreading : m.refusal? .read s.inputPath = none :=
    hgranted _ (read_mem_calls_run (.memory base) s isMonitored m)
  rw [Memory.read, hreading, hinput]

theorem run_fails {kind : Fault.Kind} (h : decided input s.chunkSize = .error kind) :
    ∃ f, ((run base s isMonitored).run (.memory base) m).outcome = .error f ∧ f.kind = kind := by
  have hread := read_of_granted base isMonitored hinput hgranted
  rcases planOf_cases_of_input base s input with ⟨f, hdecided, hplan⟩ | ⟨data, -, -, hdecided, -⟩
  · rw [← hread] at hplan
    obtain ⟨-, -, -, houtcome⟩ := run_of_fault base isMonitored hplan
    exact ⟨f, houtcome, Except.error.inj (hdecided.symm.trans h)⟩
  · cases hdecided.symm.trans h

theorem run_publishes {plan : Plan} (h : decided input s.chunkSize = .ok plan)
    (hapart : ∀ receipt, ((run base s isMonitored).run (.memory base) m).outcome = .ok receipt →
      ∀ p ∈ receipt.chunkFiles, p.shown ≠ s.metadataPath.shown) :
    Publishes s ((run base s isMonitored).run (.memory base) m) (receipt s plan)
      (plan.chunks.map Chunk.encode) plan.metadata.encode := by
  have hread := read_of_granted base isMonitored hinput hgranted
  rcases planOf_cases_of_input base s input with
    ⟨f, hdecided, -⟩ | ⟨data, hcsv, hsize, hdecided, hplan⟩
  · cases hdecided.symm.trans h
  · obtain rfl : plan = .pages data s.chunkSize := Except.ok.inj (h.symm.trans hdecided)
    rw [← hread] at hplan
    obtain ⟨hstore, houtcome⟩ := run_granted base isMonitored hcsv hsize hinput hgranted
    obtain ⟨hcalls, -, -, hpublish⟩ := run_of_plan base isMonitored hplan
    obtain ⟨hplanned, -, -⟩ := publish_again base s _ (hpublish.symm.trans houtcome)
    have hindex : ((Plan.pages data s.chunkSize).chunks.map Chunk.index).Nodup :=
      (Chunk.pages_spec data.records s.chunkSize.toNat).nodup_index
    constructor
    · exact houtcome
    · rw [receipt, List.length_map, List.length_map]
    · rw [hcalls, hplanned]
      exact writesOf_plannedCalls s _
    · rw [receipt, List.map_map, List.map_map]
      apply List.map_congr_left
      intro c hc
      have hkey : (chunkPath s.outputDir c).shown ≠ s.metadataPath.shown :=
        hapart _ houtcome _ (List.mem_map.mpr ⟨c, hc, rfl⟩)
      rw [Function.comp_apply, hstore, get?_chunkPath hindex hc, if_neg hkey]
      rfl
    · rw [hstore, Memory.foldl_plannedCalls, Memory.get?_put, if_pos rfl]

end Decided

/-! ## Two runs -/

/-- Two runs that find the same bytes at their inputs, ask for the same chunk size, have no call
refused and put their metadata apart from their chunk files fail with the same variant of fault or
write the same: as many chunk files with the same contents in order, and the same metadata. When
they also write to the same places, their receipts agree. -/
theorem runs_agree (base base' : Path) (s s' : Settings) (isMonitored isMonitored' : Bool)
    (m m' : Memory) (input : Bytes) (hsize : s.chunkSize = s'.chunkSize)
    (hinput : m.get? s.inputPath.shown = some input)
    (hinput' : m'.get? s'.inputPath.shown = some input)
    (hgranted : ∀ c ∈ ((run base s isMonitored).run (.memory base) m).calls,
      m.refusalOf c = none)
    (hgranted' : ∀ c ∈ ((run base' s' isMonitored').run (.memory base') m').calls,
      m'.refusalOf c = none)
    (hapart : ∀ receipt, ((run base s isMonitored).run (.memory base) m).outcome = .ok receipt →
      ∀ p ∈ receipt.chunkFiles, p.shown ≠ s.metadataPath.shown)
    (hapart' : ∀ receipt,
      ((run base' s' isMonitored').run (.memory base') m').outcome = .ok receipt →
      ∀ p ∈ receipt.chunkFiles, p.shown ≠ s'.metadataPath.shown) :
    let r := (run base s isMonitored).run (.memory base) m
    let r' := (run base' s' isMonitored').run (.memory base') m'
    (∃ f f', r.outcome = .error f ∧ r'.outcome = .error f' ∧ f.kind = f'.kind) ∨
    ∃ receipt receipt' contents manifest,
      Publishes s r receipt contents manifest ∧ Publishes s' r' receipt' contents manifest ∧
      (s.outputDir = s'.outputDir → s.metadataPath = s'.metadataPath → receipt = receipt') := by
  intro r r'
  cases hdecided : decided input s.chunkSize with
  | error kind =>
    have hdecided' : decided input s'.chunkSize = .error kind := hsize ▸ hdecided
    obtain ⟨f, hf, hkind⟩ := run_fails base isMonitored hinput hgranted hdecided
    obtain ⟨f', hf', hkind'⟩ := run_fails base' isMonitored' hinput' hgranted' hdecided'
    exact .inl ⟨f, f', hf, hf', hkind.trans hkind'.symm⟩
  | ok plan =>
    have hdecided' : decided input s'.chunkSize = .ok plan := hsize ▸ hdecided
    refine .inr ⟨receipt s plan, receipt s' plan, plan.chunks.map Chunk.encode,
      plan.metadata.encode, ?_, ?_, ?_⟩
    · exact run_publishes base isMonitored hinput hgranted hdecided hapart
    · exact run_publishes base' isMonitored' hinput' hgranted' hdecided' hapart'
    · intro hdir hmetadata
      rw [receipt, receipt, hdir, hmetadata]

/-- Two letters on a page each, once at the standard places and once at other ones, in another
language and beside leavings of an earlier run. -/
theorem runs_agree_elsewhere :
    let s : Settings := { Settings.standard with chunkSize := 1 }
    let s' : Settings :=
      { inputPath := .ofString "/mail/in.csv", outputDir := .ofString "out/",
        metadataPath := .ofString "about.json", chunkSize := 1, locale := "fr" }
    let input : Bytes := Utf8.ofString "id,to\n1,\"a\"\"b\"\n2,x\n"
    let m : Memory := ⟨[("_data/letters.csv", input)], []⟩
    let m' : Memory :=
      ⟨[("out/letters-chunk-01.json", Utf8.ofString "stale"), ("/mail/in.csv", input),
        ("_data/letters.csv", Utf8.ofString "id\n9\n")], []⟩
    let r := (run (.ofString "/work") s false).run (.memory (.ofString "/work")) m
    let r' := (run (.ofString "/srv") s' true).run (.memory (.ofString "/srv")) m'
    ∃ receipt receipt' contents manifest, contents.length = 2 ∧
      Publishes s r receipt contents manifest ∧ Publishes s' r' receipt' contents manifest := by
  intro s s' input m m' r r'
  let manifest : Metadata := ⟨2, 2, 1, ["id", "to"]⟩
  have hok : r.outcome = .ok ⟨[.ofString "data/chunks/letters-chunk-00.json",
      .ofString "data/chunks/letters-chunk-01.json"], s.metadataPath, manifest⟩ :=
    eq_ok_of_toOption (by decide +kernel)
  have hok' : r'.outcome = .ok ⟨[.ofString "out/letters-chunk-00.json",
      .ofString "out/letters-chunk-01.json"], s'.metadataPath, manifest⟩ :=
    eq_ok_of_toOption (by decide +kernel)
  have hagree := runs_agree (.ofString "/work") (.ofString "/srv") s s' false true m m' input rfl
    (by decide +kernel) (by decide +kernel)
    (fun c _ => Memory.refusalOf_of_healed rfl c) (fun c _ => Memory.refusalOf_of_healed rfl c)
    (by
      intro receipt h
      cases hok.symm.trans h
      decide +kernel)
    (by
      intro receipt h
      cases hok'.symm.trans h
      decide +kernel)
  rcases hagree with ⟨f, -, hf, -, -⟩ | ⟨receipt, receipt', contents, text, hleft, hright, -⟩
  · cases hok.symm.trans hf
  · refine ⟨receipt, receipt', contents, text, ?_, hleft, hright⟩
    obtain rfl := Except.ok.inj (hok.symm.trans hleft.outcome_eq)
    exact hleft.length_eq.symm

end Publication

end LetterPages
