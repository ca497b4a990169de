import LetterPages.Proofs.Csv.Tables
import LetterPages.Proofs.Observation
import LetterPages.Proofs.PublishedPages

/-!
# Reconstructing the letters

When no call of a run is refused, a consumer that reads the metadata and the chunk files it counts
gets the records of the input back, whatever the store held before.
-/

namespace LetterPages

/-! ## Runs without refusals -/

namespace Memory

theorem refusalOf_of_healed {m : Memory} (h : m.failures = []) (c : Call) :
    m.refusalOf c = none := by
  cases c <;> rw [refusalOf, refusal?, h] <;> rfl

/-! ## Pages one after the other -/

theorem mapM_pages {page? : Nat → Option (List Record)} {chunks : List Chunk}
    (h : ∀ c ∈ chunks, page? c.index = some c.records) :
    (chunks.map Chunk.index).mapM page? = some (chunks.map Chunk.records) := by
  induction chunks with
  | nil => rfl
  | cons c rest ih =>
    rw [List.map_cons, List.mapM_cons, h c List.mem_cons_self,
      ih fun c' hc' => h c' (List.mem_cons_of_mem c hc')]
    rfl

theorem letters?_plannedCalls {s : Settings} {plan : Plan} {records : List Record}
    (hpages : Chunk.Pages records plan.chunks) (hapart : KeysApart s.outputDir s.metadataPath)
    (m : Memory) :
    ((Publication.plannedCalls s plan).foldl perform m).letters? s.outputDir plan.chunks.length =
      some records := by
  rw [letters?, foldl_plannedCalls, ← hpages.map_index, mapM_pages, Option.map_some,
    hpages.flatten_eq]
  intro c hc
  rw [page?_put_metadata hapart]
  exact page?_foldl_chunkCalls s hpages.nodup_index hc m

end Memory

/-! ## Whole runs -/

namespace Publication

/-- A byte string that the word size allows cannot hold more records than a word can count. -/
theorem toNat_ofNat_of_le {n length : Nat} (h : n ≤ length) (hlength : length < UInt64.size) :
    (UInt64.ofNat n).toNat = n :=
  UInt64.toNat_ofNat_of_lt' (Nat.lt_of_le_of_lt h hlength)

section Granted

variable (base : Path) {s : Settings} (isMonitored : Bool)
variable {input : Bytes} {data : Dataset} {m : Memory}

theorem run_granted (hread : Csv.read input = .ok data) (hsize : s.chunkSize ≠ 0)
    (hinput : m.get? s.inputPath.shown = some input)
    (hgranted : ∀ c ∈ ((run base s isMonitored).run (.memory base) m).calls,
      m.refusalOf c = none) :
    let r := (run base s isMonitored).run (.memory base) m
    let plan : Plan := .pages data s.chunkSize
    r.store = (plannedCalls s plan).foldl Memory.perform m ∧ r.outcome = .ok (receipt s plan) := by
  intro r plan
  have hreading : m.refusalOf (.read s.inputPath) = none :=
    hgranted _ (read_mem_calls_run (.memory base) s isMonitored m)
  have hobserved := observe_run_memory base s isMonitored hread hsize hinput hreading
  have hpublish := run_publish base s plan m
  have hcalls : r.calls = .read s.inputPath :: callsOf (m.performed (script s plan)) :=
    (congrArg Observed.calls hobserved).trans
      (congrArg (fun r => Call.read s.inputPath :: r.calls) hpublish)
  rw [callsOf_performed, callsOf_script] at hcalls
  have hall : m.granted (plannedCalls s plan) = plannedCalls s plan := by
    apply Memory.granted_eq_self
    intro c hc
    apply hgranted
    change c ∈ r.calls
    rw [hcalls]
    exact List.mem_cons_of_mem _ hc
  have hstore : r.store = (m.granted (plannedCalls s plan)).foldl Memory.perform m :=
    (congrArg Observed.store hobserved).trans (congrArg Job.Run.store hpublish)
  have houtcome : r.outcome = _ :=
    (congrArg Observed.outcome hobserved).trans (congrArg Job.Run.outcome hpublish)
  rw [hall] at hstore
  rw [Memory.firstRefused_of_granted hall] at houtcome
  exact ⟨hstore, houtcome⟩

end Granted

/-- A run none of whose calls is refused succeeds, and a consumer of what it leaves in memory gets
the records of its input back, in their order and with their fields in column order. The words of
the metadata can hold its numbers because the input has fewer bytes than there are words. -/
theorem reconstruct_run (base : Path) (s : Settings) (isMonitored : Bool) (m : Memory)
    {input : Bytes} {data : Dataset} (hread : Csv.read input = .ok data)
    (hlength : input.length < UInt64.size) (hsize : s.chunkSize ≠ 0)
    (hapart : KeysApart s.outputDir s.metadataPath)
    (hinput : m.get? s.inputPath.shown = some input)
    (hgranted : ∀ c ∈ ((run base s isMonitored).run (.memory base) m).calls,
      m.refusalOf c = none) :
    let r := (run base s isMonitored).run (.memory base) m
    ∃ chunkFiles manifest, r.outcome = .ok ⟨chunkFiles, s.metadataPath, manifest⟩ ∧
      r.store.manifest? s.metadataPath = some manifest ∧
      r.store.letters? s.outputDir manifest.chunks.toNat = some data.records ∧
      manifest.totalLetters.toNat = data.records.length ∧
      manifest.chunkSize = s.chunkSize ∧
      manifest.chunks.toNat =
        (data.records.length + s.chunkSize.toNat - 1) / s.chunkSize.toNat ∧
      manifest.fields = if data.records = [] then [] else data.fields := by
  intro r
  let plan : Plan := .pages data s.chunkSize
  obtain ⟨hstore, houtcome⟩ := run_granted base isMonitored hread hsize hinput hgranted
  have hrecords : data.records.length ≤ input.length := Csv.length_records_le hread
  have hpages : Chunk.Pages data.records plan.chunks :=
    Chunk.pages_spec data.records s.chunkSize.toNat
  have hchunks : plan.metadata.chunks.toNat = plan.chunks.length :=
    toNat_ofNat_of_le ((Chunk.length_pages_le _ _).trans hrecords) hlength
  have hpositive : 0 < s.chunkSize.toNat := by
    rw [Nat.pos_iff_ne_zero]
    intro hzero
    exact hsize (UInt64.toNat_inj.mp hzero)
  refine ⟨plan.chunks.map (chunkPath s.outputDir), plan.metadata, houtcome, ?_, ?_, ?_, rfl, ?_, ?_⟩
  · rw [hstore, Memory.foldl_plannedCalls]
    exact Memory.manifest?_put_metadata _ plan.metadata
  · rw [hstore, hchunks]
    exact Memory.letters?_plannedCalls hpages hapart m
  · exact toNat_ofNat_of_le hrecords hlength
  · rw [hchunks]
    exact Chunk.length_pages hpositive
  · change (if data.records.isEmpty then [] else data.fields) = _
    simp only [List.isEmpty_iff]

/-- Three letters with a quote, a comma and a line feed in them, on pages of two, over what a longer
run has left. -/
theorem reconstruct_run_over_leavings :
    let s : Settings := { Settings.standard with chunkSize := 2 }
    let input : Bytes := Utf8.ofString "id,\"to,from\"\r\n1,\"a\"\"b\"\n\n2,x\n3,\"l\nm\""
    let letters : List Record := [⟨[("id", "1"), ("to,from", "a\"b")]⟩,
      ⟨[("id", "2"), ("to,from", "x")]⟩, ⟨[("id", "3"), ("to,from", "l\nm")]⟩]
    let m : Memory :=
      { files := [("data/metadata.json", Utf8.ofString "stale"), ("_data/letters.csv", input),
          ("data/chunks/letters-chunk-01.json", Utf8.ofString "[]"),
          ("data/chunks/letters-chunk-02.json", Utf8.ofString "[]")]
        failures := [] }
    let r := (run (.ofString "/work") s false).run (.memory (.ofString "/work")) m
    ∃ chunkFiles manifest, r.outcome = .ok ⟨chunkFiles, s.metadataPath, manifest⟩ ∧
      r.store.manifest? s.metadataPath = some manifest ∧
      r.store.letters? s.outputDir manifest.chunks.toNat = some letters ∧
      manifest.totalLetters.toNat = 3 ∧ manifest.chunkSize = 2 ∧ manifest.chunks.toNat = 2 ∧
      manifest.fields = ["id", "to,from"] := by
  intro s input letters m
  have hread : Csv.read input = .ok ⟨["id", "to,from"], letters⟩ :=
    eq_ok_of_toOption (by decide +kernel)
  have hlength : input.length < UInt64.size := by decide +kernel
  have hapart : KeysApart s.outputDir s.metadataPath := keysApart_of_not_prefix (by decide +kernel)
  have hinput : m.get? s.inputPath.shown = some input := by decide +kernel
  obtain ⟨chunkFiles, manifest, houtcome, hmanifest, hletters, htotal, hsize, hchunks, hfields⟩ :=
    reconstruct_run (.ofString "/work") s false m hread hlength (by decide) hapart hinput
      fun c _ => Memory.refusalOf_of_healed rfl c
  refine ⟨chunkFiles, manifest, houtcome, hmanifest, hletters, htotal, hsize, ?_, ?_⟩
  · rw [hchunks]
    decide
  · rw [hfields]
    exact if_neg (List.cons_ne_nil _ _)

end Publication

end LetterPages
