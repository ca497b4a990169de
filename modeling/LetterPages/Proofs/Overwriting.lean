import LetterPages.Proofs.ChunkPlaces
import LetterPages.Proofs.KeptFiles
import LetterPages.Proofs.PublishedPages
import LetterPages.Proofs.Rerun

/-!
# What a run writes over

Chunk files never get in the way of one another, in memory or on disk. What a run can write over is
its input, when a chunk file or the metadata leads to it, and a chunk file, when the metadata does.
The check of settings looks at each path alone and excludes neither.
-/

namespace LetterPages

namespace Publication

/-! ## What a successful run has done -/

section Succeeded

variable {σ : Type} (storage : Storage σ) {s : Settings} {st : σ} {written : Receipt}

theorem exists_plan_of_run {isMonitored : Bool}
    (h : ((run storage.base s isMonitored).run storage st).outcome = .ok written) :
    ∃ input data plan, storage.read s.inputPath st = .ok input ∧ Csv.read input = .ok data ∧
      Plan.ofDataset data s.chunkSize = .ok plan ∧
      ((run storage.base s isMonitored).run storage st).store =
        ((publish s plan).run storage st).store ∧
      ((publish s plan).run storage st).outcome = .ok written := by
  cases hplan : planOf storage.base s (storage.read s.inputPath st) with
  | error f =>
    have houtcome := congrArg Observed.outcome (observe_run_of_error storage s isMonitored hplan)
    cases h.symm.trans houtcome
  | ok plan =>
    have hobserved := observe_run_of_ok storage s isMonitored hplan
    unfold planOf lettersOf at hplan
    cases hread : storage.read s.inputPath st with
    | error reason =>
      rw [hread] at hplan
      cases hplan
    | ok input =>
      rw [hread] at hplan
      dsimp only at hplan
      cases hcsv : Csv.read input with
      | error flaw =>
        rw [hcsv] at hplan
        cases hplan
      | ok data =>
        rw [hcsv] at hplan
        exact ⟨input, data, plan, rfl, hcsv, hplan, congrArg Observed.store hobserved,
          (congrArg Observed.outcome hobserved).symm.trans h⟩

variable {storage} in
theorem performs_publish {plan : Plan} (h : ((publish s plan).run storage st).outcome = .ok written) :
    written = receipt s plan ∧
      storage.Performs (plannedCalls s plan) st ((publish s plan).run storage st).store := by
  have hr := (follows_publish s plan).run_eq storage st
  rw [hr] at h ⊢
  obtain ⟨u, houtcome, hwritten⟩ := exists_of_map_eq_ok h
  rw [← callsOf_script]
  exact ⟨hwritten.symm, Job.performs_play houtcome⟩

/-- Only the metadata and the chunk files are written. -/
theorem mem_of_write_mem {plan : Plan} {p : Path} {content : Bytes}
    (h : .write p content ∈ plannedCalls s plan) :
    p ∈ s.metadataPath :: (receipt s plan).chunkFiles := by
  rw [plannedCalls, List.mem_cons, List.mem_append, List.mem_append, List.mem_singleton] at h
  rcases h with h | h | h | h
  · cases h
  · obtain ⟨c, hc, heq⟩ := List.mem_map.mp h
    cases heq
    exact List.mem_cons_of_mem _ (List.mem_map.mpr ⟨c, hc, rfl⟩)
  · obtain ⟨dir, hdir⟩ := makeDir_of_mem_parentCalls h
    cases hdir
  · cases h
    exact List.mem_cons_self

theorem nodup_index_of_ofDataset {data : Dataset} {size : UInt64} {plan : Plan}
    (h : Plan.ofDataset data size = .ok plan) : (plan.chunks.map Chunk.index).Nodup := by
  obtain rfl := Plan.eq_pages h
  exact (Chunk.pages_spec data.records size.toNat).nodup_index

end Succeeded

/-! ## On disk -/

section OnDisk

variable {current : Place} {base : Path} {s : Settings} {plan : Plan} {t t' : FileTree}

theorem exists_locate_chunkPath
    (h : (Storage.disk current base).Performs (plannedCalls s plan) t t') {c : Chunk}
    (hc : c ∈ plan.chunks) :
    ∃ place, t'.locate current (base.join (chunkPath s.outputDir c)) = .ok place := by
  apply Disk.exists_locate_of_write h
  exact List.mem_cons_of_mem _ (List.mem_append_left _ (List.mem_map.mpr ⟨c, hc, rfl⟩))

/-- A chunk file holds its chunk unless the metadata lies at its place. -/
theorem read_chunkPath (h : (Storage.disk current base).Performs (plannedCalls s plan) t t')
    (hindex : (plan.chunks.map Chunk.index).Nodup) {c : Chunk} (hc : c ∈ plan.chunks)
    (hmetadata : t'.locate current (base.join s.metadataPath) ≠
      t'.locate current (base.join (chunkPath s.outputDir c))) :
    t'.read current (base.join (chunkPath s.outputDir c)) = .ok c.encode := by
  obtain ⟨place, hplace⟩ := exists_locate_chunkPath h hc
  obtain ⟨before, after, hchunks⟩ := List.append_of_mem hc
  have hplanned : plannedCalls s plan =
      (.makeDir s.outputDir :: before.map (chunkCall s)) ++ chunkCall s c ::
        (after.map (chunkCall s) ++
          (parentCalls s.metadataPath ++ [.write s.metadataPath plan.metadata.encode])) := by
    rw [plannedCalls, hchunks, List.map_append, List.map_cons]
    simp only [List.cons_append, List.append_assoc]
  rw [hplanned] at h
  apply Disk.read_written h
  intro q written hmem
  rw [List.mem_append, List.mem_append, List.mem_singleton] at hmem
  rcases hmem with hmem | hmem | hmem
  · -- a later chunk file lies at another place, since its index is another one
    obtain ⟨d, hd, heq⟩ := List.mem_map.mp hmem
    cases heq
    intro hsame
    have hi : c.index = d.index := FileTree.locate_pagePath_inj hplace (hsame.trans hplace)
    rw [hchunks, List.map_append, List.map_cons, List.nodup_append] at hindex
    obtain ⟨hfree, -⟩ := List.nodup_cons.mp hindex.2.1
    exact hfree (List.mem_map.mpr ⟨d, hd, hi.symm⟩)
  · obtain ⟨dir, hdir⟩ := makeDir_of_mem_parentCalls hmem
    cases hdir
  · cases hmem
    exact hmetadata

end OnDisk

/-! ## In memory -/

theorem get?_chunkPath {s : Settings} {plan : Plan} (hindex : (plan.chunks.map Chunk.index).Nodup)
    {c : Chunk} (hc : c ∈ plan.chunks) (m : Memory) :
    ((plannedCalls s plan).foldl Memory.perform m).get? (chunkPath s.outputDir c).shown =
      some (if (chunkPath s.outputDir c).shown = s.metadataPath.shown then plan.metadata.encode
        else c.encode) := by
  rw [Memory.foldl_plannedCalls, Memory.get?_put]
  by_cases hkey : (chunkPath s.outputDir c).shown = s.metadataPath.shown
  · rw [if_pos hkey, if_pos hkey]
  · rw [if_neg hkey, if_neg hkey]
    exact Memory.get?_foldl_chunkCalls s hindex hc m

/-! ## Accepted settings -/

/-- After a successful run each chunk file it lists holds its own chunk, unless the metadata has been
written over it, and the input is as it was, unless one of the listed files or the metadata has been
written over it. In memory a file is written over by another one of its key, on disk by a path that
leads to its place. -/
theorem run_overwrites (base : Path) (s : Settings) (isMonitored : Bool) :
    (∀ (m : Memory) (written : Receipt),
      let r := (run base s isMonitored).run (.memory base) m
      r.outcome = .ok written →
      ∃ input data plan, m.get? s.inputPath.shown = some input ∧ Csv.read input = .ok data ∧
        Plan.ofDataset data s.chunkSize = .ok plan ∧
        written = ⟨plan.chunks.map (chunkPath s.outputDir), s.metadataPath, plan.metadata⟩ ∧
        (∀ c ∈ plan.chunks, r.store.get? (chunkPath s.outputDir c).shown =
          some (if (chunkPath s.outputDir c).shown = s.metadataPath.shown
            then plan.metadata.encode else c.encode)) ∧
        ((∀ p ∈ s.metadataPath :: written.chunkFiles, p.shown ≠ s.inputPath.shown) →
          r.store.get? s.inputPath.shown = some input)) ∧
    (∀ (current : Place) (tree : FileTree) (written : Receipt),
      let r := (run base s isMonitored).run (.disk current base) tree
      let place (p : Path) := r.store.locate current (base.join p)
      r.outcome = .ok written →
      ∃ input data plan, tree.read current (base.join s.inputPath) = .ok input ∧
        Csv.read input = .ok data ∧ Plan.ofDataset data s.chunkSize = .ok plan ∧
        written = ⟨plan.chunks.map (chunkPath s.outputDir), s.metadataPath, plan.metadata⟩ ∧
        (∀ c ∈ plan.chunks, place s.metadataPath ≠ place (chunkPath s.outputDir c) →
          r.store.read current (base.join (chunkPath s.outputDir c)) = .ok c.encode) ∧
        ((∀ p ∈ s.metadataPath :: written.chunkFiles, place p ≠ place s.inputPath) →
          r.store.read current (base.join s.inputPath) = .ok input)) := by
  constructor
  · intro m written r hok
    obtain ⟨input, data, plan, hread, hcsv, hplan, hstore, hpublished⟩ :=
      exists_plan_of_run (.memory base) hok
    obtain ⟨hwritten, -⟩ := performs_publish hpublished
    obtain ⟨-, hleft, -⟩ := publish_again base s plan hpublished
    have hstore' : r.store = (plannedCalls s plan).foldl Memory.perform m := hstore.trans hleft
    have hinput : m.get? s.inputPath.shown = some input := Memory.get?_of_read hread
    refine ⟨input, data, plan, hinput, hcsv, hplan, hwritten, ?_, ?_⟩
    · intro c hc
      rw [hstore']
      exact get?_chunkPath (nodup_index_of_ofDataset hplan) hc m
    · intro hapart
      rw [hstore', Memory.get?_foldl_perform, hinput]
      intro p content hmem
      apply hapart
      rw [hwritten]
      exact mem_of_write_mem hmem
  · intro current tree written r place hok
    obtain ⟨input, data, plan, hread, hcsv, hplan, hstore, hpublished⟩ :=
      exists_plan_of_run (.disk current base) hok
    obtain ⟨hwritten, hperforms⟩ := performs_publish hpublished
    have hstore' : r.store = _ := hstore
    rw [← hstore'] at hperforms
    refine ⟨input, data, plan, hread, hcsv, hplan, hwritten, ?_, ?_⟩
    · intro c hc hmetadata
      exact read_chunkPath hperforms (nodup_index_of_ofDataset hplan) hc hmetadata
    · intro hapart
      apply Disk.read_performs hperforms hread
      intro q content hmem
      apply hapart
      rw [hwritten]
      exact mem_of_write_mem hmem

/-- With the standard settings the three paths are apart, and two letters are published beside their
input. -/
theorem run_overwrites_nothing_by_default :
    let base : Path := .ofString "/work"
    let s : Settings := .standard
    let input : Bytes := Utf8.ofString "id\n1\n2\n"
    let chunkFile : Path := .ofString "data/chunks/letters-chunk-00.json"
    let c : Chunk := ⟨0, [⟨[("id", "1")]⟩, ⟨[("id", "2")]⟩]⟩
    let m : Memory := ⟨[(s.inputPath.shown, input)], []⟩
    let r := (run base s false).run (.memory base) m
    ∃ manifest, r.outcome = .ok ⟨[chunkFile], s.metadataPath, manifest⟩ ∧
      r.store.get? chunkFile.shown = some c.encode ∧
      r.store.get? s.inputPath.shown = some input := by
  intro base s input chunkFile c m r
  let manifest : Metadata := ⟨2, 1, 1000, ["id"]⟩
  have hok : r.outcome = .ok ⟨[chunkFile], s.metadataPath, manifest⟩ :=
    eq_ok_of_toOption (by decide +kernel)
  obtain ⟨held, data, plan, hheld, hcsv, hplan, -, hchunks, hinput⟩ :=
    (run_overwrites base s false).1 m _ hok
  have hsame : held = input := Option.some.inj (hheld.symm.trans (by decide +kernel))
  have hdata : data = ⟨["id"], c.records⟩ := by
    rw [hsame] at hcsv
    exact Except.ok.inj (hcsv.symm.trans (eq_ok_of_toOption (by decide +kernel)))
  have hplan' : plan = ⟨[c], manifest⟩ := by
    rw [hdata] at hplan
    exact Except.ok.inj (hplan.symm.trans (eq_ok_of_toOption (by decide +kernel)))
  have hpath : chunkPath s.outputDir c = chunkFile := by decide +kernel
  have hchunk := hchunks c (by rw [hplan']; exact List.mem_singleton_self c)
  rw [hpath, if_neg (by decide +kernel)] at hchunk
  refine ⟨manifest, hok, hchunk, ?_⟩
  rw [hinput, hsame]
  intro p hp
  rcases List.mem_cons.mp hp with rfl | hp
  · decide +kernel
  · rw [List.mem_singleton.mp hp]
    decide +kernel

/-- Settings pass the check in which the metadata path names the input or a chunk file, or a chunk
file is the input. Each of these runs succeeds and writes over the one or the other. -/
theorem accepted_settings_overwrite :
    let base : Path := .ofString "/work"
    let input : Bytes := Utf8.ofString "id\n1\n2\n"
    let chunkFile : Path := .ofString "data/chunks/letters-chunk-00.json"
    let c : Chunk := ⟨0, [⟨[("id", "1")]⟩, ⟨[("id", "2")]⟩]⟩
    let after (s : Settings) :=
      (run base s false).run (.memory base) ⟨[(s.inputPath.shown, input)], []⟩
    let overInput : Settings := { Settings.standard with
      metadataPath := Settings.standard.inputPath }
    let overChunk : Settings := { Settings.standard with metadataPath := chunkFile }
    let chunkOverInput : Settings := { Settings.standard with inputPath := chunkFile }
    (overInput.check = .ok () ∧
      (∃ written, (after overInput).outcome = .ok written) ∧
      (after overInput).store.get? overInput.inputPath.shown ≠ some input) ∧
    (overChunk.check = .ok () ∧
      (∃ manifest, (after overChunk).outcome = .ok ⟨[chunkFile], chunkFile, manifest⟩) ∧
      chunkFile = chunkPath overChunk.outputDir c ∧
      (after overChunk).store.get? chunkFile.shown ≠ some c.encode) ∧
    (chunkOverInput.check = .ok () ∧
      (∃ written, (after chunkOverInput).outcome = .ok written) ∧
      (after chunkOverInput).store.get? chunkOverInput.inputPath.shown ≠ some input) := by
  intro base input chunkFile c after overInput overChunk chunkOverInput
  let manifest : Metadata := ⟨2, 1, 1000, ["id"]⟩
  have hoverInput : (after overInput).outcome =
      .ok ⟨[chunkFile], overInput.metadataPath, manifest⟩ := eq_ok_of_toOption (by decide +kernel)
  have hoverChunk : (after overChunk).outcome = .ok ⟨[chunkFile], chunkFile, manifest⟩ :=
    eq_ok_of_toOption (by decide +kernel)
  have hchunkOverInput : (after chunkOverInput).outcome =
      .ok ⟨[chunkFile], chunkOverInput.metadataPath, manifest⟩ :=
    eq_ok_of_toOption (by decide +kernel)
  refine ⟨⟨?_, ⟨_, hoverInput⟩, ?_⟩, ⟨?_, ⟨_, hoverChunk⟩, ?_, ?_⟩, ?_, ⟨_, hchunkOverInput⟩, ?_⟩
  · exact eq_ok_of_toOption (by decide +kernel)
  · decide +kernel
  · exact eq_ok_of_toOption (by decide +kernel)
  · decide +kernel
  · decide +kernel
  · exact eq_ok_of_toOption (by decide +kernel)
  · decide +kernel

end Publication

end LetterPages
