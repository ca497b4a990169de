import LetterPages.Proofs.Observation
import LetterPages.Proofs.PublishedPages
import Mathlib.Logic.Relation

/-!
# Published metadata counts no missing chunk file

The metadata is written last, no file is removed, every chunk holds a record, and chunk files of
different indices have different keys. So whatever runs are broken off on the way, metadata that is
there counts only chunk files that are there too.
-/

namespace LetterPages

namespace Memory

/-! ## Honest metadata -/

/-- The chunk file with this index is there and decodes to one record at least. -/
def HasPage (m : Memory) (dir : Path) (index : Nat) : Prop :=
  ∃ records, m.page? dir index = some records ∧ records ≠ []

/-- If the metadata is there it can be decoded, and so can every chunk file that it counts. -/
def Honest (m : Memory) (dir path : Path) : Prop :=
  ∀ text, m.get? path.shown = some text → ∃ manifest, Json.decodeMetadata text = .ok manifest ∧
    ∀ index < manifest.chunks.toNat, m.HasPage dir index

variable {dir path : Path} {m : Memory}

theorem honest_of_none (h : m.get? path.shown = none) : m.Honest dir path := by
  intro text htext
  rw [h] at htext
  cases htext

theorem Honest.congr {m' : Memory} (hpath : m'.get? path.shown = m.get? path.shown)
    (hpages : ∀ index, m'.get? (pageKey dir index) = m.get? (pageKey dir index))
    (h : m.Honest dir path) : m'.Honest dir path := by
  intro text htext
  rw [hpath] at htext
  obtain ⟨manifest, hmanifest, hcounted⟩ := h text htext
  refine ⟨manifest, hmanifest, ?_⟩
  intro index hindex
  obtain ⟨records, hpage, hrecords⟩ := hcounted index hindex
  refine ⟨records, ?_, hrecords⟩
  rw [page?, hpages]
  exact hpage

theorem HasPage.put_chunk {index : Nat} (h : m.HasPage dir index) {c : Chunk}
    (hc : c.records ≠ []) : (m.put (pageKey dir c.index) c.encode).HasPage dir index := by
  rw [HasPage, page?_put_chunk]
  by_cases hindex : index = c.index
  · rw [if_pos hindex]
    exact ⟨c.records, rfl, hc⟩
  · rw [if_neg hindex]
    exact h

theorem Honest.put_chunk (hapart : KeysApart dir path) (h : m.Honest dir path) {c : Chunk}
    (hc : c.records ≠ []) : (m.put (pageKey dir c.index) c.encode).Honest dir path := by
  intro text htext
  rw [get?_put, if_neg (hapart c.index).symm] at htext
  obtain ⟨manifest, hmanifest, hcounted⟩ := h text htext
  exact ⟨manifest, hmanifest, fun index hindex => (hcounted index hindex).put_chunk hc⟩

theorem HasPage.put_metadata (hapart : KeysApart dir path) {index : Nat}
    (h : m.HasPage dir index) (content : Bytes) : (m.put path.shown content).HasPage dir index := by
  rw [HasPage, page?_put_metadata hapart]
  exact h

theorem honest_put_metadata (hapart : KeysApart dir path) {manifest : Metadata}
    (h : ∀ index < manifest.chunks.toNat, m.HasPage dir index) :
    (m.put path.shown manifest.encode).Honest dir path := by
  intro text htext
  rw [get?_put, if_pos rfl] at htext
  cases htext
  refine ⟨manifest, Json.decodeMetadata_encode manifest, ?_⟩
  intro index hindex
  exact (h index hindex).put_metadata hapart _

/-! ## Publishing keeps metadata honest -/

open Publication

variable {s : Settings}

/-- Until the metadata is written the old metadata stays honest. -/
theorem Honest.foldl_perform (hapart : KeysApart s.outputDir path) {calls : List Call}
    (hcalls : ∀ p content, .write p content ∈ calls →
      ∃ c : Chunk, c.records ≠ [] ∧ .write p content = chunkCall s c)
    (h : m.Honest s.outputDir path) : (calls.foldl perform m).Honest s.outputDir path := by
  induction calls generalizing m with
  | nil => exact h
  | cons call rest ih =>
    have hrest : ∀ p content, .write p content ∈ rest →
        ∃ c : Chunk, c.records ≠ [] ∧ .write p content = chunkCall s c :=
      fun p content hmem => hcalls p content (List.mem_cons_of_mem call hmem)
    rw [List.foldl_cons]
    apply ih hrest
    cases call with
    | read p => exact h
    | makeDir p => exact h
    | write p content =>
      obtain ⟨c, hc, heq⟩ := hcalls p content List.mem_cons_self
      rw [heq, perform_chunkCall]
      exact h.put_chunk hapart hc

theorem hasPage_foldl_chunkCalls {records : List Record} {chunks : List Chunk}
    (hpages : Chunk.Pages records chunks) {index : Nat} (hindex : index < chunks.length) :
    ((chunks.map (chunkCall s)).foldl perform m).HasPage s.outputDir index := by
  have hmem : chunks[index] ∈ chunks := List.getElem_mem hindex
  have hnumber : chunks[index].index = index :=
    hpages.index_eq index chunks[index] (List.getElem?_eq_getElem hindex)
  have hpage := page?_foldl_chunkCalls s hpages.nodup_index hmem m
  rw [hnumber] at hpage
  exact ⟨chunks[index].records, hpage, hpages.ne_nil _ hmem⟩

theorem Honest.publish (hapart : KeysApart s.outputDir s.metadataPath)
    (h : m.Honest s.outputDir s.metadataPath) (base : Path) (data : Dataset) (size : UInt64) :
    ((publish s (.pages data size)).run (.memory base) m).store.Honest
      s.outputDir s.metadataPath := by
  let plan : Plan := .pages data size
  have hpages : Chunk.Pages data.records plan.chunks := Chunk.pages_spec data.records size.toNat
  rw [run_publish]
  dsimp only
  have hprefix : m.granted (plannedCalls s plan) <+: plannedCalls s plan :=
    List.takeWhile_prefix _
  have hlast : plannedCalls s plan =
      (.makeDir s.outputDir :: (plan.chunks.map (chunkCall s) ++ parentCalls s.metadataPath)) ++
        [.write s.metadataPath plan.metadata.encode] := by
    rw [plannedCalls, ← List.append_assoc]
    rfl
  rw [hlast, List.prefix_concat_iff, ← hlast] at hprefix
  rcases hprefix with hall | hbefore
  · -- everything is written, the metadata last
    rw [hall, foldl_plannedCalls]
    apply honest_put_metadata hapart
    intro index hindex
    apply hasPage_foldl_chunkCalls hpages
    refine Nat.lt_of_lt_of_le hindex ?_
    change (UInt64.ofNat plan.chunks.length).toNat ≤ plan.chunks.length
    rw [UInt64.toNat_ofNat']
    exact Nat.mod_le _ _
  · -- the metadata is not reached
    apply h.foldl_perform hapart
    intro p content hmem
    have hplanned := hbefore.subset hmem
    rw [List.mem_cons, List.mem_append] at hplanned
    rcases hplanned with hdir | hchunk | hparent
    · cases hdir
    · obtain ⟨c, hc, heq⟩ := List.mem_map.mp hchunk
      exact ⟨c, hpages.ne_nil c hc, heq.symm⟩
    · obtain ⟨dir, hdir⟩ := makeDir_of_mem_parentCalls hparent
      cases hdir

end Memory

/-! ## Pipelines -/

namespace Publication

theorem planOf_ok {base : Path} {s : Settings} {input : Except Refusal Bytes} {plan : Plan}
    (h : planOf base s input = .ok plan) : ∃ data, plan = .pages data s.chunkSize := by
  unfold planOf at h
  cases hletters : lettersOf base s input with
  | error f =>
    rw [hletters] at h
    cases h
  | ok data =>
    rw [hletters] at h
    exact ⟨data, Plan.eq_pages h⟩

/-- A whole run keeps metadata honest, wherever it is broken off. -/
theorem honest_run {s : Settings} {m : Memory} (hapart : KeysApart s.outputDir s.metadataPath)
    (h : m.Honest s.outputDir s.metadataPath) (base : Path) (isMonitored : Bool) :
    ((run base s isMonitored).run (.memory base) m).store.Honest s.outputDir s.metadataPath := by
  change ((run (Storage.memory base).base s isMonitored).run (.memory base) m).store.Honest _ _
  rw [store_run]
  cases hplan : planOf (Storage.memory base).base s ((Storage.memory base).read s.inputPath m) with
  | error f => exact h
  | ok plan =>
    obtain ⟨data, rfl⟩ := planOf_ok hplan
    exact h.publish hapart base data s.chunkSize

end Publication

structure Settings.PublishTo (s : Settings) (dir path : Path) : Prop where
  dir_eq : s.outputDir = dir
  path_eq : s.metadataPath = path

/-- A pipeline at work: its storage, the datasets read so far, and the plans made so far. -/
structure Pipeline where
  memory : Memory
  datasets : List Dataset
  plans : List Plan

namespace Pipeline

def start (m : Memory) : Pipeline :=
  ⟨m, [], []⟩

def kept {α : Type} (r : Job.Run Memory α) : List α :=
  r.outcome.toOption.toList

/-- One operation of a pipeline that publishes to one directory and one metadata path. Its other
settings are its own, and it works on any dataset or plan at hand. Between operations anything may
happen to the storage, to its failures too, while the metadata and the chunk files are let alone. -/
inductive Step (base dir path : Path) : Pipeline → Pipeline → Prop where
  | disturb (p : Pipeline) (m : Memory) (hpath : m.get? path.shown = p.memory.get? path.shown)
      (hpages : ∀ index, m.get? (pageKey dir index) = p.memory.get? (pageKey dir index)) :
      Step base dir path p { p with memory := m }
  | extract (p : Pipeline) (s : Settings) (hs : s.PublishTo dir path) (r : Job.Run Memory Dataset)
      (hr : r = (Publication.readLetters base s).run (.memory base) p.memory) :
      Step base dir path p ⟨r.store, kept r ++ p.datasets, p.plans⟩
  | transform (p : Pipeline) (s : Settings) (hs : s.PublishTo dir path) (data : Dataset)
      (hdata : data ∈ p.datasets) (r : Job.Run Memory Plan)
      (hr : r = (Publication.paginate s data).run (.memory base) p.memory) :
      Step base dir path p ⟨r.store, p.datasets, kept r ++ p.plans⟩
  | load (p : Pipeline) (s : Settings) (hs : s.PublishTo dir path) (plan : Plan)
      (hplan : plan ∈ p.plans) (r : Job.Run Memory Publication.Receipt)
      (hr : r = (Publication.publish s plan).run (.memory base) p.memory) :
      Step base dir path p { p with memory := r.store }
  | plan (p : Pipeline) (s : Settings) (hs : s.PublishTo dir path) (isMonitored : Bool)
      (r : Job.Run Memory Plan)
      (hr : r = (Publication.plan base s isMonitored).run (.memory base) p.memory) :
      Step base dir path p ⟨r.store, p.datasets, kept r ++ p.plans⟩
  | run (p : Pipeline) (s : Settings) (hs : s.PublishTo dir path) (isMonitored : Bool)
      (r : Job.Run Memory Publication.Receipt)
      (hr : r = (Publication.run base s isMonitored).run (.memory base) p.memory) :
      Step base dir path p { p with memory := r.store }

/-- What holds at every moment: the metadata is honest, and each plan at hand is the plan for some
dataset. -/
structure Sound (dir path : Path) (p : Pipeline) : Prop where
  honest : p.memory.Honest dir path
  paged : ∀ plan ∈ p.plans, ∃ data size, plan = .pages data size

theorem mem_kept {α : Type} {r : Job.Run Memory α} {a : α} (h : a ∈ kept r) : r.outcome = .ok a :=
  eq_ok_of_toOption (Option.mem_toList.mp h)

theorem Sound.add_plans {dir path : Path} {p : Pipeline} (h : p.Sound dir path)
    {datasets : List Dataset} {m : Memory} (hm : m.Honest dir path) {plans : List Plan}
    (hplans : ∀ plan ∈ plans, ∃ data size, plan = .pages data size) :
    Sound dir path ⟨m, datasets, plans ++ p.plans⟩ where
  honest := hm
  paged plan hplan := by
    rcases List.mem_append.mp hplan with hnew | hold
    · exact hplans plan hnew
    · exact h.paged plan hold

variable {base dir path : Path} {p p' : Pipeline}

theorem sound_step (hapart : KeysApart dir path) (hstep : Step base dir path p p')
    (h : p.Sound dir path) : p'.Sound dir path := by
  cases hstep with
  | disturb m hpath hpages =>
    exact ⟨h.honest.congr hpath hpages, h.paged⟩
  | extract s hs r hr =>
    have hobserved := Publication.observe_readLetters (.memory base) s p.memory
    have hstore : r.store = p.memory := hr ▸ congrArg Observed.store hobserved
    rw [hstore]
    exact ⟨h.honest, h.paged⟩
  | transform s hs data hdata r hr =>
    have hobserved := Publication.observe_paginate (.memory base) s data p.memory
    have hstore : r.store = p.memory := hr ▸ congrArg Observed.store hobserved
    have houtcome : r.outcome = Plan.ofDataset data s.chunkSize :=
      hr ▸ congrArg Observed.outcome hobserved
    rw [hstore]
    apply h.add_plans h.honest
    intro plan hplan
    exact ⟨data, s.chunkSize, Plan.eq_pages (houtcome ▸ mem_kept hplan)⟩
  | load s hs plan hplan r hr =>
    obtain ⟨rfl, rfl⟩ := hs
    obtain ⟨data, size, rfl⟩ := h.paged plan hplan
    subst hr
    exact ⟨h.honest.publish hapart base data size, h.paged⟩
  | plan s hs isMonitored r hr =>
    have hobserved := Publication.observe_plan (.memory base) s isMonitored p.memory
    have hstore : r.store = p.memory := hr ▸ congrArg Observed.store hobserved
    have houtcome : r.outcome = Publication.planOf base s (p.memory.read s.inputPath) := by
      rw [hr]
      exact congrArg Observed.outcome hobserved
    rw [hstore]
    apply h.add_plans h.honest
    intro plan hplan
    obtain ⟨data, hdata⟩ := Publication.planOf_ok (houtcome ▸ mem_kept hplan)
    exact ⟨data, s.chunkSize, hdata⟩
  | run s hs isMonitored r hr =>
    obtain ⟨rfl, rfl⟩ := hs
    subst hr
    exact ⟨Publication.honest_run hapart h.honest base isMonitored, h.paged⟩

theorem sound_of_reachable (hapart : KeysApart dir path) {m : Memory}
    (hfresh : m.get? path.shown = none)
    (h : Relation.ReflTransGen (Step base dir path) (start m) p) : p.Sound dir path := by
  induction h with
  | refl =>
    refine ⟨Memory.honest_of_none hfresh, ?_⟩
    intro plan hplan
    cases hplan
  | tail _ hstep ih => exact sound_step hapart hstep ih

/-- Once there is metadata, it can be decoded, and every chunk file it counts is there and decodes
to at least one record, after any operations, whatever failed in them and whatever their settings
were. -/
theorem counted_pages_present (base : Path) {dir path : Path} (hapart : KeysApart dir path)
    {m : Memory} (hfresh : m.get? path.shown = none) {p : Pipeline}
    (h : Relation.ReflTransGen (Step base dir path) (start m) p) {text : Bytes}
    (htext : p.memory.get? path.shown = some text) :
    ∃ manifest, Json.decodeMetadata text = .ok manifest ∧
      ∀ index < manifest.chunks.toNat, ∃ page records,
        p.memory.get? (pageKey dir index) = some page ∧
          Json.decodeRecords page = .ok records ∧ records ≠ [] := by
  obtain ⟨manifest, hmanifest, hcounted⟩ := (sound_of_reachable hapart hfresh h).honest text htext
  refine ⟨manifest, hmanifest, ?_⟩
  intro index hindex
  obtain ⟨records, hpage, hrecords⟩ := hcounted index hindex
  obtain ⟨page, htext, hdecoded⟩ := Memory.exists_of_page? hpage
  exact ⟨page, records, htext, hdecoded, hrecords⟩

/-- The store after a run, and a second one before which one more call is set up to fail. -/
def afterRerun (base : Path) (m : Memory) (first second : Settings) (verb : Verb)
    (key text : String) : Memory :=
  let published := ((Publication.run base first false).run (.memory base) m).store
  ((Publication.run base second false).run (.memory base) (published.failing verb key text)).store

theorem reachable_afterRerun (base : Path) (m : Memory) {first second : Settings}
    (hfirst : first.PublishTo dir path) (hsecond : second.PublishTo dir path) (verb : Verb)
    (key text : String) : Relation.ReflTransGen (Step base dir path) (start m)
      ⟨afterRerun base m first second verb key text, [], []⟩ := by
  let published := ((Publication.run base first false).run (.memory base) m).store
  have hpublished : Step base dir path (start m) ⟨published, [], []⟩ :=
    .run (start m) first hfirst false _ rfl
  have hfailing : Step base dir path ⟨published, [], []⟩
      ⟨published.failing verb key text, [], []⟩ := .disturb _ _ rfl fun _ => rfl
  have hbroken : Step base dir path ⟨published.failing verb key text, [], []⟩
      ⟨afterRerun base m first second verb key text, [], []⟩ := .run _ second hsecond false _ rfl
  exact ((Relation.ReflTransGen.single hpublished).tail hfailing).tail hbroken

/-- A rerun with larger chunks is broken off at its second chunk file: the metadata of the first run
still counts three chunk files, and all three are there. -/
theorem counted_pages_present_after_broken_rerun :
    let first : Settings := { Settings.standard with chunkSize := 1 }
    let second : Settings := { Settings.standard with chunkSize := 2 }
    let m : Memory := ⟨[("_data/letters.csv", Utf8.ofString "id\n1\n2\n3\n")], []⟩
    ∃ broken text manifest,
      broken = afterRerun (.ofString "/work") m first second .write
        "data/chunks/letters-chunk-01.json" "disk full" ∧
      broken.get? first.metadataPath.shown = some text ∧
      Json.decodeMetadata text = .ok manifest ∧ manifest.chunks = 3 ∧
      ∀ index < manifest.chunks.toNat, ∃ page records,
        broken.get? (pageKey first.outputDir index) = some page ∧
          Json.decodeRecords page = .ok records ∧ records ≠ [] := by
  intro first second m
  obtain ⟨broken, hbroken⟩ : ∃ broken, broken = afterRerun (.ofString "/work") m first second .write
      "data/chunks/letters-chunk-01.json" "disk full" := ⟨_, rfl⟩
  have hapart : KeysApart first.outputDir first.metadataPath :=
    keysApart_of_not_prefix (by decide +kernel)
  have hfirst : first.PublishTo first.outputDir first.metadataPath := ⟨rfl, rfl⟩
  have hsecond : second.PublishTo first.outputDir first.metadataPath := ⟨rfl, rfl⟩
  have hreachable := reachable_afterRerun (.ofString "/work") m hfirst hsecond .write
    "data/chunks/letters-chunk-01.json" "disk full"
  rw [← hbroken] at hreachable
  let counted : Metadata := ⟨3, 3, 1, ["id"]⟩
  have htext : broken.get? first.metadataPath.shown = some counted.encode := by
    have hread : Csv.read (Utf8.ofString "id\n1\n2\n3\n") =
        .ok ⟨["id"], [⟨[("id", "1")]⟩, ⟨[("id", "2")]⟩, ⟨[("id", "3")]⟩]⟩ :=
      eq_ok_of_toOption (by decide +kernel)
    rw [hbroken, afterRerun,
      Publication.store_run_memory _ first false hread (by decide) (by decide +kernel)
        (by decide +kernel),
      Publication.store_run_memory _ second false hread (by decide) (by decide +kernel)
        (by decide +kernel)]
    decide +kernel
  obtain ⟨manifest, hmanifest, hpages⟩ :=
    counted_pages_present (.ofString "/work") hapart (by decide +kernel) hreachable htext
  have hdecoded : Json.decodeMetadata counted.encode = .ok counted :=
    Json.decodeMetadata_encode counted
  cases hmanifest.symm.trans hdecoded
  exact ⟨broken, counted.encode, counted, hbroken, htext, hdecoded, rfl, hpages⟩

end Pipeline

end LetterPages
