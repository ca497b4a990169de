import LetterPages.Proofs.PlainPaths
import LetterPages.Proofs.Reconstruction
import LetterPages.Proofs.Overwriting

/-!
# Memory mirrors the disk

A memory mirrors what lies below a place of a tree when it holds the same files, each under its path
from that place. Directories leave no trace in it. Calls that succeed on disk keep the two in step,
and so a run that succeeds on disk succeeds in memory.
-/

namespace LetterPages

/-! ## Files of a tree -/

namespace FileTree

/-- The content of the file at a place, if there is one. -/
def file? (t : FileTree) (place : Place) : Option Bytes :=
  match t.find? place with
  | some (.file content) => some content
  | _ => none

section Files

variable {t t' : FileTree} {current place : Place} {p : Path}

theorem file?_put_file (hplace : place ≠ []) (content : Bytes) (other : Place) :
    (t.put place (.file content)).file? other =
      if other = place then some content else t.file? other := by
  rw [file?, find?_put hplace]
  by_cases h : other = place
  · simp [h]
  · simp [h, file?]

/-- A directory at a place where nothing was is no file, as before. -/
theorem file?_put_directory (hplace : place ≠ []) (hfree : t.find? place = none) :
    (t.put place .directory).file? = t.file? := by
  funext other
  rw [file?, find?_put hplace]
  by_cases h : other = place
  · simp [h, file?, hfree]
  · simp [h, file?]

theorem file?_addDirectory (h : t.addDirectory current p = .ok t') : t'.file? = t.file? := by
  unfold addDirectory at h
  obtain ⟨found, htarget, h⟩ := exists_of_bind_eq_ok h
  cases found with
  | none => cases h
  | some target =>
    obtain ⟨-, h⟩ := of_guard_eq_ok h
    obtain ⟨hfree, h⟩ := of_guard_eq_ok h
    cases h
    apply file?_put_directory
    · exact List.append_ne_nil_of_right_ne_nil _ (List.cons_ne_nil _ _)
    · simpa using hfree

theorem file?_ensureDirectory (t : FileTree) (current : Place) (p : Path) :
    (t.ensureDirectory current p).1.file? = t.file? := by
  unfold ensureDirectory
  cases hadd : t.addDirectory current p with
  | ok t' => exact file?_addDirectory hadd
  | error reason =>
    dsimp only
    split <;> rfl

/-- Whether or not it succeeds, making directories touches no file. -/
theorem file?_makeDir (t : FileTree) (current : Place) (p : Path) :
    (t.makeDir current p).1.file? = t.file? := by
  fun_induction makeDir t current p with
  | case1 => rfl
  | case2 p _ t' hadd => exact file?_addDirectory hadd
  | case3 => rfl
  | case4 p _ _ parent _ t' reason hparent ih =>
    rw [hparent] at ih
    exact ih
  | case5 p _ _ parent _ t' hparent ih =>
    rw [hparent] at ih
    exact (file?_ensureDirectory t' current p).trans ih
  | case6 p => exact file?_ensureDirectory t current p

end Files

end FileTree

/-! ## Mirrors -/

/-- The memory holds the files below a place, each under its path from there, and nothing else. -/
structure Memory.Mirrors (m : Memory) (t : FileTree) (root : Place) : Prop where
  get?_eq : ∀ p : Path, p.IsPlain → m.get? p.shown = t.file? (root ++ Path.segments p.bytes)
  isPlain : ∀ key content, m.get? key = some content → (Path.ofString key).IsPlain

/-! ## The mirror of a tree -/

/-- The file of an entry below a place, under its path from there if that is plain. -/
def FileTree.mirrored? (t : FileTree) (root place : Place) : Option (String × Bytes) :=
  let p : Path := ⟨Path.unsegment (place.drop root.length)⟩
  if root ++ Path.segments p.bytes = place ∧ p.IsPlain then (t.file? place).map (p.shown, ·)
  else none

/-- The memory that holds the files below a place of a tree. -/
def Memory.mirror (t : FileTree) (root : Place) : Memory where
  files := t.entries.filterMap fun x => t.mirrored? root x.1
  failures := []

section Mirror

variable {t : FileTree} {root place : Place} {key : String} {content : Bytes}

theorem FileTree.mirrored?_eq_some_iff : t.mirrored? root place = some (key, content) ↔
    ∃ p : Path, p.IsPlain ∧ p.shown = key ∧ root ++ Path.segments p.bytes = place ∧
      t.file? place = some content := by
  unfold mirrored?
  constructor
  · intro h
    obtain ⟨hplace, hplain⟩ : _ ∧ _ := by
      by_contra hnot
      rw [if_neg hnot] at h
      cases h
    rw [if_pos ⟨hplace, hplain⟩] at h
    obtain ⟨held, hheld, hpair⟩ := Option.map_eq_some_iff.mp h
    cases hpair
    exact ⟨_, hplain, rfl, hplace, hheld⟩
  · rintro ⟨p, hplain, rfl, rfl, hfile⟩
    simp [Path.unsegment_segments, hplain, hfile]

theorem Memory.exists_of_get?_mirror (h : (mirror t root).get? key = some content) :
    ∃ p : Path, p.IsPlain ∧ p.shown = key ∧
      t.file? (root ++ Path.segments p.bytes) = some content := by
  obtain ⟨before, after, hfiles, -⟩ := List.lookup_eq_some_iff.mp h
  have hmem : (key, content) ∈ (mirror t root).files := by simp [hfiles]
  obtain ⟨x, -, hx⟩ := List.mem_filterMap.mp hmem
  obtain ⟨p, hplain, hkey, hplace, hfile⟩ := FileTree.mirrored?_eq_some_iff.mp hx
  exact ⟨p, hplain, hkey, hplace ▸ hfile⟩

theorem Memory.get?_mirror_ne_none {p : Path} (hp : p.IsPlain)
    (h : t.file? (root ++ Path.segments p.bytes) = some content) :
    (mirror t root).get? p.shown ≠ none := by
  have hentry : ∃ x ∈ t.entries, x.1 = root ++ Path.segments p.bytes := by
    have hne : root ++ Path.segments p.bytes ≠ [] :=
      List.append_ne_nil_of_right_ne_nil _ (Path.segments_ne_nil p.bytes)
    unfold FileTree.file? FileTree.find? at h
    rw [if_neg hne] at h
    split at h
    next held hlookup =>
      obtain ⟨before, after, hentries, -⟩ := List.lookup_eq_some_iff.mp hlookup
      exact ⟨_, by rw [hentries]; exact List.mem_append_right _ List.mem_cons_self, rfl⟩
    next => cases h
  obtain ⟨x, hx, hplace⟩ := hentry
  have hmem : (p.shown, content) ∈ (mirror t root).files :=
    List.mem_filterMap.mpr ⟨x, hx,
      FileTree.mirrored?_eq_some_iff.mpr ⟨p, hp, rfl, hplace.symm, hplace ▸ h⟩⟩
  intro hnone
  have hother := List.lookup_eq_none_iff.mp hnone _ hmem
  simp at hother

/-- Whatever a tree holds there is a memory that mirrors it. -/
theorem Memory.mirrors_mirror (t : FileTree) (root : Place) : (mirror t root).Mirrors t root where
  get?_eq p hp := by
    cases hget : (mirror t root).get? p.shown with
    | some content =>
      obtain ⟨q, hq, hkey, hfile⟩ := exists_of_get?_mirror hget
      rw [← hq.eq_of_shown hp hkey, hfile]
    | none =>
      cases hfile : t.file? (root ++ Path.segments p.bytes) with
      | none => rfl
      | some content => exact absurd hget (get?_mirror_ne_none hp hfile)
  isPlain key content hget := by
    obtain ⟨p, hp, rfl, -⟩ := exists_of_get?_mirror hget
    rwa [hp.text_eq]

end Mirror

section Steps

variable {current root : Place} {base : Path} {t t' : FileTree} {m : Memory}

namespace Disk

/-- Of the calls only a write changes a file, the one at the place that its path spells. -/
theorem file?_attempt (hroot : t.locateBase current base = .ok root) {c : Call}
    (hplain : ∀ p content, c = .write p content → p.IsPlain)
    (h : (Storage.disk current base).attempt c t = (t', none)) (place : Place) :
    t'.file? place = match c with
      | .write p content =>
        if place = root ++ Path.segments p.bytes then some content else t.file? place
      | _ => t.file? place := by
  cases c with
  | read p =>
    obtain rfl := eq_of_read h
    rfl
  | makeDir p =>
    have hkept := FileTree.file?_makeDir t current (base.join p)
    rw [show t.makeDir current (base.join p) = (t', none) from h] at hkept
    exact congrFun hkept place
  | write p content =>
    have hroot' := (extends_attempt h).locateBase hroot
    obtain ⟨target, hne, -, rfl, hlocate⟩ := FileTree.exists_of_write (write_eq_ok h)
    obtain rfl := FileTree.place_of_locate hroot' (hplain p content rfl) hlocate
    exact FileTree.file?_put_file hne content place

/-- A file that no call writes is as before, and where no call writes there is no new one. -/
theorem file?_performs {calls : List Call} (hroot : t.locateBase current base = .ok root)
    (hplain : ∀ p content, .write p content ∈ calls → p.IsPlain)
    (h : (Storage.disk current base).Performs calls t t') {place : Place}
    (hother : ∀ p content, .write p content ∈ calls → place ≠ root ++ Path.segments p.bytes) :
    t'.file? place = t.file? place := by
  induction calls generalizing t with
  | nil =>
    obtain rfl := h
    rfl
  | cons c rest ih =>
    obtain ⟨next, hattempt, hrest⟩ := h
    have hstep := file?_attempt hroot
      (fun p content heq => hplain p content (heq ▸ List.mem_cons_self)) hattempt place
    rw [ih ((extends_attempt hattempt).locateBase hroot)
      (fun p content hmem => hplain p content (List.mem_cons_of_mem c hmem)) hrest
      (fun p content hmem => hother p content (List.mem_cons_of_mem c hmem)), hstep]
    cases c with
    | read p => rfl
    | makeDir p => rfl
    | write p content => exact if_neg (hother p content List.mem_cons_self)

end Disk

namespace Memory.Mirrors

/-- A call that succeeds on disk keeps memory and disk in step. -/
theorem perform (hm : m.Mirrors t root) (hroot : t.locateBase current base = .ok root) {c : Call}
    (hplain : ∀ p content, c = .write p content → p.IsPlain)
    (h : (Storage.disk current base).attempt c t = (t', none)) :
    (m.perform c).Mirrors t' root := by
  have hfile := Disk.file?_attempt hroot hplain h
  cases c with
  | read p => exact ⟨fun q hq => (hm.get?_eq q hq).trans (hfile _).symm, hm.isPlain⟩
  | makeDir p => exact ⟨fun q hq => (hm.get?_eq q hq).trans (hfile _).symm, hm.isPlain⟩
  | write p content =>
    have hp : p.IsPlain := hplain p content rfl
    constructor
    · intro q hq
      rw [Memory.perform, get?_put, hfile]
      by_cases heq : q = p
      · simp [heq]
      · have hkey : q.shown ≠ p.shown := fun h => heq (hq.eq_of_shown hp h)
        have hplace : Path.segments q.bytes ≠ Path.segments p.bytes :=
          fun h => heq (congrArg Path.mk (Path.segments_inj h))
        simp [hkey, hplace, hm.get?_eq q hq]
    · intro key held hheld
      rw [Memory.perform, get?_put] at hheld
      by_cases hkey : key = p.shown
      · rw [hkey, hp.text_eq]
        exact hp
      · rw [if_neg hkey] at hheld
        exact hm.isPlain key held hheld

theorem performs {calls : List Call} (hm : m.Mirrors t root)
    (hroot : t.locateBase current base = .ok root)
    (hplain : ∀ p content, .write p content ∈ calls → p.IsPlain)
    (h : (Storage.disk current base).Performs calls t t') :
    (calls.foldl Memory.perform m).Mirrors t' root := by
  induction calls generalizing t m with
  | nil =>
    obtain rfl := h
    exact hm
  | cons c rest ih =>
    obtain ⟨next, hattempt, hrest⟩ := h
    have hstep := hm.perform hroot
      (fun p content heq => hplain p content (heq ▸ List.mem_cons_self)) hattempt
    exact ih hstep ((Disk.extends_attempt hattempt).locateBase hroot)
      (fun p content hmem => hplain p content (List.mem_cons_of_mem c hmem)) hrest

/-- A file that is read on disk lies in memory. -/
theorem get?_of_read (hm : m.Mirrors t root) (hroot : t.locateBase current base = .ok root)
    {p : Path} (hp : p.IsPlain) {content : Bytes}
    (h : t.read current (base.join p) = .ok content) : m.get? p.shown = some content := by
  obtain ⟨place, hlocate, hfind⟩ := FileTree.exists_of_read h
  obtain rfl := FileTree.place_of_locate hroot hp hlocate
  rw [hm.get?_eq p hp, FileTree.file?, hfind]

end Memory.Mirrors

end Steps

/-! ## Whole runs -/

namespace Publication

theorem isPlain_chunkPath {dir : Path} (hdir : dir.IsPlain) (c : Chunk) :
    (chunkPath dir c).IsPlain :=
  hdir.join (Path.isPlain_nameOf c.index)

theorem isPlain_of_mem_receipt {s : Settings} {plan : Plan} (hdir : s.outputDir.IsPlain)
    (hmetadata : s.metadataPath.IsPlain) {p : Path}
    (h : p ∈ s.metadataPath :: (receipt s plan).chunkFiles) : p.IsPlain := by
  rcases List.mem_cons.mp h with rfl | h
  · exact hmetadata
  · obtain ⟨c, -, rfl⟩ := List.mem_map.mp h
    exact isPlain_chunkPath hdir c

/-- In a memory without failures a plan is published to the end. -/
theorem publish_healed (base : Path) (s : Settings) (plan : Plan) {m : Memory}
    (h : m.failures = []) :
    ((publish s plan).run (.memory base) m).outcome = .ok (receipt s plan) := by
  have hall : m.granted (plannedCalls s plan) = plannedCalls s plan :=
    Memory.granted_eq_self fun c _ => Memory.refusalOf_of_healed h c
  rw [run_publish]
  dsimp only
  rw [Memory.firstRefused_of_granted hall]

/-- A run that succeeds on disk, with plain paths below a base, succeeds in a memory that mirrors what
lies below that base: with the same receipt and the same lines, and so that the memory mirrors the
disk afterwards. Files that the run does not write are as before in both. -/
theorem run_mirrored (current : Place) (base base' : Path) (s : Settings)
    (isMonitored isMonitored' : Bool) (t : FileTree) (m : Memory) (root : Place)
    (hroot : t.locateBase current base = .ok root) (hinput : s.inputPath.IsPlain)
    (hdir : s.outputDir.IsPlain) (hmetadata : s.metadataPath.IsPlain)
    (hmirrors : m.Mirrors t root) (hhealed : m.failures = []) (written : Receipt)
    (hok : ((run base s isMonitored).run (.disk current base) t).outcome = .ok written) :
    let onDisk := (run base s isMonitored).run (.disk current base) t
    let inMemory := (run base' s isMonitored').run (.memory base') m
    inMemory.outcome = .ok written ∧ inMemory.lines = onDisk.lines ∧
      inMemory.store.Mirrors onDisk.store root ∧
      (∀ place, (∀ p ∈ s.metadataPath :: written.chunkFiles,
        place ≠ root ++ Path.segments p.bytes) → onDisk.store.file? place = t.file? place) ∧
      (∀ key, (∀ p ∈ s.metadataPath :: written.chunkFiles, key ≠ p.shown) →
        inMemory.store.get? key = m.get? key) := by
  intro onDisk inMemory
  obtain ⟨input, data, plan, hread, hcsv, hplan, hstore, hpublished⟩ :=
    exists_plan_of_run (.disk current base) hok
  have hplanOf : ∀ base, planOf base s (.ok input) = .ok plan := by
    intro base
    simp [planOf, lettersOf, hcsv, hplan, Except.mapError]
  have hplanned : planOf base s ((Storage.disk current base).read s.inputPath t) = .ok plan :=
    hread ▸ hplanOf base
  have hlines :=
    congrArg Observed.lines (observe_run_of_ok (.disk current base) s isMonitored hplanned)
  obtain ⟨rfl, hperforms⟩ := performs_publish hpublished
  rw [← hstore] at hperforms
  have hheld : m.get? s.inputPath.shown = some input := hmirrors.get?_of_read hroot hinput hread
  have hread' : m.read s.inputPath = .ok input := by
    rw [Memory.read, hheld, Memory.refusal?, hhealed]
    rfl
  obtain ⟨-, hstore', hlines', houtcome'⟩ :=
    run_of_plan base' isMonitored' (hread' ▸ hplanOf base')
  have hhealthy := publish_healed base' s plan hhealed
  obtain ⟨-, hleft, -⟩ := publish_again base' s plan hhealthy
  have hplain : ∀ p content, .write p content ∈ plannedCalls s plan → p.IsPlain :=
    fun p content hmem => isPlain_of_mem_receipt hdir hmetadata (mem_of_write_mem hmem)
  refine ⟨houtcome'.trans hhealthy, ?_, ?_, ?_, ?_⟩
  · calc inMemory.lines = plan.chunks.map (progressLine s) ++ closingLines s plan :=
          hlines'.trans (publish_ok hhealthy).1
      _ = onDisk.lines := (hlines.trans (publish_ok hpublished).1).symm
  · rw [show inMemory.store = _ from hstore'.trans hleft]
    exact hmirrors.performs hroot hplain hperforms
  · intro place hother
    exact Disk.file?_performs hroot hplain hperforms
      fun p content hmem => hother p (mem_of_write_mem hmem)
  · intro key hother
    rw [show inMemory.store = _ from hstore'.trans hleft]
    exact Memory.get?_foldl_perform (fun p content hmem => (hother p (mem_of_write_mem hmem)).symm) m

/-- Two letters published below a base that also holds a note. -/
theorem run_mirrored_beside_note :
    let base : Path := .ofString "/work/"
    let s : Settings := Settings.standard
    let work : Place := [Utf8.ofString "work"]
    let note : Path := .ofString "notes/today.txt"
    let below (p : Path) : Place := work ++ Path.segments p.bytes
    let t : FileTree :=
      ⟨[(work, .directory), (work ++ [Utf8.ofString "_data"], .directory),
        (below s.inputPath, .file (Utf8.ofString "id\n1\n2\n")),
        (work ++ [Utf8.ofString "notes"], .directory), (below note, .file [0x68, 0x69])]⟩
    let onDisk := (run base s false).run (.disk [] base) t
    let inMemory := (run note s true).run (.memory note) (.mirror t work)
    ∃ written, onDisk.outcome = .ok written ∧ inMemory.outcome = .ok written ∧
      inMemory.lines = onDisk.lines ∧ inMemory.store.Mirrors onDisk.store work ∧
      onDisk.store.file? (below note) = some [0x68, 0x69] ∧
      inMemory.store.get? note.shown = some [0x68, 0x69] := by
  intro base s work note below t onDisk inMemory
  let chunkFile : Path := .ofString "data/chunks/letters-chunk-00.json"
  have hok : onDisk.outcome = .ok ⟨[chunkFile], s.metadataPath, ⟨2, 1, 1000, ["id"]⟩⟩ :=
    eq_ok_of_toOption (by decide +kernel)
  obtain ⟨houtcome, hlines, hmirrors, hkept, -⟩ :=
    run_mirrored [] base note s false true t (.mirror t work) work (by decide +kernel)
      (by decide +kernel) (by decide +kernel) (by decide +kernel) (Memory.mirrors_mirror t work) rfl
      _ hok
  have hnote : onDisk.store.file? (below note) = some [0x68, 0x69] := by
    have hapart : ∀ p ∈ [s.metadataPath, chunkFile], below note ≠ below p := by decide +kernel
    rw [hkept (below note) hapart]
    decide +kernel
  have hplain : note.IsPlain := by decide +kernel
  exact ⟨_, hok, houtcome, hlines, hmirrors, hnote, (hmirrors.get?_eq note hplain).trans hnote⟩

end Publication

end LetterPages
