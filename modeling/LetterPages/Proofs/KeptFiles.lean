import LetterPages.Proofs.Scripts
import LetterPages.Proofs.WrittenFiles

/-!
# Files kept on disk

Making directories adds to a tree and changes nothing in it. Writing changes one file, the one that
the path leads to afterwards. So a file stays as it is until a path that leads to it is written.
-/

namespace LetterPages

namespace FileTree

/-! ## Making directories -/

/-- Every entry is in the other tree as well, just as it is. -/
def Grows (t t' : FileTree) : Prop :=
  ∀ place e, t.find? place = some e → t'.find? place = some e

variable {t t' t'' : FileTree} {current : Place} {p : Path}

theorem Grows.refl (t : FileTree) : t.Grows t :=
  fun _ _ h => h

theorem Grows.trans (h : t.Grows t') (h' : t'.Grows t'') : t.Grows t'' :=
  fun place e hfind => h' place e (h place e hfind)

theorem isDirectory_iff {place : Place} : t.isDirectory place ↔ t.find? place = some .directory :=
  beq_iff_eq

theorem Grows.extends (h : t.Grows t') : t.Extends t' where
  directory hdir := isDirectory_iff.mpr (h _ _ (isDirectory_iff.mp hdir))
  found {place} hfound := by
    obtain ⟨e, he⟩ := Option.isSome_iff_exists.mp hfound
    rw [h place e he]
    rfl

theorem grows_addDirectory (h : t.addDirectory current p = .ok t') : t.Grows t' := by
  unfold addDirectory at h
  obtain ⟨found, htarget, h⟩ := exists_of_bind_eq_ok h
  cases found with
  | none => cases h
  | some target =>
    obtain ⟨-, h⟩ := of_guard_eq_ok h
    obtain ⟨hfree, h⟩ := of_guard_eq_ok h
    cases h
    have hroot : target.place ≠ [] := List.append_ne_nil_of_right_ne_nil _ (List.cons_ne_nil _ _)
    intro place e hfind
    rw [find?_put hroot, if_neg]
    · exact hfind
    · rintro rfl
      rw [hfind] at hfree
      exact hfree rfl

theorem grows_ensureDirectory (t : FileTree) (current : Place) (p : Path) :
    t.Grows (t.ensureDirectory current p).1 := by
  unfold ensureDirectory
  cases hadd : t.addDirectory current p with
  | ok t' => exact grows_addDirectory hadd
  | error reason =>
    dsimp only
    split
    · exact .refl t
    · exact .refl t

/-- Whether or not it succeeds, making directories only adds to the tree. -/
theorem grows_makeDir (t : FileTree) (current : Place) (p : Path) :
    t.Grows (t.makeDir current p).1 := by
  fun_induction makeDir t current p with
  | case1 => exact .refl t
  | case2 p _ t' hadd => exact grows_addDirectory hadd
  | case3 => exact .refl t
  | case4 p _ _ parent _ t' reason hparent ih =>
    rw [hparent] at ih
    exact ih
  | case5 p _ _ parent _ t' hparent ih =>
    rw [hparent] at ih
    exact ih.trans (grows_ensureDirectory t' current p)
  | case6 p => exact grows_ensureDirectory t current p

theorem exists_of_read {content : Bytes} (h : t.read current p = .ok content) :
    ∃ place, t.locate current p = .ok place ∧ t.find? place = some (.file content) := by
  obtain ⟨place, hlocate, h⟩ := exists_of_bind_eq_ok h
  refine ⟨place, hlocate, ?_⟩
  split at h
  next held hfind =>
    cases h
    exact hfind
  next => cases h
  next => cases h

end FileTree

/-! ## Calls on disk -/

namespace Disk

section Calls

variable {current : Place} {base p : Path} {t t' : FileTree}

theorem grows_of_makeDir (h : (Storage.disk current base).attempt (.makeDir p) t = (t', none)) :
    t.Grows t' := by
  have hgrows := FileTree.grows_makeDir t current (base.join p)
  rw [show t.makeDir current (base.join p) = (t', none) from h] at hgrows
  exact hgrows

theorem eq_of_read (h : (Storage.disk current base).attempt (.read p) t = (t', none)) : t = t' := by
  have hstate := Storage.attempt_read_state (Storage.disk current base) p t
  rw [h] at hstate
  exact hstate.symm

theorem extends_attempt {c : Call} (h : (Storage.disk current base).attempt c t = (t', none)) :
    t.Extends t' := by
  cases c with
  | read p =>
    obtain rfl := eq_of_read h
    exact .refl t
  | makeDir p => exact (grows_of_makeDir h).extends
  | write p content =>
    obtain ⟨place, hroot, hplace, rfl, -⟩ := FileTree.exists_of_write (write_eq_ok h)
    exact FileTree.extends_put hplace hroot (.file content)

theorem extends_performs {calls : List Call}
    (h : (Storage.disk current base).Performs calls t t') : t.Extends t' := by
  induction calls generalizing t with
  | nil =>
    obtain rfl := h
    exact .refl t
  | cons c rest ih =>
    obtain ⟨next, hattempt, hrest⟩ := h
    exact (extends_attempt hattempt).trans (ih hrest)

/-- A file stays as it is if no written path leads to it in the end. -/
theorem find?_performs {calls : List Call} (h : (Storage.disk current base).Performs calls t t')
    {place : Place} {content : Bytes} (hfind : t.find? place = some (.file content))
    (hother : ∀ q written, .write q written ∈ calls →
      t'.locate current (base.join q) ≠ .ok place) : t'.find? place = some (.file content) := by
  induction calls generalizing t with
  | nil =>
    obtain rfl := h
    exact hfind
  | cons c rest ih =>
    obtain ⟨next, hattempt, hrest⟩ := h
    apply ih hrest
    · cases c with
      | read q =>
        obtain rfl := eq_of_read hattempt
        exact hfind
      | makeDir q => exact grows_of_makeDir hattempt place _ hfind
      | write q written =>
        obtain ⟨target, hroot, -, rfl, hlocate⟩ := FileTree.exists_of_write (write_eq_ok hattempt)
        rw [FileTree.find?_put hroot, if_neg]
        · exact hfind
        · rintro rfl
          exact hother q written List.mem_cons_self ((extends_performs hrest).locate hlocate)
    · intro q written hmem
      exact hother q written (List.mem_cons_of_mem c hmem)

/-- An input that no written path leads to is read as before. -/
theorem read_performs {calls : List Call} (h : (Storage.disk current base).Performs calls t t')
    {content : Bytes} (hread : t.read current (base.join p) = .ok content)
    (hother : ∀ q written, .write q written ∈ calls →
      t'.locate current (base.join q) ≠ t'.locate current (base.join p)) :
    t'.read current (base.join p) = .ok content := by
  obtain ⟨place, hlocate, hfind⟩ := FileTree.exists_of_read hread
  have hlocate' := (extends_performs h).locate hlocate
  apply FileTree.read_of_locate hlocate'
  apply find?_performs h hfind
  rw [← hlocate']
  exact hother

theorem exists_locate_of_write {calls : List Call}
    (h : (Storage.disk current base).Performs calls t t') {content : Bytes}
    (hmem : .write p content ∈ calls) : ∃ place, t'.locate current (base.join p) = .ok place := by
  obtain ⟨before, after, rfl⟩ := List.append_of_mem hmem
  obtain ⟨between, -, next, hattempt, hafter⟩ := Job.performs_append_iff.mp h
  obtain ⟨place, -, -, -, hlocate⟩ := FileTree.exists_of_write (write_eq_ok hattempt)
  exact ⟨place, (extends_performs hafter).locate hlocate⟩

theorem read_written {before after : List Call} {content : Bytes}
    (h : (Storage.disk current base).Performs (before ++ .write p content :: after) t t')
    (hother : ∀ q written, .write q written ∈ after →
      t'.locate current (base.join q) ≠ t'.locate current (base.join p)) :
    t'.read current (base.join p) = .ok content := by
  obtain ⟨between, -, next, hattempt, hafter⟩ := Job.performs_append_iff.mp h
  exact read_performs hafter (FileTree.read_write (write_eq_ok hattempt)) hother

end Calls

end Disk

end LetterPages
