import LetterPages.Basic
import LetterPages.Storage.Disk

/-!
# Files read back from a tree

A file that has been written is found at the same path, with the content that was written: writing
it takes no directory away, so the path leads where it led before.
-/

namespace LetterPages

/-! ## The last segment -/

theorem Path.getLast?_of_segments {b : Bytes} (h : (segments b).getLast? = some []) :
    b = [] ∨ b.getLast? = some slash := by
  induction b with
  | nil => exact .inl rfl
  | cons x r ih =>
    right
    have hlast : r.getLast? = some slash → (x :: r).getLast? = some slash := by
      intro hr
      rw [List.getLast?_cons, hr]
      rfl
    rw [segments] at h
    split at h
    next hx =>
      rw [List.getLast?_cons_of_ne_nil (segments_ne_nil r)] at h
      rcases ih h with rfl | hr
      · rw [hx]
        rfl
      · exact hlast hr
    next =>
      cases hr : segments r with
      | nil => exact absurd hr (segments_ne_nil r)
      | cons s rest =>
        rw [hr] at h
        cases rest with
        | nil => cases h
        | cons t rest =>
          apply hlast
          rw [hr, List.getLast?_cons_cons] at ih
          dsimp only at h
          rw [List.getLast?_cons_cons] at h
          rcases ih h with rfl | hslash
          · cases hr
          · exact hslash

namespace FileTree

/-- A path without a slash at its end is its segments before the last component and that component. -/
theorem segments_of_lastComponent? {p : Path} {before : List Bytes} {name : Bytes}
    (h : lastComponent? p = some (before, name)) (hempty : p.bytes ≠ [])
    (hslash : p.bytes.getLast? ≠ some Path.slash) :
    Path.segments p.bytes = before ++ [name] := by
  unfold lastComponent? at h
  cases hsegments : (Path.segments p.bytes).reverse with
  | nil =>
    exact absurd (List.reverse_eq_nil_iff.mp hsegments) (Path.segments_ne_nil p.bytes)
  | cons last others =>
    have hlast : (Path.segments p.bytes).getLast? = some last := by
      rw [← List.head?_reverse, hsegments]
      rfl
    have hnamed : last ≠ [] := by
      rintro rfl
      rcases Path.getLast?_of_segments hlast with h | h
      · exact hempty h
      · exact hslash h
    rw [hsegments, List.dropWhile_cons_of_neg (by simpa using hnamed)] at h
    cases h
    rw [← List.reverse_reverse (Path.segments p.bytes), hsegments, List.reverse_cons]

/-! ## Trees with more in them -/

/-- Every directory is one in the other tree too, and wherever there is an entry there is one in the
other tree. -/
structure Extends (t t' : FileTree) : Prop where
  directory : ∀ {place : Place}, t.isDirectory place → t'.isDirectory place
  found : ∀ {place : Place}, (t.find? place).isSome → (t'.find? place).isSome

namespace Extends

variable {t t' t'' : FileTree}

theorem refl (t : FileTree) : t.Extends t :=
  ⟨id, id⟩

theorem trans (h : t.Extends t') (h' : t'.Extends t'') : t.Extends t'' :=
  ⟨fun hdir => h'.directory (h.directory hdir), fun hfound => h'.found (h.found hfound)⟩

/-- Each place on a way is a directory, so no new entry stands in the way. -/
theorem step (hmore : t.Extends t') {start stop : Place} {name : Bytes}
    (h : t.step start name = .ok stop) : t'.step start name = .ok stop := by
  unfold FileTree.step at h ⊢
  obtain ⟨hdir, h⟩ := of_guard_eq_ok h
  have hdir' : t'.isDirectory start := hmore.directory (by simpa using hdir)
  rw [hdir', Bool.not_true, if_neg Bool.false_ne_true]
  by_cases hfound : (t.find? (start ++ [name])).isSome
  · rw [if_pos hfound] at h
    rw [if_pos (hmore.found hfound)]
    exact h
  · rw [if_neg hfound] at h
    -- without an entry the way goes on only from a dot or two
    grind

theorem walk (hmore : t.Extends t') {start stop : Place} {names : List Bytes}
    (h : t.walk start names = .ok stop) : t'.walk start names = .ok stop := by
  induction names generalizing start with
  | nil => exact h
  | cons name names ih =>
    unfold FileTree.walk at h ih ⊢
    rw [List.foldlM_cons] at h ⊢
    obtain ⟨next, hstep, hrest⟩ := exists_of_bind_eq_ok h
    rw [hmore.step hstep]
    exact ih hrest

theorem locate (hmore : t.Extends t') {current place : Place} {p : Path}
    (h : t.locate current p = .ok place) : t'.locate current p = .ok place := by
  unfold FileTree.locate at h ⊢
  obtain ⟨u, hcheck, hwalk⟩ := exists_of_bind_eq_ok h
  rw [hcheck]
  exact hmore.walk hwalk

end Extends

/-! ## One more file -/

section Put

variable {t : FileTree} {place : Place} {content : Bytes}

theorem lookup_replace (place : Place) (e : Entry) (entries : List (Place × Entry))
    (other : Place) : (replace place e entries).lookup other =
      if other = place then some e else entries.lookup other :=
  lookup_replacing (replace place e) rfl (fun _ _ => rfl) entries other

theorem find?_put (hplace : place ≠ []) (e : Entry) (other : Place) :
    (t.put place e).find? other = if other = place then some e else t.find? other := by
  unfold find? put
  by_cases hroot : other = []
  · subst hroot
    rw [if_pos rfl, if_neg hplace.symm, if_pos rfl]
  · rw [if_neg hroot, lookup_replace, if_neg hroot]

theorem extends_put (hplace : ¬ t.isDirectory place) (hroot : place ≠ []) (e : Entry) :
    t.Extends (t.put place e) where
  directory {other} h := by
    have hne : other ≠ place := by
      rintro rfl
      exact hplace h
    rw [isDirectory, find?_put hroot, if_neg hne]
    exact h
  found {other} h := by
    rw [find?_put hroot]
    split
    · rfl
    · exact h

end Put

/-! ## Writing and reading -/

theorem target?_eq_some {t : FileTree} {current : Place} {p : Path} {target : Target}
    (h : t.target? current p = .ok (some target)) :
    checkPath p = .ok () ∧ t.isDirectory target.parent ∧ isHere target.name = false ∧
      target.name ≠ dotDot ∧ target.isSlashed = (p.bytes.getLast? == some Path.slash) ∧
      ∃ before, lastComponent? p = some (before, target.name) ∧
        t.walk (startOf current p) before = .ok target.parent := by
  unfold target? at h
  obtain ⟨⟨⟩, hcheck, h⟩ := exists_of_bind_eq_ok h
  refine ⟨hcheck, ?_⟩
  split at h
  next => cases h
  next before name hlast =>
    obtain ⟨parent, hwalk, h⟩ := exists_of_bind_eq_ok h
    obtain ⟨hdir, h⟩ := of_guard_eq_ok h
    split at h
    next => cases h
    next hname =>
      cases h
      simp only [Bool.or_eq_true, beq_iff_eq, not_or, Bool.not_eq_true] at hname
      exact ⟨by simpa using hdir, hname.1, hname.2, rfl, before, hlast, hwalk⟩

theorem locate_of_walk {t : FileTree} {current parent place : Place} {p : Path}
    {before : List Bytes} {name : Bytes} (hcheck : checkPath p = .ok ())
    (hsegments : Path.segments p.bytes = before ++ [name])
    (hwalk : t.walk (startOf current p) before = .ok parent)
    (hstep : t.step parent name = .ok place) : t.locate current p = .ok place := by
  have hnames : t.walk (startOf current p) (before ++ [name]) = .ok place := by
    unfold walk at hwalk ⊢
    rw [List.foldlM_append, hwalk]
    dsimp only [bind, Except.bind]
    rw [List.foldlM_cons, hstep]
    rfl
  rw [locate, hcheck, hsegments]
  exact hnames

theorem read_of_locate {t : FileTree} {current place : Place} {p : Path} {content : Bytes}
    (hlocate : t.locate current p = .ok place) (hfind : t.find? place = some (.file content)) :
    t.read current p = .ok content := by
  rw [read, hlocate]
  dsimp only [bind, Except.bind]
  rw [hfind]

/-- Writing puts a file at a place that is no directory, and the path leads there afterwards. -/
theorem exists_of_write {t t' : FileTree} {current : Place} {p : Path} {content : Bytes}
    (h : t.write current p content = .ok t') :
    ∃ place, place ≠ [] ∧ ¬ t.isDirectory place ∧ t' = t.put place (.file content) ∧
      t'.locate current p = .ok place := by
  unfold write at h
  obtain ⟨found, htarget, h⟩ := exists_of_bind_eq_ok h
  cases found with
  | none => cases h
  | some target =>
    obtain ⟨hslash, h⟩ := of_guard_eq_ok h
    obtain ⟨hlength, h⟩ := of_guard_eq_ok h
    obtain ⟨hplace, h⟩ := of_guard_eq_ok h
    cases h
    obtain ⟨hcheck, hdir, hhere, hdots, hslashed, before, hlast, hwalk⟩ := target?_eq_some htarget
    have hempty : p.bytes ≠ [] := by
      unfold checkPath at hcheck
      obtain ⟨-, hcheck⟩ := of_guard_eq_ok hcheck
      exact (of_guard_eq_ok hcheck).1
    have hsegments : Path.segments p.bytes = before ++ [target.name] := by
      apply segments_of_lastComponent? hlast hempty
      intro hend
      rw [hslashed, hend] at hslash
      exact hslash rfl
    have hroot : target.place ≠ [] := List.append_ne_nil_of_right_ne_nil _ (List.cons_ne_nil _ _)
    have hmore := extends_put hplace hroot (.file content)
    have hfind : (t.put target.place (.file content)).find? target.place =
        some (.file content) := by rw [find?_put hroot, if_pos rfl]
    have hstep : (t.put target.place (.file content)).step target.parent target.name =
        .ok target.place := by
      rw [step, hmore.directory hdir, hhere, if_neg (by decide), if_neg (by decide),
        if_neg hdots, if_neg hlength, ← Target.place, hfind]
      rfl
    exact ⟨target.place, hroot, hplace, rfl,
      locate_of_walk hcheck hsegments (hmore.walk hwalk) hstep⟩

/-- What has been written at a path is read there. -/
theorem read_write {t t' : FileTree} {current : Place} {p : Path} {content : Bytes}
    (h : t.write current p content = .ok t') : t'.read current p = .ok content := by
  obtain ⟨place, hroot, -, rfl, hlocate⟩ := exists_of_write h
  apply read_of_locate hlocate
  rw [find?_put hroot, if_pos rfl]

end FileTree

theorem Disk.write_eq_ok {current : Place} {base p : Path} {content : Bytes} {t t' : FileTree}
    (h : (Storage.disk current base).write p content t = (t', none)) :
    t.write current (base.join p) content = .ok t' := by
  change Disk.write current (base.join p) content t = (t', none) at h
  unfold Disk.write at h
  cases hwrite : t.write current (base.join p) content with
  | error reason =>
    rw [hwrite] at h
    cases h
  | ok u =>
    rw [hwrite] at h
    cases h
    rfl

/-- On disk a write that is not refused is read back from the same path. -/
theorem Disk.read_of_write {current : Place} {base p : Path} {content : Bytes}
    {before after : FileTree}
    (h : (Storage.disk current base).write p content before = (after, none)) :
    after.read current (base.join p) = .ok content :=
  FileTree.read_write (write_eq_ok h)

end LetterPages
