import LetterPages.Proofs.ChunkNames
import LetterPages.Storage.FileTree
import LetterPages.Basic

/-!
# Places of chunk files

The full paths of the chunk files of one directory differ in their last segment, which is the name of
the file. So on disk they lead to places of their own.
-/

namespace LetterPages

/-! ## Segments of paths -/

namespace Path

theorem segments_append_slash (b r : Bytes) :
    segments (b ++ slash :: r) = segments b ++ segments r := by
  induction b with
  | nil => simp [segments]
  | cons x b ih =>
    rw [List.cons_append, segments, segments]
    by_cases hx : x = slash
    · rw [if_pos hx, if_pos hx, ih, List.cons_append]
    · rw [if_neg hx, if_neg hx, ih]
      cases hb : segments b with
      | nil => exact absurd hb (segments_ne_nil b)
      | cons s rest => rfl

theorem segments_of_not_mem {b : Bytes} (h : slash ∉ b) : segments b = [b] := by
  induction b with
  | nil => rfl
  | cons x b ih =>
    rw [List.mem_cons, not_or] at h
    rw [segments, if_neg (Ne.symm h.1), ih h.2]

/-- What stands in front of a name is nothing or ends in a slash. -/
theorem front_eq (dir : Path) : dir.front = [] ∨ ∃ body, dir.front = body ++ [slash] := by
  rw [front]
  by_cases hopen : dir.isOpen
  · rw [if_pos hopen]
    rw [isOpen, Bool.or_eq_true, List.isEmpty_iff, beq_iff_eq] at hopen
    rcases hopen with hnil | hlast
    · exact .inl hnil
    · exact .inr (List.getLast?_eq_some_iff.mp hlast)
  · rw [if_neg hopen]
    exact .inr ⟨dir.bytes, rfl⟩

end Path

namespace Chunk

/-- The characters of a name are letters, digits, dashes and dots. -/
theorem of_mem_nameOf {index : Nat} {c : Char} (h : c ∈ (nameOf index).toList) :
    c.isAlphanum ∨ c = '-' ∨ c = '.' := by
  have hdigits : c ∈ (toString index).toList → c.isAlphanum := by
    intro hc
    simp [Char.isAlphanum, isDigit_of_mem_toString hc]
  have hfixed : ∀ c ∈ "letters-chunk-".toList ++ "0".toList ++ ".json".toList,
      c.isAlphanum ∨ c = '-' ∨ c = '.' := forall_of_all (by decide)
  unfold nameOf label at h
  grind [String.toList_append]

theorem not_mem_nameOf {b : UInt8} {c : Char} (hb : b.toNat = c.toNat) (hascii : c.toNat < 0x80)
    (hc : ¬ (c.isAlphanum ∨ c = '-' ∨ c = '.')) (index : Nat) :
    b ∉ Utf8.ofString (nameOf index) :=
  fun h => hc (of_mem_nameOf (Utf8.mem_of_mem_encode h hascii hb))

theorem slash_not_mem_nameOf (index : Nat) : Path.slash ∉ Utf8.ofString (nameOf index) :=
  not_mem_nameOf rfl (c := '/') (by decide) (by decide) index

theorem nul_not_mem_nameOf (index : Nat) : 0 ∉ Utf8.ofString (nameOf index) :=
  not_mem_nameOf rfl (c := '\x00') (by decide) (by decide) index

end Chunk

/-! ## Paths of chunk files -/

/-- The path of the chunk file with an index. -/
def pagePath (dir : Path) (index : Nat) : Path :=
  dir.join (.ofString (Chunk.nameOf index))

section Places

variable (base dir : Path)

theorem isAbsolute_nameOf (index : Nat) :
    (Path.ofString (Chunk.nameOf index)).isAbsolute = false := by
  obtain ⟨rest, hrest⟩ := Chunk.ofString_nameOf index
  rw [Path.isAbsolute, Path.ofString, hrest]
  rfl

/-- The full paths of the chunk files of one directory differ in their last segments only. -/
theorem exists_bytes_pagePath : ∃ front : Bytes,
    (front = [] ∨ ∃ body, front = body ++ [Path.slash]) ∧
    ∀ index, (base.join (pagePath dir index)).bytes =
      front ++ Utf8.ofString (Chunk.nameOf index) := by
  have hpage : ∀ index, (pagePath dir index).bytes =
      dir.front ++ Utf8.ofString (Chunk.nameOf index) :=
    fun index => Path.bytes_join (isAbsolute_nameOf index)
  by_cases hfront : dir.front.head? = some Path.slash
  · refine ⟨dir.front, dir.front_eq, ?_⟩
    intro index
    have habsolute : (pagePath dir index).isAbsolute = true := by
      rw [Path.isAbsolute, hpage, List.head?_append, hfront]
      rfl
    rw [Path.join, habsolute, if_pos rfl, hpage]
  · refine ⟨base.front ++ dir.front, ?_, ?_⟩
    · rcases dir.front_eq with hdir | ⟨body, hbody⟩
      · rw [hdir, List.append_nil]
        exact base.front_eq
      · exact .inr ⟨base.front ++ body, by rw [hbody, List.append_assoc]⟩
    · intro index
      have hrelative : (pagePath dir index).isAbsolute = false := by
        rw [Path.isAbsolute, hpage]
        cases hdir : dir.front with
        | nil => exact isAbsolute_nameOf index
        | cons b rest =>
          rw [hdir] at hfront
          exact beq_eq_false_iff_ne.mpr hfront
      rw [Path.bytes_join hrelative, hpage, List.append_assoc]

theorem exists_segments_pagePath : ∃ before : List Bytes, ∀ index,
    Path.segments (base.join (pagePath dir index)).bytes =
      before ++ [Utf8.ofString (Chunk.nameOf index)] := by
  obtain ⟨front, hfront, hbytes⟩ := exists_bytes_pagePath base dir
  rcases hfront with rfl | ⟨body, rfl⟩
  · refine ⟨[], ?_⟩
    intro index
    rw [hbytes, List.nil_append, Path.segments_of_not_mem (Chunk.slash_not_mem_nameOf index)]
    rfl
  · refine ⟨Path.segments body, ?_⟩
    intro index
    rw [hbytes, List.append_assoc, List.singleton_append, Path.segments_append_slash,
      Path.segments_of_not_mem (Chunk.slash_not_mem_nameOf index)]

end Places

/-! ## Places of chunk files -/

namespace FileTree

/-- A step by a name that is no dot and no two dots leads to an entry of that name. -/
theorem step_eq_ok {t : FileTree} {parent place : Place} {name : Bytes}
    (h : t.step parent name = .ok place) (hhere : isHere name = false) (hdots : name ≠ dotDot) :
    place = parent ++ [name] := by
  unfold step at h
  obtain ⟨-, h⟩ := of_guard_eq_ok h
  rw [hhere, if_neg Bool.false_ne_true, if_neg hdots] at h
  obtain ⟨-, h⟩ := of_guard_eq_ok h
  split at h
  · cases h
    rfl
  · cases h

theorem exists_getLast?_of_locate {t : FileTree} {current place : Place} {p : Path}
    {before : List Bytes} {name : Bytes} (h : t.locate current p = .ok place)
    (hsegments : Path.segments p.bytes = before ++ [name]) (hhere : isHere name = false)
    (hdots : name ≠ dotDot) : place.getLast? = some name := by
  obtain ⟨u, -, hwalk⟩ := exists_of_bind_eq_ok h
  rw [hsegments, walk, List.foldlM_append] at hwalk
  obtain ⟨parent, -, hstep⟩ := exists_of_bind_eq_ok hwalk
  rw [List.foldlM_cons] at hstep
  obtain ⟨stop, hstep, hend⟩ := exists_of_bind_eq_ok hstep
  cases hend
  rw [step_eq_ok hstep hhere hdots, List.getLast?_concat]

/-- Chunk files of one directory that lie at the same place have the same index. -/
theorem locate_pagePath_inj {t : FileTree} {current place : Place} {base dir : Path} {i j : Nat}
    (hi : t.locate current (base.join (pagePath dir i)) = .ok place)
    (hj : t.locate current (base.join (pagePath dir j)) = .ok place) : i = j := by
  obtain ⟨before, hsegments⟩ := exists_segments_pagePath base dir
  have hname : ∀ index, isHere (Utf8.ofString (Chunk.nameOf index)) = false ∧
      Utf8.ofString (Chunk.nameOf index) ≠ dotDot := by
    intro index
    obtain ⟨rest, hrest⟩ := Chunk.ofString_nameOf index
    rw [hrest]
    constructor
    · rfl
    · intro h
      cases h
  have hlasti := exists_getLast?_of_locate hi (hsegments i) (hname i).1 (hname i).2
  have hlastj := exists_getLast?_of_locate hj (hsegments j) (hname j).1 (hname j).2
  have hsame := Option.some.inj (hlasti.symm.trans hlastj)
  exact Chunk.nameOf_inj (Utf8.ofString_inj hsame)

end FileTree

end LetterPages
