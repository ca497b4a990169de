import LetterPages.Chunk

/-!
# Chunks partition the records

Cutting a dataset loses no record, keeps their order, numbers the chunks from 0 and leaves none of
them empty. It fails only for the size 0.
-/

namespace LetterPages

namespace Chunk

/-! ## Stretches of a list -/

section Stretches

variable {α : Type} (more : Nat) (l : List α)

theorem flatten_stretches : (stretches more l).flatten = l := by
  fun_induction stretches more l with
  | case1 => rfl
  | case2 a l ih =>
    rw [List.flatten_cons, ih, List.cons_append, List.take_append_drop]

theorem length_stretches : (stretches more l).length = (l.length + more) / (more + 1) := by
  fun_induction stretches more l with
  | case1 =>
    exact (Nat.div_eq_of_lt (by simp)).symm
  | case2 a l ih =>
    have hstep : l.length + 1 + more = l.length + (more + 1) := by omega
    rw [List.length_cons, List.length_cons, ih, List.length_drop, hstep,
      Nat.add_div_right _ (Nat.succ_pos more)]
    by_cases h : more ≤ l.length
    · rw [Nat.sub_add_cancel h]
    · rw [Nat.sub_eq_zero_of_le (by omega), Nat.zero_add, Nat.div_eq_of_lt (by omega),
        Nat.div_eq_of_lt (by omega)]

theorem length_stretches_le : (stretches more l).length ≤ l.length := by
  fun_induction stretches more l with
  | case1 => exact Nat.le_refl _
  | case2 a l ih =>
    rw [List.length_drop] at ih
    simp only [List.length_cons]
    omega

theorem getElem?_stretches (i : Nat) : (stretches more l)[i]? =
    if i * (more + 1) < l.length then some ((l.drop (i * (more + 1))).take (more + 1)) else none := by
  fun_induction stretches more l generalizing i with
  | case1 => rfl
  | case2 a l ih =>
    cases i with
    | zero =>
      rw [Nat.zero_mul, List.length_cons, if_pos (Nat.succ_pos _)]
      rfl
    | succ i =>
      have hstart : (i + 1) * (more + 1) = more + i * (more + 1) + 1 := by
        rw [Nat.succ_mul]
        omega
      have hbound : i * (more + 1) < l.length - more ↔ more + i * (more + 1) < l.length := by omega
      rw [List.getElem?_cons_succ, ih, hstart, List.drop_succ_cons, List.drop_drop,
        List.length_drop, List.length_cons]
      simp only [Nat.add_lt_add_iff_right, hbound]

theorem ne_nil_of_mem_stretches {more : Nat} {l s : List α} (h : s ∈ stretches more l) :
    s ≠ [] := by
  fun_induction stretches more l with
  | case1 => cases h
  | case2 a l ih =>
    rcases List.mem_cons.mp h with rfl | h
    · exact List.cons_ne_nil a _
    · exact ih h

end Stretches

/-! ## Records cut into chunks -/

/-- These chunks hold these records in order, each at least one and each numbered by its place. -/
structure Pages (records : List Record) (chunks : List Chunk) : Prop where
  flatten_eq : (chunks.map Chunk.records).flatten = records
  index_eq : ∀ (i : Nat) (c : Chunk), chunks[i]? = some c → c.index = i
  ne_nil : ∀ c ∈ chunks, c.records ≠ []

/-- The chunks for a size above 0. -/
def pages (records : List Record) (size : Nat) : List Chunk :=
  (stretches (size - 1) records).mapIdx Chunk.mk

theorem map_records_pages (records : List Record) (size : Nat) :
    (pages records size).map Chunk.records = stretches (size - 1) records := by
  apply List.ext_getElem?
  intro i
  rw [pages, List.getElem?_map, List.getElem?_mapIdx, Option.map_map]
  exact congrFun Option.map_id _

theorem pages_spec (records : List Record) (size : Nat) : Pages records (pages records size) where
  flatten_eq := by
    rw [map_records_pages, flatten_stretches]
  index_eq i c hc := by
    rw [pages, List.getElem?_mapIdx] at hc
    obtain ⟨s, _, rfl⟩ := Option.map_eq_some_iff.mp hc
    rfl
  ne_nil c hc := by
    have hmem : c.records ∈ (pages records size).map Chunk.records :=
      List.mem_map.mpr ⟨c, hc, rfl⟩
    rw [map_records_pages] at hmem
    exact ne_nil_of_mem_stretches hmem

theorem length_pages {records : List Record} {size : Nat} (h : 0 < size) :
    (pages records size).length = (records.length + size - 1) / size := by
  rw [pages, List.length_mapIdx, length_stretches, Nat.sub_add_cancel h, Nat.add_sub_assoc h]

theorem length_pages_le (records : List Record) (size : Nat) :
    (pages records size).length ≤ records.length := by
  rw [pages, List.length_mapIdx]
  exact length_stretches_le (size - 1) records

/-- A chunk that some records fill stays as it is when records are appended. -/
theorem exists_getElem?_pages {records : List Record} {size index : Nat}
    (h : index < records.length / size) :
    ∃ c : Chunk, (pages records size)[index]? = some c ∧
      ∀ more, (pages (records ++ more) size)[index]? = some c := by
  have hsize : 0 < size := by
    rw [Nat.pos_iff_ne_zero]
    rintro rfl
    rw [Nat.div_zero] at h
    exact absurd h (Nat.not_lt_zero index)
  have hend : index * size + size ≤ records.length := by
    rw [← Nat.succ_mul]
    exact (Nat.le_div_iff_mul_le hsize).mp h
  refine ⟨⟨index, (records.drop (index * size)).take size⟩, ?_, ?_⟩
  · rw [pages, List.getElem?_mapIdx, getElem?_stretches, Nat.sub_add_cancel hsize,
      if_pos (by omega)]
    rfl
  · intro more
    rw [pages, List.getElem?_mapIdx, getElem?_stretches, Nat.sub_add_cancel hsize,
      if_pos (by rw [List.length_append]; omega), List.drop_append_of_le_length (by omega),
      List.take_append_of_le_length (by rw [List.length_drop]; omega)]
    rfl

theorem ofRecords_eq (records : List Record) (size : Nat) : ofRecords records size =
    if size = 0 then .error (.invalidValue "chunk_size" "0" "Value must be at least 1")
    else .ok (pages records size) := by
  unfold ofRecords Check.atLeast
  by_cases h : size = 0
  · subst h
    rfl
  · rw [if_neg (by omega), if_neg h]
    rfl

end Chunk

/-! ## Plans -/

namespace Plan

/-- The plan for a dataset and a size above 0. -/
def pages (data : Dataset) (size : UInt64) : Plan where
  chunks := Chunk.pages data.records size.toNat
  metadata :=
    { totalLetters := UInt64.ofNat data.records.length
      chunks := UInt64.ofNat (Chunk.pages data.records size.toNat).length
      chunkSize := size
      fields := if data.records.isEmpty then [] else data.fields }

theorem ofDataset_eq (data : Dataset) (size : UInt64) : ofDataset data size =
    if size = 0 then .error (.invalidValue "chunk_size" "0" "Value must be at least 1")
    else .ok (pages data size) := by
  rw [ofDataset, Chunk.ofRecords_eq]
  by_cases h : size = 0
  · subst h
    rfl
  · have hnat : size.toNat ≠ 0 := by
      intro hzero
      exact h (UInt64.toNat_inj.mp hzero)
    rw [if_neg hnat, if_neg h]
    rfl

theorem eq_pages {data : Dataset} {size : UInt64} {plan : Plan}
    (h : ofDataset data size = .ok plan) : plan = pages data size := by
  rw [ofDataset_eq] at h
  split at h
  · cases h
  · cases h
    rfl

end Plan

end LetterPages
