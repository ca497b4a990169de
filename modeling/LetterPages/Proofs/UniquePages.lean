import Mathlib.Algebra.GroupWithZero.Nat
import LetterPages.Proofs.Partition

/-!
# The only way to cut

A list of records has one partition into numbered chunks of which all but the last are full, and that
is what cutting gives. Counting in 64-bit words gives it as well: no count on the way leaves the range,
however large the chunk size is.
-/

namespace LetterPages

namespace Chunk

/-- The chunks are numbered from 0, hold the records in order, and are full but for the last one,
which holds at least one record. -/
structure IsPartition (records : List Record) (size : Nat) (chunks : List Chunk) : Prop where
  index_eq : ∀ (i : Nat) (c : Chunk), chunks[i]? = some c → c.index = i
  flatten_eq : (chunks.map Chunk.records).flatten = records
  full : ∀ c ∈ chunks.dropLast, c.size = size
  last : ∀ c ∈ chunks.getLast?, 1 ≤ c.size ∧ c.size ≤ size

/-! ## Stretches are the only parts -/

section Stretches

variable {α : Type} {more : Nat}

theorem length_of_mem_dropLast_stretches {l s : List α} (h : s ∈ (stretches more l).dropLast) :
    s.length = more + 1 := by
  fun_induction stretches more l with
  | case1 => cases h
  | case2 a l ih =>
    cases hrest : stretches more (l.drop more) with
    | nil => simp [hrest] at h
    | cons t rest =>
      rw [hrest, List.dropLast_cons_of_ne_nil (List.cons_ne_nil t rest), ← hrest] at h
      rcases List.mem_cons.mp h with rfl | h
      · have hlong : more < l.length := by
          rw [← Nat.not_le]
          intro hshort
          rw [List.drop_eq_nil_of_le hshort, stretches] at hrest
          cases hrest
        simp [Nat.le_of_lt hlong]
      · exact ih h

theorem length_le_of_mem_stretches {l s : List α} (h : s ∈ stretches more l) :
    s.length ≤ more + 1 := by
  fun_induction stretches more l with
  | case1 => cases h
  | case2 a l ih =>
    rcases List.mem_cons.mp h with rfl | h
    · rw [List.length_cons, List.length_take]
      omega
    · exact ih h

/-- Parts that are full but for the last one are the stretches of what they hold. -/
theorem eq_stretches {parts : List (List α)} (hfull : ∀ p ∈ parts.dropLast, p.length = more + 1)
    (hlast : ∀ p ∈ parts.getLast?, 1 ≤ p.length ∧ p.length ≤ more + 1) :
    parts = stretches more parts.flatten := by
  induction parts with
  | nil => rw [List.flatten_nil, stretches]
  | cons p rest ih =>
    cases hrest : rest with
    | nil =>
      obtain ⟨hpos, hle⟩ := hlast p (by simp [hrest])
      cases p with
      | nil => cases hpos
      | cons a q =>
        have hq : q.length ≤ more := by simpa using hle
        simp [stretches, List.take_of_length_le hq, List.drop_eq_nil_of_le hq]
    | cons p' rest' =>
      have hne : rest ≠ [] := by simp [hrest]
      rw [List.dropLast_cons_of_ne_nil hne] at hfull
      rw [List.getLast?_cons_of_ne_nil hne] at hlast
      have hp : p.length = more + 1 := hfull p List.mem_cons_self
      have htail := ih (fun p' hp' => hfull p' (List.mem_cons_of_mem p hp')) hlast
      cases p with
      | nil => cases hp
      | cons a q =>
        have hq : q.length = more := by simpa using hp
        rw [← hrest, List.flatten_cons, List.cons_append, stretches, ← hq, List.take_left,
          List.drop_left, hq, ← htail]

end Stretches

/-! ## Chunks -/

variable {records : List Record} {size : Nat}

theorem isPartition_pages (records : List Record) (h : 0 < size) :
    IsPartition records size (pages records size) where
  index_eq := (pages_spec records size).index_eq
  flatten_eq := (pages_spec records size).flatten_eq
  full c hc := by
    have hmem : c.records ∈ (stretches (size - 1) records).dropLast := by
      rw [← map_records_pages, ← List.map_dropLast]
      exact List.mem_map.mpr ⟨c, hc, rfl⟩
    have hlength := length_of_mem_dropLast_stretches hmem
    rw [Nat.sub_add_cancel h] at hlength
    exact hlength
  last c hc := by
    have hc' : c ∈ pages records size := List.mem_of_getLast? hc
    have hmem : c.records ∈ stretches (size - 1) records := by
      rw [← map_records_pages]
      exact List.mem_map.mpr ⟨c, hc', rfl⟩
    have hle := length_le_of_mem_stretches hmem
    have hpos := List.length_pos_iff.mpr ((pages_spec records size).ne_nil c hc')
    rw [Nat.sub_add_cancel h] at hle
    exact ⟨hpos, hle⟩

theorem IsPartition.eq_pages {chunks : List Chunk} (h : 0 < size)
    (hchunks : IsPartition records size chunks) : chunks = pages records size := by
  have hparts : chunks.map Chunk.records = stretches (size - 1) records := by
    rw [← hchunks.flatten_eq]
    apply eq_stretches
    · intro p hp
      rw [← List.map_dropLast] at hp
      obtain ⟨c, hc, rfl⟩ := List.mem_map.mp hp
      rw [Nat.sub_add_cancel h]
      exact hchunks.full c hc
    · intro p hp
      rw [List.getLast?_map] at hp
      obtain ⟨c, hc, rfl⟩ := Option.map_eq_some_iff.mp hp
      rw [Nat.sub_add_cancel h]
      exact hchunks.last c hc
  apply List.ext_getElem?
  intro i
  rw [pages, ← hparts, List.getElem?_mapIdx, List.getElem?_map, Option.map_map]
  cases hc : chunks[i]? with
  | none => rfl
  | some c =>
    have hindex := hchunks.index_eq i c hc
    simp [← hindex]

theorem isPartition_iff (records : List Record) (h : 0 < size) (chunks : List Chunk) :
    IsPartition records size chunks ↔ chunks = pages records size := by
  constructor
  · exact IsPartition.eq_pages h
  · rintro rfl
    exact isPartition_pages records h

/-- The record with a number lies in the chunk and at the offset that division tells. -/
theorem getElem?_pages_div (records : List Record) (h : 0 < size) (k : Nat) :
    ((pages records size)[k / size]?.bind fun c => c.records[k % size]?) = records[k]? := by
  have hk : k / size * size + k % size = k := Nat.div_add_mod' k size
  have hlt : k % size < size := Nat.mod_lt k h
  rw [pages, List.getElem?_mapIdx, getElem?_stretches, Nat.sub_add_cancel h]
  split
  · simp [List.getElem?_take_of_lt hlt, hk]
  · rw [List.getElem?_eq_none (by omega)]
    rfl

theorem sum_size_pages (records : List Record) (size : Nat) :
    ((pages records size).map Chunk.size).sum = records.length := by
  have hsizes : (pages records size).map Chunk.size =
      ((pages records size).map Chunk.records).map List.length := by simp [Chunk.size]
  rw [hsizes, ← List.length_flatten, (pages_spec records size).flatten_eq]

/-! ## Counting in words -/

/-- The sum of two words, if it is in the range. -/
def wordSum? (a b : UInt64) : Option UInt64 :=
  if a.toNat + b.toNat < UInt64.size then some (a + b) else none

/-- The difference of two words, if it is in the range. -/
def wordDifference? (a b : UInt64) : Option UInt64 :=
  if b ≤ a then some (a - b) else none

/-- The quotient of two words rounded up, if there is one. -/
def wordCeilDiv? (a b : UInt64) : Option UInt64 :=
  if b = 0 then none else if a % b = 0 then some (a / b) else wordSum? (a / b) 1

/-- The records that there is room for, and those left over. The room is counted down before a record
is asked for. -/
def fill? (room : UInt64) (records : List Record) : Option (List Record × List Record) :=
  if room = 0 then some ([], records)
  else match wordDifference? room 1, records with
    | none, _ => none
    | some _, [] => some ([], [])
    | some room, r :: rest => (fill? room rest).map fun p => (r :: p.1, p.2)

theorem wordDifference?_one {room : UInt64} (h : room ≠ 0) :
    wordDifference? room 1 = some (room - 1) ∧ (room - 1).toNat + 1 = room.toNat := by
  have hpos : room.toNat ≠ 0 := fun hzero => h (UInt64.toNat_inj.mp hzero)
  have hle : (1 : UInt64) ≤ room := by
    rw [UInt64.le_iff_toNat_le]
    simp
    omega
  refine ⟨if_pos hle, ?_⟩
  rw [UInt64.toNat_sub_of_le _ _ hle]
  simp
  omega

theorem fill?_eq (room : UInt64) (records : List Record) :
    fill? room records = some (records.take room.toNat, records.drop room.toNat) := by
  induction records generalizing room with
  | nil =>
    rw [fill?.eq_def]
    by_cases h : room = 0
    · simp [h]
    · simp [h, (wordDifference?_one h).1]
  | cons r rest ih =>
    rw [fill?.eq_def]
    by_cases h : room = 0
    · simp [h]
    · obtain ⟨hroom, hone⟩ := wordDifference?_one h
      simp [h, hroom, ih, ← hone]

/-- The chunks of the records, `made` chunks having been made before. -/
def cutFrom? (size : UInt64) (hsize : size ≠ 0) (made : UInt64) (records : List Record) :
    Option (List Chunk) :=
  match records with
  | [] => some []
  | r :: rest =>
    match _h : fill? size (r :: rest) with
    | none => none
    | some (taken, left) =>
      match wordSum? made 1 with
      | none => none
      | some next => (cutFrom? size hsize next left).map (⟨made.toNat, taken⟩ :: ·)
termination_by records.length
decreasing_by
  rw [fill?_eq] at _h
  cases _h
  have hpos : size.toNat ≠ 0 := fun hzero => hsize (UInt64.toNat_inj.mp hzero)
  simp only [List.length_drop, List.length_cons]
  omega

/-- Cutting with every count kept in a word, the number of chunks to expect among them. There is no
answer where a count leaves the range. -/
def cutInWords? (size : UInt64) (hsize : size ≠ 0) (records : List Record) :
    Option (List Chunk) :=
  match wordCeilDiv? (UInt64.ofNat records.length) size with
  | none => none
  | some _ => cutFrom? size hsize 0 records

theorem wordSum?_one {made : UInt64} {n : Nat} (h : made.toNat + n < UInt64.size) (hn : 0 < n) :
    wordSum? made 1 = some (made + 1) ∧ (made + 1).toNat = made.toNat + 1 := by
  have hlt : made.toNat + 1 < UInt64.size := by omega
  refine ⟨if_pos hlt, ?_⟩
  rw [UInt64.toNat_add]
  exact Nat.mod_eq_of_lt hlt

theorem cutFrom?_eq {size made : UInt64} (hsize : size ≠ 0) {records : List Record}
    (h : made.toNat + records.length < UInt64.size) :
    cutFrom? size hsize made records =
      some ((stretches (size.toNat - 1) records).mapIdx fun i s => ⟨made.toNat + i, s⟩) := by
  have hpos : 0 < size.toNat :=
    Nat.pos_of_ne_zero fun hzero => hsize (UInt64.toNat_inj.mp hzero)
  obtain ⟨more, hmore⟩ : ∃ more, size.toNat = more + 1 := ⟨size.toNat - 1, by omega⟩
  fun_induction cutFrom? size hsize made records with
  | case1 => simp [stretches]
  | case2 made r rest hnone =>
    rw [fill?_eq] at hnone
    cases hnone
  | case3 made r rest taken left hfill hnone =>
    obtain ⟨hsum, -⟩ := wordSum?_one h (by simp)
    rw [hsum] at hnone
    cases hnone
  | case4 made r rest taken left hfill next hnext ih =>
    obtain ⟨hsum, hnat⟩ := wordSum?_one h (by simp)
    rw [hsum] at hnext
    cases hnext
    rw [fill?_eq] at hfill
    cases hfill
    rw [List.length_cons] at h
    rw [ih (by rw [hnat, List.length_drop, List.length_cons]; omega), hnat, hmore]
    simp [stretches, List.mapIdx_cons, Nat.add_assoc, Nat.add_comm 1]

theorem exists_wordCeilDiv? {size : UInt64} (hsize : size ≠ 0) (n : UInt64) :
    ∃ count, wordCeilDiv? n size = some count := by
  have hpos : size.toNat ≠ 0 := fun hzero => hsize (UInt64.toNat_inj.mp hzero)
  rw [wordCeilDiv?, if_neg hsize]
  by_cases hexact : n % size = 0
  · exact ⟨_, if_pos hexact⟩
  · -- with a remainder the size is at least 2, so the quotient is not the largest word
    have hsize2 : size.toNat ≠ 1 := by
      intro hone
      apply hexact
      rw [← UInt64.toNat_inj, UInt64.toNat_mod, hone, Nat.mod_one]
      rfl
    have hdiv : (n / size).toNat ≤ n.toNat / 2 := by
      rw [UInt64.toNat_div]
      exact Nat.div_le_div_left (by omega) (by omega)
    have hn := n.toNat_lt_size
    have hroom : (n / size).toNat + (1 : UInt64).toNat < UInt64.size := by
      simp only [UInt64.toNat_one, UInt64.size] at hn ⊢
      omega
    exact ⟨_, by rw [if_neg hexact, wordSum?, if_pos hroom]⟩

/-- Counting in words cuts the same chunks. -/
theorem cutInWords?_eq {size : UInt64} (hsize : size ≠ 0) {records : List Record}
    (h : records.length < UInt64.size) :
    cutInWords? size hsize records = some (pages records size.toNat) := by
  obtain ⟨count, hcount⟩ := exists_wordCeilDiv? hsize (UInt64.ofNat records.length)
  rw [cutInWords?, hcount]
  dsimp only
  rw [cutFrom?_eq hsize (by simpa using h), pages]
  simp

end Chunk

/-! ## Plans -/

/-- Cutting fails for the size 0. For any other size it gives the only partition of the records, with
each record in the chunk and at the offset that division tells, also when all counts are kept in
words. A plan holds these chunks and metadata that counts them. -/
theorem Plan.ofDataset_partition (fields : List String) (records : List Record) (size : UInt64) :
    let fault : Fault := .invalidValue "chunk_size" "0" "Value must be at least 1"
    (size = 0 → Chunk.ofRecords records size.toNat = .error fault ∧
      Plan.ofDataset ⟨fields, records⟩ size = .error fault) ∧
    ∀ hsize : size ≠ 0, ∃ chunks manifest,
      Chunk.ofRecords records size.toNat = .ok chunks ∧
      (∀ other, Chunk.IsPartition records size.toNat other ↔ other = chunks) ∧
      chunks.length = (records.length + size.toNat - 1) / size.toNat ∧
      (∀ k, (chunks[k / size.toNat]?.bind fun c => c.records[k % size.toNat]?) = records[k]?) ∧
      (chunks.map Chunk.size).sum = records.length ∧
      Plan.ofDataset ⟨fields, records⟩ size = .ok ⟨chunks, manifest⟩ ∧
      manifest.chunkSize = size ∧
      manifest.fields = (if records = [] then [] else fields) ∧
      (records.length < UInt64.size →
        Chunk.cutInWords? size hsize records = some chunks ∧
        manifest.totalLetters.toNat = records.length ∧
        manifest.chunks.toNat = chunks.length) := by
  intro fault
  constructor
  · rintro rfl
    rw [Chunk.ofRecords_eq, Plan.ofDataset_eq]
    exact ⟨if_pos rfl, if_pos rfl⟩
  · intro hsize
    have hne : size.toNat ≠ 0 := fun hzero => hsize (UInt64.toNat_inj.mp hzero)
    have hpos := Nat.pos_of_ne_zero hne
    let plan : Plan := .pages ⟨fields, records⟩ size
    refine ⟨plan.chunks, plan.metadata, ?_, Chunk.isPartition_iff records hpos,
      Chunk.length_pages hpos, Chunk.getElem?_pages_div records hpos,
      Chunk.sum_size_pages records size.toNat, ?_, rfl, ?_, ?_⟩
    · rw [Chunk.ofRecords_eq, if_neg hne]
      rfl
    · rw [Plan.ofDataset_eq, if_neg hsize]
    · simp [plan, Plan.pages]
    · intro hlength
      have hle := Chunk.length_pages_le records size.toNat
      refine ⟨Chunk.cutInWords?_eq hsize hlength, UInt64.toNat_ofNat_of_lt' hlength, ?_⟩
      exact UInt64.toNat_ofNat_of_lt' (Nat.lt_of_le_of_lt hle hlength)

/-- The largest size goes beyond the range of a word together with any record, and still all of them
lie in one chunk. The size 0 is a fault even without records. -/
theorem Plan.ofDataset_partition_extremes :
    let fields := ["id", "name"]
    let records : List Record := [⟨[("id", "1"), ("name", "Ola")]⟩,
      ⟨[("id", "2"), ("name", "Kari")]⟩, ⟨[("id", "3"), ("name", "Per")]⟩]
    let size : UInt64 := 18446744073709551615
    Plan.ofDataset ⟨fields, []⟩ 0 =
      .error (.invalidValue "chunk_size" "0" "Value must be at least 1") ∧
    UInt64.size ≤ records.length + size.toNat ∧
    ∃ (hsize : size ≠ 0) (chunks : List Chunk) (manifest : Metadata),
      records.length < UInt64.size ∧
      Plan.ofDataset ⟨fields, records⟩ size = .ok ⟨chunks, manifest⟩ ∧
      Chunk.cutInWords? size hsize records = some chunks ∧ chunks.length = 1 ∧
      manifest.chunks.toNat = 1 ∧ manifest.totalLetters.toNat = 3 ∧ manifest.fields = fields := by
  intro fields records size
  have hsize : size ≠ 0 := by decide
  have hlength : records.length < UInt64.size := by decide
  obtain ⟨chunks, manifest, -, -, hcount, -, -, hplan, -, hfields, hwords⟩ :=
    (ofDataset_partition fields records size).2 hsize
  obtain ⟨hcut, htotal, hchunks⟩ := hwords hlength
  have hone : chunks.length = 1 := hcount.trans (by decide)
  exact ⟨((ofDataset_partition fields [] 0).1 rfl).2, by decide, hsize, chunks, manifest, hlength,
    hplan, hcut, hone, hchunks.trans hone, htotal, hfields⟩

end LetterPages
