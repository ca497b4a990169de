import LetterPages.Proofs.ChunkNames
import LetterPages.Proofs.Json.DocumentText
import LetterPages.Proofs.Partition
import LetterPages.Proofs.Publishing

/-!
# Published pages

A consumer decodes the metadata and then the chunk files that it counts. A chunk file that is
written is read back as its records, and while the metadata has a key of its own neither kind of
file gets in the way of the other.
-/

namespace LetterPages

/-! ## What a consumer reads -/

def Memory.manifest? (m : Memory) (path : Path) : Option Metadata :=
  (m.get? path.shown).bind fun text => (Json.decodeMetadata text).toOption

/-- The records of the chunk file with an index, if it is there and can be decoded. -/
def Memory.page? (m : Memory) (dir : Path) (index : Nat) : Option (List Record) :=
  (m.get? (pageKey dir index)).bind fun text => (Json.decodeRecords text).toOption

/-- The records of the chunk files with the indices below `count`, one file after the other. -/
def Memory.letters? (m : Memory) (dir : Path) (count : Nat) : Option (List Record) :=
  ((List.range count).mapM (m.page? dir)).map List.flatten

/-- The path of the metadata is not the key of a chunk file. -/
def KeysApart (dir path : Path) : Prop :=
  ∀ index, pageKey dir index ≠ path.shown

/-- A path is apart from the chunk files if its text does not begin as theirs do. -/
theorem keysApart_of_not_prefix {dir path : Path}
    (h : ¬ (Utf8.lossy dir.front ++ "letters-chunk-").toList <+: path.shown.toList) :
    KeysApart dir path := by
  intro index heq
  have hkey : path.shown = Utf8.lossy dir.front ++ "letters-chunk-" ++
      (Chunk.label index ++ ".json") := by
    rw [← heq, pageKey_eq, Chunk.nameOf, String.append_assoc, ← String.append_assoc]
  rw [hkey, String.toList_append (s := Utf8.lossy dir.front ++ "letters-chunk-")] at h
  exact h (List.prefix_append _ _)

namespace Memory

variable {dir path : Path}

theorem exists_of_page? {m : Memory} {index : Nat} {records : List Record}
    (h : m.page? dir index = some records) :
    ∃ text, m.get? (pageKey dir index) = some text ∧ Json.decodeRecords text = .ok records := by
  obtain ⟨text, htext, hdecoded⟩ := Option.bind_eq_some_iff.mp h
  exact ⟨text, htext, eq_ok_of_toOption hdecoded⟩

/-! ## One write -/

theorem page?_put_chunk (m : Memory) (c : Chunk) (index : Nat) :
    (m.put (pageKey dir c.index) c.encode).page? dir index =
      if index = c.index then some c.records else m.page? dir index := by
  unfold page?
  rw [get?_put]
  by_cases h : index = c.index
  · rw [if_pos h, if_pos (congrArg (pageKey dir) h), Option.bind_some, Json.decodeRecords_encode]
    rfl
  · rw [if_neg h, if_neg fun heq => h (pageKey_inj heq)]

theorem manifest?_put_metadata (m : Memory) (manifest : Metadata) :
    (m.put path.shown manifest.encode).manifest? path = some manifest := by
  rw [manifest?, get?_put, if_pos rfl, Option.bind_some, Json.decodeMetadata_encode]
  rfl

theorem page?_put_metadata (hapart : KeysApart dir path) (m : Memory) (content : Bytes)
    (index : Nat) : (m.put path.shown content).page? dir index = m.page? dir index := by
  unfold page?
  rw [get?_put, if_neg (hapart index)]

/-! ## All writes of a publication -/

open Publication

theorem perform_chunkCall (s : Settings) (m : Memory) (c : Chunk) :
    m.perform (chunkCall s c) = m.put (pageKey s.outputDir c.index) c.encode := rfl

theorem foldl_parentCalls (path : Path) (m : Memory) : (parentCalls path).foldl perform m = m := by
  unfold parentCalls
  split
  · rfl
  · split <;> rfl

theorem foldl_plannedCalls (s : Settings) (plan : Plan) (m : Memory) :
    (plannedCalls s plan).foldl perform m =
      ((plan.chunks.map (chunkCall s)).foldl perform m).put s.metadataPath.shown
        plan.metadata.encode := by
  rw [plannedCalls, List.foldl_cons, List.foldl_append, List.foldl_append, foldl_parentCalls]
  rfl

/-- Each written chunk lies under the key of its index, when no two of them share one. -/
theorem get?_foldl_chunkCalls (s : Settings) {chunks : List Chunk}
    (hindex : (chunks.map Chunk.index).Nodup) {c : Chunk} (hc : c ∈ chunks) (m : Memory) :
    ((chunks.map (chunkCall s)).foldl perform m).get? (pageKey s.outputDir c.index) =
      some c.encode := by
  induction chunks generalizing m with
  | nil => cases hc
  | cons first rest ih =>
    obtain ⟨hfirst, hrest⟩ := List.nodup_cons.mp hindex
    rw [List.map_cons, List.foldl_cons]
    rcases List.mem_cons.mp hc with rfl | hc
    · -- the later chunks have other keys, so what was just written stays
      rw [get?_foldl_perform, perform_chunkCall, get?_put, if_pos rfl]
      intro p content hmem
      obtain ⟨other, hother, heq⟩ := List.mem_map.mp hmem
      cases heq
      intro hkey
      exact hfirst (List.mem_map.mpr ⟨other, hother, pageKey_inj hkey⟩)
    · exact ih hrest hc _

theorem page?_foldl_chunkCalls (s : Settings) {chunks : List Chunk}
    (hindex : (chunks.map Chunk.index).Nodup) {c : Chunk} (hc : c ∈ chunks) (m : Memory) :
    ((chunks.map (chunkCall s)).foldl perform m).page? s.outputDir c.index = some c.records := by
  rw [page?, get?_foldl_chunkCalls s hindex hc, Option.bind_some, Json.decodeRecords_encode]
  rfl

end Memory

/-! ## Chunks in order -/

namespace Chunk.Pages

variable {records : List Record} {chunks : List Chunk}

theorem map_index (h : Pages records chunks) :
    chunks.map Chunk.index = List.range chunks.length := by
  apply List.ext_getElem
  · rw [List.length_map, List.length_range]
  · intro i hi _
    rw [List.getElem_map, List.getElem_range]
    rw [List.length_map] at hi
    exact h.index_eq i chunks[i] (List.getElem?_eq_getElem hi)

theorem nodup_index (h : Pages records chunks) : (chunks.map Chunk.index).Nodup := by
  rw [h.map_index]
  exact List.nodup_range

end Chunk.Pages

end LetterPages
