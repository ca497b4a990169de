import LetterPages.Proofs.Overwriting

/-!
# Chunk files written in one pass

The name of a chunk file spells its index in decimal, so the files of one directory have paths of
their own. Writing them one after the other therefore never writes over a file of the same pass, in
memory or on disk, wherever the pass ends.
-/

namespace LetterPages

/-! ## Names spell indices -/

namespace Chunk

/-- The number that the digits of a name spell. -/
def indexOf (name : String) : Nat :=
  Nat.ofDigitChars 10 (name.toList.filter Char.isDigit) 0

theorem filter_toString (n : Nat) : (toString n).toList.filter Char.isDigit = (toString n).toList := by
  rw [List.filter_eq_self]
  exact fun c hc => isDigit_of_mem_toString hc

theorem toList_label (index : Nat) : (label index).toList = (toString index).toList.leftpad 2 '0' := by
  have hlength : (toString index).toList.length ≤ 1 ↔ index < 10 := by
    rw [Nat.toString_eq_repr, Nat.toList_repr]
    exact Nat.length_toDigits_le_iff (by decide) (by decide)
  have hpos : 0 < (toString index).toList.length := by
    rw [Nat.toString_eq_repr, Nat.toList_repr]
    exact Nat.length_toDigits_pos
  unfold label List.leftpad
  by_cases h : index < 10
  · have hone : (toString index).toList.length = 1 := by omega
    rw [if_pos h, hone, String.toList_append]
    rfl
  · have hpad : 2 - (toString index).toList.length = 0 := by omega
    rw [if_neg h, hpad]
    rfl

theorem filter_label (index : Nat) : (label index).toList.filter Char.isDigit = (label index).toList := by
  rw [toList_label, List.leftpad, List.filter_append, filter_toString, List.filter_replicate]
  rfl

theorem nameOf_eq (index : Nat) : nameOf index =
    "letters-chunk-" ++ String.ofList ((toString index).toList.leftpad 2 '0') ++ ".json" := by
  rw [nameOf, ← toList_label, String.ofList_toList]

theorem indexOf_nameOf (index : Nat) : indexOf (nameOf index) = index := by
  have hfront : "letters-chunk-".toList.filter Char.isDigit = [] := by decide
  have hback : ".json".toList.filter Char.isDigit = [] := by decide
  rw [indexOf, nameOf, String.toList_append, String.toList_append, List.filter_append,
    List.filter_append, hfront, hback, filter_label, List.nil_append, List.append_nil,
    ofDigitChars_label]

end Chunk

theorem pagePath_inj {dir : Path} {i j : Nat} (h : pagePath dir i = pagePath dir j) : i = j :=
  pageKey_inj (congrArg Path.shown h)

/-! ## One chunk file after another -/

namespace Publication

variable {σ : Type} {storage : Storage σ} {s : Settings} {Holds : σ → Nat → Bytes → Prop}

/-- What the chunk file with an index holds in a store. It holds what has been written, and the
writing of another one leaves it alone, granted or refused. -/
structure KeepsPages (storage : Storage σ) (dir : Path) (Holds : σ → Nat → Bytes → Prop) :
    Prop where
  written : ∀ {index content st st'},
    storage.attempt (.write (pagePath dir index) content) st = (st', none) →
    Holds st' index content
  kept : ∀ {index other content more st st' refusal},
    storage.attempt (.write (pagePath dir other) more) st = (st', refusal) → other ≠ index →
    Holds st index content → Holds st' index content

/-- The first of these chunks have been written, with a call and a line for each, and one more call
if it was refused. Every file written holds its own chunk. -/
structure Wrote {α : Type} (s : Settings) (Holds : σ → Nat → Bytes → Prop)
    (done rest : List Chunk) (r : Job.Run σ α) : Prop where
  calls : r.calls = (done ++ rest.take 1).map (chunkCall s)
  lines : r.lines = done.map (progressLine s)
  complete : rest = [] ↔ ∃ a, r.outcome = .ok a
  apart : ∀ c ∈ done, Holds r.store c.index c.encode

theorem play_chunkScript (c : Chunk) (more : List Event) (st : σ) :
    storage.play (chunkScript s c ++ more) st =
      .after (storage.announce (chunkCall s c))
        (match storage.attempt (chunkCall s c) st with
        | (st', none) => storage.play (.logged ⟨.debug, .writer,
            s!"Chunk {c.index} encoded to {c.encode.length} bytes"⟩ ::
              .printed (progressLine s c) :: more) st'
        | (st', some reason) => ⟨st', [], .error ((chunkCall s c).fault storage.base reason)⟩) :=
  rfl

/-- A chunk file that is no page of the pass stays as it is, and so do the pages once written. -/
theorem KeepsPages.play (h : KeepsPages storage s.outputDir Holds) {chunks : List Chunk}
    (hindex : (chunks.map Chunk.index).Nodup) (st : σ) :
    (∃ done rest, done ++ rest = chunks ∧
      Wrote s Holds done rest (storage.play (chunks.flatMap (chunkScript s)) st)) ∧
    ∀ index content, index ∉ chunks.map Chunk.index → Holds st index content →
      Holds (storage.play (chunks.flatMap (chunkScript s)) st).store index content := by
  induction chunks generalizing st with
  | nil =>
    refine ⟨⟨[], [], rfl, rfl, rfl, ?_, ?_⟩, fun _ _ _ hheld => hheld⟩
    · exact iff_of_true rfl ⟨(), rfl⟩
    · rintro c ⟨⟩
  | cons c chunks ih =>
    obtain ⟨hfresh, hindex⟩ := List.nodup_cons.mp hindex
    rw [List.flatMap_cons, play_chunkScript, List.map_cons]
    cases hattempt : storage.attempt (chunkCall s c) st with
    | mk st' refusal =>
      have hkept : ∀ index content, index ∉ c.index :: chunks.map Chunk.index →
          Holds st index content → Holds st' index content := by
        intro index content hindex
        exact h.kept hattempt (Ne.symm (List.ne_of_not_mem_cons hindex))
      cases refusal with
      | none =>
        obtain ⟨⟨done, rest, rfl, hwrote⟩, hlater⟩ := ih hindex st'
        refine ⟨⟨c :: done, rest, rfl, ?_, ?_, hwrote.complete, ?_⟩, ?_⟩
        · rw [Job.Run.calls_announced]
          exact congrArg _ hwrote.calls
        · rw [Job.Run.lines_announced]
          exact congrArg _ hwrote.lines
        · intro d hd
          rcases List.mem_cons.mp hd with rfl | hd
          · exact hlater d.index d.encode hfresh (h.written hattempt)
          · exact hwrote.apart d hd
        · intro index content hindex hheld
          exact hlater index content (List.not_mem_of_not_mem_cons hindex)
            (hkept index content hindex hheld)
      | some reason =>
        refine ⟨⟨[], c :: chunks, rfl, ?_, ?_, ?_, ?_⟩, hkept⟩
        · exact Job.Run.calls_announced _ _ _
        · exact Job.Run.lines_announced _ _ _
        · refine iff_of_false (List.cons_ne_nil _ _) ?_
          rintro ⟨a, ⟨⟩⟩
        · rintro d ⟨⟩

/-- A pass over the chunks writes the first of them, all if it succeeds, and spoils none. -/
theorem KeepsPages.writeEach (h : KeepsPages storage s.outputDir Holds) {chunks : List Chunk}
    (hindex : (chunks.map Chunk.index).Nodup) (st : σ) : ∃ done rest, done ++ rest = chunks ∧
      Wrote s Holds done rest ((writeEach s.outputDir s.locale chunks).run storage st) := by
  obtain ⟨⟨done, rest, happend, hwrote⟩, -⟩ := h.play hindex st
  refine ⟨done, rest, happend, ?_⟩
  rw [(follows_writeEach s chunks).run_eq storage st]
  refine ⟨hwrote.calls, hwrote.lines, hwrote.complete.trans ?_, hwrote.apart⟩
  unfold Job.Run.giving
  cases (storage.play (chunks.flatMap (chunkScript s)) st).outcome <;> simp [Except.map]

theorem nodup_index_of_ofRecords {records : List Record} {size : Nat} {chunks : List Chunk}
    (h : Chunk.ofRecords records size = .ok chunks) : (chunks.map Chunk.index).Nodup := by
  rw [Chunk.ofRecords_eq] at h
  obtain ⟨-, h⟩ := of_guard_eq_ok h
  cases h
  exact (Chunk.pages_spec records size).nodup_index

theorem keepsPages_memory (base dir : Path) : KeepsPages (.memory base) dir
    fun (m : Memory) index content => m.get? (pageKey dir index) = some content where
  written {index content m m'} h := by
    rw [Storage.attempt_memory (c := .write (pagePath dir index) content) trivial] at h
    split at h
    · cases h
    · cases h
      exact (Memory.get?_put _ _ _ _).trans (if_pos rfl)
  kept {index other content more m m' refusal} h hne hheld := by
    rw [Storage.attempt_memory (c := .write (pagePath dir other) more) trivial] at h
    split at h
    · cases h
      exact hheld
    · cases h
      have hkey : pageKey dir index ≠ pageKey dir other := fun heq => hne (pageKey_inj heq).symm
      exact ((Memory.get?_put _ _ _ _).trans (if_neg hkey)).trans hheld

theorem keepsPages_disk (current : Place) (base dir : Path) : KeepsPages (.disk current base) dir
    fun (t : FileTree) index content =>
      t.read current (base.join (pagePath dir index)) = .ok content where
  written h := Disk.read_of_write h
  kept {index other content more t t' refusal} h hne hheld := by
    cases refusal with
    | some reason =>
      change Disk.write current (base.join (pagePath dir other)) more t = (t', some reason) at h
      unfold Disk.write at h
      split at h
      · cases h
      · cases h
        exact hheld
    | none =>
      have hperforms : (Storage.disk current base).Performs
          [.write (pagePath dir other) more] t t' := ⟨t', h, rfl⟩
      refine Disk.read_performs hperforms hheld ?_
      intro q written hmem
      cases List.mem_singleton.mp hmem
      obtain ⟨place, hplace⟩ := Disk.exists_locate_of_write hperforms hmem
      intro hsame
      exact hne (FileTree.locate_pagePath_inj hplace (hsame ▸ hplace))

/-- The name of a chunk file is its index in decimal, with at least two digits, between fixed words,
and the digits give the index back. So the files of a directory have paths of their own, and a pass
over the chunks of a dataset leaves every file that it has written with its own chunk, in memory and
on disk, also when a call is refused before the end. -/
theorem writeEach_apart :
    (∀ index, Chunk.nameOf index =
        "letters-chunk-" ++ String.ofList ((toString index).toList.leftpad 2 '0') ++ ".json" ∧
      Chunk.indexOf (Chunk.nameOf index) = index) ∧
    (∀ (dir : Path) (i j : Nat),
      dir.join (.ofString (Chunk.nameOf i)) = dir.join (.ofString (Chunk.nameOf j)) → i = j) ∧
    ∀ (records : List Record) (size : Nat) (chunks : List Chunk),
      Chunk.ofRecords records size = .ok chunks → ∀ s : Settings,
        (chunks.map (chunkPath s.outputDir)).Nodup ∧
        (∀ (base : Path) (m : Memory), ∃ done rest, done ++ rest = chunks ∧
          Wrote s (fun m index content => m.get? (pagePath s.outputDir index).shown = some content)
            done rest ((writeEach s.outputDir s.locale chunks).run (.memory base) m)) ∧
        ∀ (current : Place) (base : Path) (t : FileTree), ∃ done rest, done ++ rest = chunks ∧
          Wrote s (fun t index content =>
              t.read current (base.join (pagePath s.outputDir index)) = .ok content)
            done rest ((writeEach s.outputDir s.locale chunks).run (.disk current base) t) := by
  refine ⟨fun index => ⟨Chunk.nameOf_eq index, Chunk.indexOf_nameOf index⟩, ?_, ?_⟩
  · exact fun dir i j => pagePath_inj
  · intro records size chunks hchunks s
    have hindex := nodup_index_of_ofRecords hchunks
    have hpaths : ((chunks.map Chunk.index).map (pagePath s.outputDir)).Nodup :=
      List.Pairwise.map _ (fun _ _ hne heq => hne (pagePath_inj heq)) hindex
    rw [List.map_map] at hpaths
    exact ⟨hpaths, fun base m => (keepsPages_memory base s.outputDir).writeEach hindex m,
      fun current base t => (keepsPages_disk current base s.outputDir).writeEach hindex t⟩

/-- The third of three writes is refused. The two files written before it hold their own letters. -/
theorem writeEach_apart_before_refusal :
    let s : Settings := { Settings.standard with outputDir := .ofString "out/" }
    let records : List Record := [⟨[("id", "1")]⟩, ⟨[("id", "2")]⟩, ⟨[("id", "3")]⟩]
    let chunks : List Chunk := [⟨0, [⟨[("id", "1")]⟩]⟩, ⟨1, [⟨[("id", "2")]⟩]⟩, ⟨2, [⟨[("id", "3")]⟩]⟩]
    let m : Memory := ⟨[], [((.write, "out/letters-chunk-02.json"), "disk full")]⟩
    let r := (writeEach s.outputDir s.locale chunks).run (.memory (.ofString "/work")) m
    Chunk.ofRecords records 1 = .ok chunks ∧ r.calls = chunks.map (chunkCall s) ∧
      ∀ c ∈ chunks.take 2,
        r.store.get? (pagePath s.outputDir c.index).shown = some c.encode := by
  intro s records chunks m r
  have hchunks : Chunk.ofRecords records 1 = .ok chunks := eq_ok_of_toOption (by decide +kernel)
  obtain ⟨-, -, hpass⟩ := writeEach_apart
  obtain ⟨-, hmemory, -⟩ := hpass records 1 chunks hchunks s
  obtain ⟨done, rest, happend, hwrote⟩ := hmemory (.ofString "/work") m
  have hcount : done.length = 2 := by
    have hlines := congrArg List.length hwrote.lines
    rw [List.length_map] at hlines
    rw [← hlines]
    decide +kernel
  have hdone : chunks.take 2 = done := by rw [← happend, ← hcount, List.take_left]
  refine ⟨hchunks, by decide +kernel, ?_⟩
  rw [hdone]
  exact hwrote.apart

end Publication

end LetterPages
