import LetterPages.Proofs.Utf8
import LetterPages.Publication

/-!
# Names of chunk files

The label of an index spells that index in decimal. So the chunk files of one directory have names
of their own, and the texts shown for their paths differ as well.
-/

namespace LetterPages

/-! ## Numerals -/

theorem isDigit_of_mem_toString {n : Nat} {c : Char} (h : c ∈ (toString n).toList) :
    c.isDigit = true := by
  rw [Nat.toString_eq_repr, Nat.toList_repr] at h
  exact Nat.isDigit_of_mem_toDigits (by decide) (by decide) h

theorem ofDigitChars_toString (n : Nat) : Nat.ofDigitChars 10 (toString n).toList 0 = n := by
  rw [Nat.toString_eq_repr, Nat.toList_repr, Nat.ofDigitChars_ten_toDigits]

theorem toString_inj {m n : Nat} (h : toString m = toString n) : m = n := by
  rw [← ofDigitChars_toString m, h, ofDigitChars_toString]

/-! ## Labels and names -/

namespace Chunk

theorem ofDigitChars_label (index : Nat) : Nat.ofDigitChars 10 (label index).toList 0 = index := by
  unfold label
  split
  · rw [String.toList_append, Nat.ofDigitChars_append]
    exact ofDigitChars_toString index
  · exact ofDigitChars_toString index

theorem label_inj {i j : Nat} (h : label i = label j) : i = j := by
  rw [← ofDigitChars_label i, h, ofDigitChars_label]

theorem nameOf_inj {i j : Nat} (h : nameOf i = nameOf j) : i = j := by
  unfold nameOf at h
  exact label_inj ((String.append_right_inj _).mp ((String.append_left_inj _).mp h))

theorem ofString_nameOf (index : Nat) :
    ∃ rest, Utf8.ofString (nameOf index) = 0x6C :: rest := by
  have hhead : "letters-chunk-".toList = 'l' :: "etters-chunk-".toList := by decide
  refine ⟨Utf8.encode ("etters-chunk-".toList ++ (label index).toList ++ ".json".toList), ?_⟩
  rw [Utf8.ofString, nameOf, String.toList_append, String.toList_append, hhead]
  rfl

end Chunk

/-! ## Paths of chunk files -/

/-- The bytes of a directory's path in front of a name. -/
def Path.front (dir : Path) : Bytes :=
  if dir.isOpen then dir.bytes else dir.bytes ++ [slash]

/-- The text shown for the path of the chunk file with an index, its key in memory. -/
def pageKey (dir : Path) (index : Nat) : String :=
  (dir.join (.ofString (Chunk.nameOf index))).shown

theorem Path.bytes_join {base p : Path} (h : p.isAbsolute = false) :
    (base.join p).bytes = base.front ++ p.bytes := by
  rw [Path.join, Path.front, h]
  cases base.isOpen <;> simp

theorem pageKey_eq (dir : Path) (index : Nat) :
    pageKey dir index = Utf8.lossy dir.front ++ Chunk.nameOf index := by
  obtain ⟨rest, hrest⟩ := Chunk.ofString_nameOf index
  have habsolute : (Path.ofString (Chunk.nameOf index)).isAbsolute = false := by
    rw [Path.isAbsolute, Path.ofString, hrest]
    rfl
  have hfresh : Utf8.Fresh (Utf8.ofString (Chunk.nameOf index)) := by
    intro b hb
    rw [hrest] at hb
    cases hb
    rfl
  rw [pageKey, Path.shown, Path.bytes_join habsolute, Path.ofString,
    Utf8.lossy_append _ hfresh, Utf8.ofString, Utf8.lossy_encode, String.ofList_toList]

theorem pageKey_inj {dir : Path} {i j : Nat} (h : pageKey dir i = pageKey dir j) : i = j := by
  rw [pageKey_eq, pageKey_eq] at h
  exact Chunk.nameOf_inj ((String.append_right_inj _).mp h)

end LetterPages
