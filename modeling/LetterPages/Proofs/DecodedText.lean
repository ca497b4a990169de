import LetterPages.Proofs.Utf8

/-!
# Byte strings that are text

The pieces of a byte string make it up again. So a byte string decodes to a text exactly when it is
the encoding of that text, and what stands before its first broken part is the longest of its
prefixes that are text.
-/

namespace LetterPages.Utf8

/-- The byte string encodes some text. -/
def IsText (b : Bytes) : Prop :=
  ∃ text, b = encode text

/-! ## The bytes of a scalar value -/

theorem toNat_ofNat {n : Nat} (h : n.isValidChar) : (Char.ofNat n).toNat = n := by
  rw [Char.ofNat, dif_pos h]
  rfl

theorem byte_ofNat_of_eq {b : UInt8} {n : Nat} (h : b.toNat = n) : UInt8.ofNat n = b := by
  rw [← h, UInt8.ofNat_toNat]

theorem encodeChar_one {a : UInt8} (h : a < 0x80) :
    String.utf8EncodeChar (Char.ofNat a.toNat) = [a] := by
  have ha : a.toNat < 0x80 := UInt8.lt_iff_toNat_lt.mp h
  have hvalue : (Char.ofNat a.toNat).val.toNat = a.toNat := toNat_ofNat (.inl (by omega))
  unfold String.utf8EncodeChar
  dsimp only
  rw [hvalue, if_pos (by omega), byte_ofNat_of_eq rfl]

theorem encodeChar_scalar₂ {a b : UInt8} (ha : IsLead a) (h : a < 0xE0)
    (hb : isSecond a b = true) : String.utf8EncodeChar (scalar₂ a b) = [a, b] := by
  obtain ⟨hb, -⟩ := (isSecond_iff a b).mp hb
  simp only [IsLead, UInt8.le_iff_toNat_le, UInt8.lt_iff_toNat_lt, UInt8.reduceToNat] at ha h
  have hvalue : (scalar₂ a b).val.toNat = a.toNat % 32 * 64 + b.toNat % 64 :=
    toNat_ofNat (.inl (by omega))
  unfold String.utf8EncodeChar
  dsimp only
  rw [hvalue, if_neg (by omega), if_pos (by omega), byte_ofNat_of_eq (b := a) (by omega),
    byte_ofNat_of_eq (b := b) (by omega)]

theorem encodeChar_scalar₃ {a b c : UInt8} (ha : IsLead a) (h : ¬ a < 0xE0) (h' : a < 0xF0)
    (hb : isSecond a b = true) (hc : isTail c = true) :
    String.utf8EncodeChar (scalar₃ a b c) = [a, b, c] := by
  obtain ⟨hb, hfirst, hsurrogate, -⟩ := (isSecond_iff a b).mp hb
  have hc := (isTail_iff c).mp hc
  simp only [IsLead, UInt8.le_iff_toNat_le, UInt8.lt_iff_toNat_lt, UInt8.reduceToNat] at ha h h'
  have hvalue : (scalar₃ a b c).val.toNat =
      a.toNat % 16 * 4096 + b.toNat % 64 * 64 + c.toNat % 64 :=
    toNat_ofNat (by unfold Nat.isValidChar; omega)
  unfold String.utf8EncodeChar
  dsimp only
  rw [hvalue, if_neg (by omega), if_neg (by omega), if_pos (by omega),
    byte_ofNat_of_eq (b := a) (by omega), byte_ofNat_of_eq (b := b) (by omega),
    byte_ofNat_of_eq (b := c) (by omega)]

theorem encodeChar_scalar₄ {a b c d : UInt8} (ha : IsLead a) (h : ¬ a < 0xF0)
    (hb : isSecond a b = true) (hc : isTail c = true) (hd : isTail d = true) :
    String.utf8EncodeChar (scalar₄ a b c d) = [a, b, c, d] := by
  obtain ⟨hb, -, -, hfirst, hlast⟩ := (isSecond_iff a b).mp hb
  have hc := (isTail_iff c).mp hc
  have hd := (isTail_iff d).mp hd
  simp only [IsLead, UInt8.le_iff_toNat_le, UInt8.lt_iff_toNat_lt, UInt8.reduceToNat] at ha h
  have hvalue : (scalar₄ a b c d).val.toNat =
      a.toNat % 8 * 262144 + b.toNat % 64 * 4096 + c.toNat % 64 * 64 + d.toNat % 64 :=
    toNat_ofNat (by unfold Nat.isValidChar; omega)
  unfold String.utf8EncodeChar
  dsimp only
  rw [hvalue, if_neg (by omega), if_neg (by omega), if_neg (by omega),
    byte_ofNat_of_eq (b := a) (by omega), byte_ofNat_of_eq (b := b) (by omega),
    byte_ofNat_of_eq (b := c) (by omega), byte_ofNat_of_eq (b := d) (by omega)]

/-- The bytes of a character: one that continues nothing, and then only such that continue. -/
theorem exists_encodeChar (c : Char) : ∃ a rest, String.utf8EncodeChar c = a :: rest ∧
    isTail a = false ∧ ∀ b ∈ rest, isTail b = true := by
  have hsize := c.val.toNat_lt_size
  unfold String.utf8EncodeChar
  generalize c.val.toNat = v at hsize
  dsimp only
  split
  next =>
    refine ⟨_, [], rfl, ?_, fun b hb => by cases hb⟩
    rw [← Bool.not_eq_true, isTail_iff]
    simp
    omega
  split
  next =>
    refine ⟨_, _, rfl, ?_, ?_⟩
    · rw [← Bool.not_eq_true, isTail_iff]
      simp
      omega
    · simp only [isTail_iff, List.mem_cons, List.not_mem_nil, or_false]
      rintro b rfl
      simp
      omega
  split
  next =>
    refine ⟨_, _, rfl, ?_, ?_⟩
    · rw [← Bool.not_eq_true, isTail_iff]
      simp
      omega
    · simp only [isTail_iff, List.mem_cons, List.not_mem_nil, or_false]
      rintro b (rfl | rfl) <;> simp <;> omega
  next =>
    refine ⟨_, _, rfl, ?_, ?_⟩
    · rw [← Bool.not_eq_true, isTail_iff]
      simp
      omega
    · simp only [isTail_iff, List.mem_cons, List.not_mem_nil, or_false]
      rintro b (rfl | rfl | rfl) <;> simp <;> omega

/-- The bytes of a character tell where they end. -/
theorem encodeChar_append_inj {c d : Char} {s t : Bytes}
    (h : String.utf8EncodeChar c ++ s = String.utf8EncodeChar d ++ t) : c = d ∧ s = t := by
  have hpieces := congrArg pieces h
  rw [pieces_encodeChar, pieces_encodeChar] at hpieces
  obtain rfl : c = d := Piece.scalar.inj (List.cons.inj hpieces).1
  exact ⟨rfl, List.append_cancel_left h⟩

/-! ## Decoding -/

/-- The pieces of a byte string make it up again. -/
theorem flatMap_bytes_pieces (b : Bytes) : (pieces b).flatMap Piece.bytes = b := by
  fun_induction pieces b with
  | case1 => rfl
  | case2 a r ha ih =>
    rw [List.flatMap_cons, Piece.bytes, encodeChar_one ha, ih]
    rfl
  | case6 a ha hout b r hb h ih =>
    rw [List.flatMap_cons, Piece.bytes,
      encodeChar_scalar₂ (.of_inside hout) h (by simpa using hb), ih]
    rfl
  | case9 a ha hout b hb h c r hc h' ih =>
    rw [List.flatMap_cons, Piece.bytes,
      encodeChar_scalar₃ (.of_inside hout) h h' (by simpa using hb) (by simpa using hc), ih]
    rfl
  | case12 a ha hout b hb h c hc h' d r hd ih =>
    rw [List.flatMap_cons, Piece.bytes,
      encodeChar_scalar₄ (.of_inside hout) h' (by simpa using hb) (by simpa using hc)
        (by simpa using hd), ih]
    rfl
  | case4 | case7 | case10 => rfl
  | case3 _ _ _ _ ih | case5 _ _ _ _ _ _ ih | case8 _ _ _ _ _ _ _ _ _ ih
  | case11 _ _ _ _ _ _ _ _ _ _ _ _ ih =>
    rw [List.flatMap_cons, ih]
    rfl

theorem flatMap_bytes_scalar (text : List Char) :
    (text.map Piece.scalar).flatMap Piece.bytes = encode text := by
  rw [List.flatMap_map]
  rfl

theorem mapM_scalar?_eq_some {l : List Piece} {text : List Char}
    (h : l.mapM Piece.scalar? = some text) : l = text.map Piece.scalar := by
  induction l generalizing text with
  | nil =>
    cases h
    rfl
  | cons p l ih =>
    rw [List.mapM_cons] at h
    obtain ⟨c, hc, h⟩ := Option.bind_eq_some_iff.mp h
    obtain ⟨rest, hrest, h⟩ := Option.bind_eq_some_iff.mp h
    cases h
    cases p with
    | broken part => cases hc
    | scalar d =>
      cases hc
      rw [ih hrest, List.map_cons]

/-- A byte string is decoded to the text that it encodes, and to no other. -/
theorem decode?_eq_some_iff {b : Bytes} {text : List Char} :
    decode? b = some text ↔ b = encode text := by
  constructor
  · intro h
    have hpieces : pieces b = text.map Piece.scalar := mapM_scalar?_eq_some h
    rw [← flatMap_bytes_pieces b, hpieces, flatMap_bytes_scalar]
  · rintro rfl
    exact decode?_encode text

theorem decode?_eq_none_iff {b : Bytes} : decode? b = none ↔ ¬ IsText b := by
  rw [Option.eq_none_iff_forall_ne_some]
  constructor
  · rintro h ⟨text, rfl⟩
    exact h text (decode?_encode text)
  · intro h text htext
    exact h ⟨text, decode?_eq_some_iff.mp htext⟩

/-! ## The longest prefix that is text -/

theorem takeWhile_scalar (l : List Piece) :
    ∃ text : List Char, (l.takeWhile fun p => p.scalar?.isSome) = text.map Piece.scalar := by
  induction l with
  | nil => exact ⟨[], rfl⟩
  | cons p l ih =>
    cases p with
    | broken part => exact ⟨[], rfl⟩
    | scalar c =>
      obtain ⟨text, htext⟩ := ih
      exact ⟨c :: text, congrArg (Piece.scalar c :: ·) htext⟩

theorem exists_of_validLength (b : Bytes) :
    ∃ text rest, b = encode text ++ rest ∧ validLength b = (encode text).length := by
  obtain ⟨text, htext⟩ := takeWhile_scalar (pieces b)
  refine ⟨text, ((pieces b).dropWhile fun p => p.scalar?.isSome).flatMap Piece.bytes, ?_, ?_⟩
  · rw [← flatMap_bytes_scalar, ← htext, ← List.flatMap_append, List.takeWhile_append_dropWhile,
      flatMap_bytes_pieces]
  · rw [validLength, htext, flatMap_bytes_scalar]

theorem isText_take_validLength (b : Bytes) : IsText (b.take (validLength b)) := by
  obtain ⟨text, rest, hbytes, hlength⟩ := exists_of_validLength b
  refine ⟨text, ?_⟩
  calc b.take (validLength b)
    _ = b.take (encode text).length := by rw [hlength]
    _ = (encode text ++ rest).take (encode text).length := congrArg _ hbytes
    _ = encode text := List.take_left

theorem validLength_le (b : Bytes) : validLength b ≤ b.length := by
  obtain ⟨text, rest, hbytes, hlength⟩ := exists_of_validLength b
  have hsum := congrArg List.length hbytes
  rw [List.length_append] at hsum
  omega

/-- A prefix that is text ends before the first broken part. -/
theorem le_validLength {b : Bytes} {n : Nat} (hn : n ≤ b.length) (h : IsText (b.take n)) :
    n ≤ validLength b := by
  obtain ⟨text, htext⟩ := h
  have hpieces : pieces b = text.map Piece.scalar ++ pieces (b.drop n) := by
    rw [← pieces_encode_append, ← htext, List.take_append_drop]
  have hscalar : ∀ p ∈ text.map Piece.scalar, p.scalar?.isSome = true := by
    intro p hp
    obtain ⟨c, -, rfl⟩ := List.mem_map.mp hp
    rfl
  have hlength : n = (encode text).length := by
    rw [← htext, List.length_take, Nat.min_eq_left hn]
  rw [validLength, hpieces, List.takeWhile_append_of_pos hscalar, List.flatMap_append,
    flatMap_bytes_scalar, List.length_append, ← hlength]
  exact Nat.le_add_right _ _

end LetterPages.Utf8
