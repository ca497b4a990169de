import LetterPages.Text.Utf8

/-!
# Reading UTF-8 back

Encoded text is decoded to itself. A byte string is cut into pieces independently of what stands
before it, as long as its first byte continues nothing.
-/

namespace LetterPages.Utf8

/-! ## One piece at a time -/

/-- A byte that can begin a scalar value of two bytes or more. -/
def IsLead (a : UInt8) : Prop :=
  0xC2 ≤ a ∧ a ≤ 0xF4

/-- A byte string that continues nothing before it. -/
def Fresh (r : Bytes) : Prop :=
  ∀ b ∈ r.head?, isTail b = false

theorem isTail_iff (b : UInt8) : isTail b = true ↔ 0x80 ≤ b.toNat ∧ b.toNat ≤ 0xBF := by
  simp [isTail, UInt8.le_iff_toNat_le]

theorem isSecond_iff (a b : UInt8) : isSecond a b = true ↔
    (0x80 ≤ b.toNat ∧ b.toNat ≤ 0xBF) ∧
      (a.toNat = 0xE0 → 0xA0 ≤ b.toNat) ∧ (a.toNat = 0xED → b.toNat ≤ 0x9F) ∧
      (a.toNat = 0xF0 → 0x90 ≤ b.toNat) ∧ (a.toNat = 0xF4 → b.toNat ≤ 0x8F) := by
  unfold isSecond
  simp only [← UInt8.toNat_inj, isTail, UInt8.le_iff_toNat_le]
  grind

theorem IsLead.not_lt {a : UInt8} (h : IsLead a) : ¬ a < 0x80 := by
  rw [UInt8.not_lt]
  exact UInt8.le_trans (by decide) h.1

theorem IsLead.outside_eq {a : UInt8} (h : IsLead a) : (a < 0xC2 || 0xF4 < a) = false := by
  simp only [Bool.or_eq_false_iff, decide_eq_false_iff_not, UInt8.not_lt]
  exact h

theorem IsLead.of_inside {a : UInt8} (h : ¬ (a < 0xC2 || 0xF4 < a) = true) : IsLead a := by
  rw [Bool.not_eq_true] at h
  simp only [Bool.or_eq_false_iff, decide_eq_false_iff_not, UInt8.not_lt] at h
  exact h

theorem isTail_of_isSecond {a b : UInt8} (h : isSecond a b = true) : isTail b = true :=
  (isTail_iff b).mpr ((isSecond_iff a b).mp h).1

theorem Fresh.isSecond_eq {r : Bytes} (h : Fresh r) (a : UInt8) :
    ∀ b ∈ r.head?, isSecond a b = false := by
  intro b hb
  have htail := h b hb
  cases hs : isSecond a b with
  | false => rfl
  | true => rw [isTail_of_isSecond hs] at htail; cases htail

theorem pieces_nil : pieces [] = [] :=
  rfl

theorem pieces_one {a : UInt8} (h : a < 0x80) (r : Bytes) :
    pieces (a :: r) = .scalar (Char.ofNat a.toNat) :: pieces r := by
  rw [pieces.eq_def]
  simp only [if_pos h]

theorem pieces_outside {a : UInt8} (h : ¬ a < 0x80) (h' : (a < 0xC2 || 0xF4 < a) = true)
    (r : Bytes) : pieces (a :: r) = .broken [a] :: pieces r := by
  rw [pieces.eq_def]
  simp only [if_neg h, if_pos h']

/-- What follows a byte that can begin a value of two bytes or more. -/
theorem pieces_lead {a : UInt8} (ha : IsLead a) (r : Bytes) : pieces (a :: r) =
    match r with
    | [] => [.broken [a]]
    | b :: r₂ =>
      if !isSecond a b then .broken [a] :: pieces (b :: r₂)
      else if a < 0xE0 then .scalar (scalar₂ a b) :: pieces r₂
      else match r₂ with
        | [] => [.broken [a, b]]
        | c :: r₃ =>
          if !isTail c then .broken [a, b] :: pieces (c :: r₃)
          else if a < 0xF0 then .scalar (scalar₃ a b c) :: pieces r₃
          else match r₃ with
            | [] => [.broken [a, b, c]]
            | d :: r₄ =>
              if !isTail d then .broken [a, b, c] :: pieces (d :: r₄)
              else .scalar (scalar₄ a b c d) :: pieces r₄ := by
  rw [pieces.eq_def]
  simp only [if_neg ha.not_lt, ha.outside_eq, Bool.false_eq_true, if_false]
  rfl

theorem pieces_two {a b : UInt8} (ha : IsLead a) (h : a < 0xE0) (hb : isSecond a b = true)
    (r : Bytes) : pieces (a :: b :: r) = .scalar (scalar₂ a b) :: pieces r := by
  rw [pieces_lead ha]
  simp [h, hb]

theorem pieces_three {a b c : UInt8} (ha : IsLead a) (h : ¬ a < 0xE0) (h' : a < 0xF0)
    (hb : isSecond a b = true) (hc : isTail c = true) (r : Bytes) :
    pieces (a :: b :: c :: r) = .scalar (scalar₃ a b c) :: pieces r := by
  rw [pieces_lead ha]
  simp [h, h', hb, hc]

theorem pieces_four {a b c d : UInt8} (ha : IsLead a) (h : ¬ a < 0xE0) (h' : ¬ a < 0xF0)
    (hb : isSecond a b = true) (hc : isTail c = true) (hd : isTail d = true) (r : Bytes) :
    pieces (a :: b :: c :: d :: r) = .scalar (scalar₄ a b c d) :: pieces r := by
  rw [pieces_lead ha]
  simp [h, h', hb, hc, hd]

theorem pieces_broken_one {a : UInt8} (ha : IsLead a) {r : Bytes}
    (hr : ∀ b ∈ r.head?, isSecond a b = false) : pieces (a :: r) = .broken [a] :: pieces r := by
  rw [pieces_lead ha]
  cases r with
  | nil => rfl
  | cons b r => simp [hr b rfl]

theorem pieces_broken_two {a b : UInt8} (ha : IsLead a) (h : ¬ a < 0xE0)
    (hb : isSecond a b = true) {r : Bytes} (hr : Fresh r) :
    pieces (a :: b :: r) = .broken [a, b] :: pieces r := by
  rw [pieces_lead ha]
  cases r with
  | nil => simp [h, hb, pieces_nil]
  | cons c r => simp [h, hb, hr c rfl]

theorem pieces_broken_three {a b c : UInt8} (ha : IsLead a) (h : ¬ a < 0xE0) (h' : ¬ a < 0xF0)
    (hb : isSecond a b = true) (hc : isTail c = true) {r : Bytes} (hr : Fresh r) :
    pieces (a :: b :: c :: r) = .broken [a, b, c] :: pieces r := by
  rw [pieces_lead ha]
  cases r with
  | nil => simp [h, h', hb, hc, pieces_nil]
  | cons d r => simp [h, h', hb, hc, hr d rfl]

/-! ## Joining byte strings -/

theorem pieces_append (b : Bytes) {r : Bytes} (hr : Fresh r) :
    pieces (b ++ r) = pieces b ++ pieces r := by
  fun_induction pieces b with
  | case1 => rfl
  | case2 a s ha ih =>
    rw [List.cons_append, pieces_one ha, ih, List.cons_append]
  | case3 a s ha hout ih =>
    rw [List.cons_append, pieces_outside ha hout, ih, List.cons_append]
  | case4 a ha hout =>
    rw [List.singleton_append, pieces_broken_one (.of_inside hout) (hr.isSecond_eq a)]
    rfl
  | case5 a ha hout b s hb ih =>
    rw [List.cons_append, pieces_broken_one (.of_inside hout) (by simpa using hb), ih,
      List.cons_append]
  | case6 a ha hout b s hb h ih =>
    rw [List.cons_append, List.cons_append,
      pieces_two (.of_inside hout) h (by simpa using hb), ih, List.cons_append]
  | case7 a ha hout b hb h =>
    rw [List.cons_append, List.cons_append, List.nil_append,
      pieces_broken_two (.of_inside hout) h (by simpa using hb) hr]
    rfl
  | case8 a ha hout b hb h c s hc ih =>
    have hs : Fresh (c :: s ++ r) := by
      intro x hx
      cases hx
      simpa using hc
    rw [List.cons_append, List.cons_append,
      pieces_broken_two (.of_inside hout) h (by simpa using hb) hs, ih, List.cons_append]
  | case9 a ha hout b hb h c s hc h' ih =>
    rw [List.cons_append, List.cons_append, List.cons_append,
      pieces_three (.of_inside hout) h h' (by simpa using hb) (by simpa using hc), ih,
      List.cons_append]
  | case10 a ha hout b hb h c hc h' =>
    rw [List.cons_append, List.cons_append, List.cons_append, List.nil_append,
      pieces_broken_three (.of_inside hout) h h' (by simpa using hb) (by simpa using hc) hr]
    rfl
  | case11 a ha hout b hb h c hc h' d s hd ih =>
    have hs : Fresh (d :: s ++ r) := by
      intro x hx
      cases hx
      simpa using hd
    rw [List.cons_append, List.cons_append, List.cons_append,
      pieces_broken_three (.of_inside hout) h h' (by simpa using hb) (by simpa using hc) hs, ih,
      List.cons_append]
  | case12 a ha hout b hb h c hc h' d s hd ih =>
    rw [List.cons_append, List.cons_append, List.cons_append, List.cons_append,
      pieces_four (.of_inside hout) h h' (by simpa using hb) (by simpa using hc)
        (by simpa using hd), ih, List.cons_append]

/-! ## Encoded text -/

@[simp]
theorem encode_nil : encode [] = [] := rfl

@[simp]
theorem encode_cons (c : Char) (text : List Char) :
    encode (c :: text) = String.utf8EncodeChar c ++ encode text := rfl

@[simp]
theorem encode_append (s t : List Char) : encode (s ++ t) = encode s ++ encode t :=
  List.flatMap_append

/-- The bytes of a character are the character itself, or bytes that no character below 0x80 has. -/
theorem toNat_of_mem_encodeChar {c : Char} {b : UInt8} (h : b ∈ String.utf8EncodeChar c) :
    b.toNat = c.toNat ∧ c.toNat < 0x80 ∨ 0x80 ≤ b.toNat ∧ 0x80 ≤ c.toNat := by
  unfold String.utf8EncodeChar at h
  generalize hv : c.val.toNat = v at h
  have hc : c.toNat = v := hv
  dsimp only at h
  split at h
  · simp only [List.mem_singleton] at h
    subst h
    simp; omega
  · right
    split at h
    · simp only [List.mem_cons, List.not_mem_nil, or_false] at h
      rcases h with rfl | rfl <;> simp <;> omega
    · split at h
      · simp only [List.mem_cons, List.not_mem_nil, or_false] at h
        rcases h with rfl | rfl | rfl <;> simp <;> omega
      · simp only [List.mem_cons, List.not_mem_nil, or_false] at h
        rcases h with rfl | rfl | rfl | rfl <;> simp <;> omega

/-- A byte below 0x80 stands for its own character only. -/
theorem eq_of_mem_encodeChar {c d : Char} {b : UInt8} (hb : b ∈ String.utf8EncodeChar c)
    (hd : d.toNat < 0x80) (h : b.toNat = d.toNat) : c = d := by
  rcases toNat_of_mem_encodeChar hb with ⟨hc, -⟩ | ⟨hlarge, -⟩
  · exact Char.toNat_inj.mp (hc.symm.trans h)
  · omega

theorem mem_of_mem_encode {text : List Char} {d : Char} {b : UInt8} (hb : b ∈ encode text)
    (hd : d.toNat < 0x80) (h : b.toNat = d.toNat) : d ∈ text := by
  obtain ⟨c, hc, hbc⟩ := List.mem_flatMap.mp hb
  rw [← eq_of_mem_encodeChar hbc hd h]
  exact hc

theorem encode_ne_nil {text : List Char} (h : text ≠ []) : encode text ≠ [] := by
  cases text with
  | nil => exact absurd rfl h
  | cons c text =>
    intro heq
    have hlength := congrArg List.length heq
    rw [encode_cons, List.length_append, String.length_utf8EncodeChar] at hlength
    have hsize : 0 < c.utf8Size := c.utf8Size_pos
    simp only [List.length_nil] at hlength
    omega

theorem char_ofNat_of_eq {c : Char} {n : Nat} (h : c.toNat = n) : Char.ofNat n = c := by
  rw [← h, Char.ofNat_toNat]

/-- A character is read back from its one to four bytes, whatever follows them. -/
theorem pieces_encodeChar (c : Char) (rest : Bytes) :
    pieces (String.utf8EncodeChar c ++ rest) = .scalar c :: pieces rest := by
  have hvalid : c.val.toNat < 0xD800 ∨ 0xDFFF < c.val.toNat ∧ c.val.toNat < 0x110000 := c.valid
  unfold String.utf8EncodeChar
  generalize hv : c.val.toNat = v at hvalid
  have hc : c.toNat = v := hv
  dsimp only
  split
  · rw [List.cons_append, List.nil_append, pieces_one]
    · rw [char_ofNat_of_eq]
      simp; omega
    · simp [UInt8.lt_iff_toNat_lt]; omega
  · split
    · simp only [List.cons_append, List.nil_append]
      rw [pieces_two]
      · rw [scalar₂, char_ofNat_of_eq]
        simp; omega
      · simp [IsLead, UInt8.le_iff_toNat_le]; omega
      · simp [UInt8.lt_iff_toNat_lt]; omega
      · rw [isSecond_iff]
        simp; omega
    · split
      · simp only [List.cons_append, List.nil_append]
        rw [pieces_three]
        · rw [scalar₃, char_ofNat_of_eq]
          simp; omega
        · simp [IsLead, UInt8.le_iff_toNat_le]; omega
        · simp [UInt8.lt_iff_toNat_lt]; omega
        · simp [UInt8.lt_iff_toNat_lt]; omega
        · rw [isSecond_iff]
          simp; omega
        · rw [isTail_iff]
          simp; omega
      · simp only [List.cons_append, List.nil_append]
        rw [pieces_four]
        · rw [scalar₄, char_ofNat_of_eq]
          simp; omega
        · simp [IsLead, UInt8.le_iff_toNat_le]; omega
        · simp [UInt8.lt_iff_toNat_lt]; omega
        · simp [UInt8.lt_iff_toNat_lt]; omega
        · rw [isSecond_iff]
          simp; omega
        · rw [isTail_iff]
          simp; omega
        · rw [isTail_iff]
          simp; omega

theorem pieces_encode_append (text : List Char) (rest : Bytes) :
    pieces (encode text ++ rest) = text.map Piece.scalar ++ pieces rest := by
  induction text with
  | nil => rfl
  | cons c text ih =>
    rw [encode, List.flatMap_cons, List.append_assoc, pieces_encodeChar]
    exact congrArg _ ih

theorem pieces_encode (text : List Char) : pieces (encode text) = text.map Piece.scalar := by
  have h := pieces_encode_append text []
  rwa [List.append_nil, pieces_nil, List.append_nil] at h

theorem decode?_encode (text : List Char) : decode? (encode text) = some text := by
  rw [decode?, pieces_encode, List.mapM_map]
  induction text with
  | nil => rfl
  | cons c text ih =>
    rw [List.mapM_cons, ih]
    rfl

theorem decode?_ofString (s : String) : decode? (ofString s) = some s.toList :=
  decode?_encode s.toList

theorem ofString_append (s t : String) : ofString (s ++ t) = ofString s ++ ofString t := by
  rw [ofString, String.toList_append, encode_append]
  rfl

theorem encode_inj {s t : List Char} (h : encode s = encode t) : s = t := by
  have hs := decode?_encode s
  rw [h, decode?_encode] at hs
  exact (Option.some.inj hs).symm

theorem ofString_inj {s t : String} (h : ofString s = ofString t) : s = t :=
  String.toList_inj.mp (encode_inj h)

theorem lossy_encode (text : List Char) : lossy (encode text) = String.ofList text := by
  rw [lossy, pieces_encode, List.map_map]
  simp [Piece.shown, Function.comp_def]

theorem lossy_append (b : Bytes) {r : Bytes} (hr : Fresh r) :
    lossy (b ++ r) = lossy b ++ lossy r := by
  rw [lossy, pieces_append b hr, List.map_append, String.ofList_append]
  rfl

end LetterPages.Utf8
