import LetterPages.Json.Quoted
import LetterPages.Json.StringToken
import LetterPages.Proofs.Utf8

/-!
# Strings read back from JSON

A quoted text is read back as it was, whatever characters it holds and whatever follows it.
-/

namespace LetterPages.Json

/-! ## Bytes that stand for themselves -/

/-- A byte that a string may hold without an escape. -/
def IsLiteral (b : UInt8) : Prop :=
  b ≠ 0x22 ∧ b ≠ 0x5C ∧ ¬ b < 0x20

/-- What a string gives when bytes are put in front of it. -/
def prepend (t : Bytes) (r : Except Problem (Bytes × Bytes)) : Except Problem (Bytes × Bytes) :=
  r.map fun p => (t ++ p.1, p.2)

theorem prepend_prepend (s t : Bytes) (r : Except Problem (Bytes × Bytes)) :
    prepend s (prepend t r) = prepend (s ++ t) r := by
  cases r with
  | error p => rfl
  | ok p => exact congrArg (fun x => Except.ok (x, p.2)) (List.append_assoc s t p.1).symm

theorem stringBytes_literal {b : UInt8} (h : IsLiteral b) (s : Bytes) :
    stringBytes (b :: s) = prepend [b] (stringBytes s) := by
  rw [stringBytes, if_neg h.1, if_neg h.2.1, if_neg h.2.2]
  cases stringBytes s <;> rfl

theorem stringBytes_literals {t : Bytes} (h : ∀ b ∈ t, IsLiteral b) (s : Bytes) :
    stringBytes (t ++ s) = prepend t (stringBytes s) := by
  induction t with
  | nil =>
    rw [List.nil_append]
    cases stringBytes s <;> rfl
  | cons b t ih =>
    have hb := h b List.mem_cons_self
    have ht := ih fun x hx => h x (List.mem_cons_of_mem b hx)
    rw [List.cons_append, stringBytes_literal hb, ht, prepend_prepend]
    rfl

theorem stringBytes_escape {s r : Bytes} {c : Char} (h : escape s = .ok (c, r)) :
    stringBytes (0x5C :: s) = prepend (String.utf8EncodeChar c) (stringBytes r) := by
  rw [stringBytes, if_neg (by decide), if_pos rfl]
  split
  · rename_i hescape
    rw [h] at hescape
    cases hescape
  · rename_i hescape
    rw [h] at hescape
    cases hescape
    cases stringBytes r <;> rfl

/-! ## Escaped characters -/

theorem map_hexValue?_digitChar : ∀ n < 16,
    (String.utf8EncodeChar (Nat.digitChar n)).map hexValue? = [some n] := by
  decide

theorem exists_hexDigit {n : Nat} (h : n < 16) :
    ∃ b, String.utf8EncodeChar (Nat.digitChar n) = [b] ∧ hexValue? b = some n :=
  List.map_eq_singleton_iff.mp (map_hexValue?_digitChar n h)

theorem escape_control {c : Char} (h : c.toNat < 0x20) (s : Bytes) :
    escape (Utf8.encode ['u', '0', '0', Nat.digitChar (c.toNat / 16),
      Nat.digitChar (c.toNat % 16)] ++ s) = .ok (c, s) := by
  obtain ⟨x, hx, hvalue⟩ := exists_hexDigit (n := c.toNat / 16) (by omega)
  obtain ⟨y, hy, hvalue'⟩ := exists_hexDigit (n := c.toNat % 16) (by omega)
  have hzero : hexValue? 0x30 = some 0 := rfl
  have hsum : 0 * 4096 + 0 * 256 + c.toNat / 16 * 16 + c.toNat % 16 = c.toNat := by omega
  have hlow : isLowSurrogate c.toNat = false := by
    simp [isLowSurrogate]; omega
  have hhigh : isHighSurrogate c.toNat = false := by
    simp [isHighSurrogate]; omega
  have hunit : hexUnit (0x30 :: 0x30 :: x :: y :: s) = .ok (c.toNat, s) := by
    simp only [hexUnit, hzero, hvalue, hvalue', hsum]
  have hbytes : Utf8.encode ['u', '0', '0', Nat.digitChar (c.toNat / 16),
      Nat.digitChar (c.toNat % 16)] ++ s = 0x75 :: 0x30 :: 0x30 :: x :: y :: s := by
    simp only [Utf8.encode_cons, hx, hy]
    rfl
  rw [hbytes, escape, if_pos rfl, unicodeEscape, hunit]
  simp only [hlow, hhigh, Bool.false_eq_true, if_false, Char.ofNat_toNat]

theorem isLiteral_of_mem {c : Char} (hquote : c ≠ '"') (hslash : c ≠ '\\')
    (hcontrol : ¬ c.toNat < 0x20) : ∀ b ∈ String.utf8EncodeChar c, IsLiteral b := by
  intro b hb
  refine ⟨?_, ?_, ?_⟩
  · rintro rfl
    exact hquote (Utf8.eq_of_mem_encodeChar hb (by decide) rfl)
  · rintro rfl
    exact hslash (Utf8.eq_of_mem_encodeChar hb (by decide) rfl)
  · intro hlt
    have hsmall : b.toNat < 0x20 := UInt8.lt_iff_toNat_lt.mp hlt
    rcases Utf8.toNat_of_mem_encodeChar hb with ⟨hsame, -⟩ | ⟨hlarge, -⟩
    · exact hcontrol (hsame ▸ hsmall)
    · omega

theorem escaped_cases (c : Char) :
    (escaped c = [c] ∧ ∀ b ∈ String.utf8EncodeChar c, IsLiteral b) ∨
    ∃ t, escaped c = '\\' :: t ∧ ∀ s, escape (Utf8.encode t ++ s) = .ok (c, s) := by
  unfold escaped
  repeat
    split
    · rename_i h
      subst h
      exact .inr ⟨_, rfl, fun s => rfl⟩
  split
  · rename_i h
    exact .inr ⟨_, rfl, escape_control h⟩
  · rename_i hquote hslash _ _ _ _ _ hcontrol
    exact .inl ⟨rfl, isLiteral_of_mem hquote hslash hcontrol⟩

theorem stringBytes_escaped (c : Char) (s : Bytes) :
    stringBytes (Utf8.encode (escaped c) ++ s) =
      prepend (String.utf8EncodeChar c) (stringBytes s) := by
  rcases escaped_cases c with ⟨hc, hliteral⟩ | ⟨t, ht, hescape⟩
  · rw [hc, Utf8.encode_cons, Utf8.encode_nil, List.append_nil, stringBytes_literals hliteral]
  · rw [ht, Utf8.encode_cons, List.append_assoc]
    exact stringBytes_escape (hescape s)

theorem stringBytes_quoted (text : List Char) (s : Bytes) :
    stringBytes (Utf8.encode (text.flatMap escaped) ++ 0x22 :: s) = .ok (Utf8.encode text, s) := by
  induction text with
  | nil =>
    rw [List.flatMap_nil, Utf8.encode_nil, List.nil_append, stringBytes, if_pos rfl]
  | cons c text ih =>
    rw [List.flatMap_cons, Utf8.encode_append, List.append_assoc, stringBytes_escaped, ih]
    rfl

/-- A quoted text is read back, its opening quote already read. -/
theorem stringText_quoted (text : String) (s : Bytes) :
    stringText (Utf8.encode (text.toList.flatMap escaped) ++ 0x22 :: s) = .ok (text, s) := by
  rw [stringText, stringBytes_quoted]
  dsimp only
  rw [Utf8.decode?_encode]
  exact congrArg (fun x => Except.ok (x, s)) String.ofList_toList

end LetterPages.Json
