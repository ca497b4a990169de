import LetterPages.Basic
import LetterPages.Proofs.DecodedText
import LetterPages.Proofs.Json.StringText

/-!
# Spelled strings

The many ways to write a text as a JSON string: a character stands for itself, or it is escaped by a
letter or by its UTF-16 units. The readers accept what is spelled, whatever follows, and they accept
nothing else.
-/

namespace LetterPages.Json

/-! ## The grammar -/

/-- The character is the digit of a value below 16, in either case. -/
def IsHexDigit (c : Char) (d : Nat) : Prop :=
  d < 16 ∧ (c = d.digitChar ∨ c = d.digitChar.toUpper)

/-- Four hexadecimal digits and the number that they write. -/
inductive SpellsUnit : List Char → Nat → Prop
  | digits {c₁ c₂ c₃ c₄ : Char} {d₁ d₂ d₃ d₄ : Nat} (h₁ : IsHexDigit c₁ d₁)
      (h₂ : IsHexDigit c₂ d₂) (h₃ : IsHexDigit c₃ d₃) (h₄ : IsHexDigit c₄ d₄) :
      SpellsUnit [c₁, c₂, c₃, c₄] (d₁ * 4096 + d₂ * 256 + d₃ * 16 + d₄)

/-- The escapes by one character, and what they stand for. -/
def letterEscapes : List (Char × Char) :=
  [('"', '"'), ('\\', '\\'), ('/', '/'), ('b', '\x08'), ('f', '\x0c'), ('n', '\n'), ('r', '\r'),
    ('t', '\t')]

/-- What a backslash may be followed by, and the character this stands for. A character beyond the
first 65536 is written as two UTF-16 units, and a surrogate is written in such a pair only. -/
inductive SpellsEscape : List Char → Char → Prop
  | letter {mark c : Char} (h : (mark, c) ∈ letterEscapes) : SpellsEscape [mark] c
  | unit {s : List Char} {c : Char} (h : SpellsUnit s c.toNat) : SpellsEscape ('u' :: s) c
  | pair {s t : List Char} {high low : Nat} {c : Char} (hs : SpellsUnit s high)
      (ht : SpellsUnit t low) (hhigh : 0xD800 ≤ high ∧ high ≤ 0xDBFF)
      (hlow : 0xDC00 ≤ low ∧ low ≤ 0xDFFF)
      (hc : c.toNat = 0x10000 + (high - 0xD800) * 1024 + (low - 0xDC00)) :
      SpellsEscape ('u' :: (s ++ '\\' :: 'u' :: t)) c

/-- A character that a string may hold as it is. -/
def IsVerbatim (c : Char) : Prop :=
  c ≠ '"' ∧ c ≠ '\\' ∧ 0x20 ≤ c.toNat

/-- What stands between the quotes of a string, and its text. -/
inductive SpellsText : List Char → List Char → Prop
  | nil : SpellsText [] []
  | verbatim {c : Char} {s text : List Char} (hc : IsVerbatim c) (h : SpellsText s text) :
      SpellsText (c :: s) (c :: text)
  | escape {c : Char} {e s text : List Char} (he : SpellsEscape e c) (h : SpellsText s text) :
      SpellsText ('\\' :: (e ++ s)) (c :: text)

inductive SpellsString : List Char → String → Prop
  | quotes {s : List Char} {text : String} (h : SpellsText s text.toList) :
      SpellsString ('"' :: (s ++ ['"'])) text

/-! ## Digits -/

theorem map_hexValue?_digitChar_toUpper : ∀ n < 16,
    (String.utf8EncodeChar (Nat.digitChar n).toUpper).map hexValue? = [some n] := by
  decide

theorem exists_hexByte {c : Char} {d : Nat} (h : IsHexDigit c d) :
    ∃ b, String.utf8EncodeChar c = [b] ∧ hexValue? b = some d := by
  obtain ⟨hd, rfl | rfl⟩ := h
  · exact exists_hexDigit hd
  · exact List.map_eq_singleton_iff.mp (map_hexValue?_digitChar_toUpper d hd)

theorem hexValue?_table : ∀ n < 256, ∀ d ∈ hexValue? (UInt8.ofNat n),
    IsHexDigit (Char.ofNat n) d ∧ String.utf8EncodeChar (Char.ofNat n) = [UInt8.ofNat n] := by
  unfold IsHexDigit
  decide +kernel

theorem exists_hexChar {b : UInt8} {d : Nat} (h : hexValue? b = some d) :
    ∃ c, IsHexDigit c d ∧ String.utf8EncodeChar c = [b] := by
  have htable := hexValue?_table b.toNat b.toNat_lt d
  rw [UInt8.ofNat_toNat] at htable
  exact ⟨_, htable h⟩

theorem hexUnit_spelled {s : List Char} {n : Nat} (h : SpellsUnit s n) (rest : Bytes) :
    hexUnit (Utf8.encode s ++ rest) = .ok (n, rest) := by
  cases h with
  | digits h₁ h₂ h₃ h₄ =>
    obtain ⟨b₁, hb₁, hv₁⟩ := exists_hexByte h₁
    obtain ⟨b₂, hb₂, hv₂⟩ := exists_hexByte h₂
    obtain ⟨b₃, hb₃, hv₃⟩ := exists_hexByte h₃
    obtain ⟨b₄, hb₄, hv₄⟩ := exists_hexByte h₄
    simp only [Utf8.encode_cons, Utf8.encode_nil, hb₁, hb₂, hb₃, hb₄, List.cons_append,
      List.nil_append, hexUnit, hv₁, hv₂, hv₃, hv₄]

theorem exists_of_hexUnit {s rest : Bytes} {n : Nat} (h : hexUnit s = .ok (n, rest)) :
    ∃ w, SpellsUnit w n ∧ s = Utf8.encode w ++ rest := by
  unfold hexUnit at h
  split at h
  next b₁ b₂ b₃ b₄ tail =>
    split at h
    next d₁ d₂ d₃ d₄ hv₁ hv₂ hv₃ hv₄ =>
      cases h
      obtain ⟨c₁, h₁, hc₁⟩ := exists_hexChar hv₁
      obtain ⟨c₂, h₂, hc₂⟩ := exists_hexChar hv₂
      obtain ⟨c₃, h₃, hc₃⟩ := exists_hexChar hv₃
      obtain ⟨c₄, h₄, hc₄⟩ := exists_hexChar hv₄
      refine ⟨_, .digits h₁ h₂ h₃ h₄, ?_⟩
      simp only [Utf8.encode_cons, Utf8.encode_nil, hc₁, hc₂, hc₃, hc₄, List.cons_append,
        List.nil_append]
    next => cases h
  next => cases h

theorem SpellsUnit.lt {s : List Char} {n : Nat} (h : SpellsUnit s n) : n < 65536 := by
  cases h with
  | digits h₁ h₂ h₃ h₄ =>
    have hd₁ := h₁.1
    have hd₂ := h₂.1
    have hd₃ := h₃.1
    have hd₄ := h₄.1
    omega

/-! ## Escapes -/

theorem isLowSurrogate_iff (n : Nat) : isLowSurrogate n = true ↔ 0xDC00 ≤ n ∧ n ≤ 0xDFFF := by
  simp [isLowSurrogate]

theorem isHighSurrogate_iff (n : Nat) : isHighSurrogate n = true ↔ 0xD800 ≤ n ∧ n ≤ 0xDBFF := by
  simp [isHighSurrogate]

theorem escape_letter {mark c : Char} (h : (mark, c) ∈ letterEscapes) (rest : Bytes) :
    escape (Utf8.encode [mark] ++ rest) = .ok (c, rest) := by
  simp only [letterEscapes, List.mem_cons, Prod.mk.injEq, List.not_mem_nil, or_false] at h
  rcases h with ⟨rfl, rfl⟩ | ⟨rfl, rfl⟩ | ⟨rfl, rfl⟩ | ⟨rfl, rfl⟩ | ⟨rfl, rfl⟩ | ⟨rfl, rfl⟩ |
    ⟨rfl, rfl⟩ | ⟨rfl, rfl⟩ <;> rfl

theorem exists_of_simpleEscape? {b : UInt8} {c : Char} (h : simpleEscape? b = some c) :
    ∃ mark, (mark, c) ∈ letterEscapes ∧ String.utf8EncodeChar mark = [b] := by
  unfold simpleEscape? at h
  repeat' split at h
  all_goals cases h
  all_goals
    rename_i hb
    refine ⟨Char.ofNat b.toNat, ?_, ?_⟩
    · rw [hb]
      decide
    · rw [hb]
      rfl

theorem encode_pair (s t : List Char) (rest : Bytes) :
    Utf8.encode (s ++ '\\' :: 'u' :: t) ++ rest =
      Utf8.encode s ++ 0x5C :: 0x75 :: (Utf8.encode t ++ rest) := by
  rw [Utf8.encode_append, List.append_assoc]
  rfl

theorem escape_spelled {e : List Char} {c : Char} (h : SpellsEscape e c) (rest : Bytes) :
    escape (Utf8.encode e ++ rest) = .ok (c, rest) := by
  cases h with
  | letter h => exact escape_letter h rest
  | @unit s _ h =>
    have hvalid : c.toNat.isValidChar := c.valid
    have hlow : isLowSurrogate c.toNat = false := by
      rw [← Bool.not_eq_true, isLowSurrogate_iff]
      unfold Nat.isValidChar at hvalid
      omega
    have hhigh : isHighSurrogate c.toNat = false := by
      rw [← Bool.not_eq_true, isHighSurrogate_iff]
      unfold Nat.isValidChar at hvalid
      omega
    have hunicode : escape (Utf8.encode ('u' :: s) ++ rest) =
        unicodeEscape (Utf8.encode s ++ rest) := rfl
    rw [hunicode, unicodeEscape, hexUnit_spelled h]
    simp only [hlow, hhigh, Bool.false_eq_true, if_false, Char.ofNat_toNat]
  | @pair s t high low _ hs ht hhigh hlow hc =>
    have hnotlow : isLowSurrogate high = false := by
      rw [← Bool.not_eq_true, isLowSurrogate_iff]
      omega
    have hunicode : escape (Utf8.encode ('u' :: (s ++ '\\' :: 'u' :: t)) ++ rest) =
        unicodeEscape (Utf8.encode (s ++ '\\' :: 'u' :: t) ++ rest) := rfl
    rw [hunicode, encode_pair, unicodeEscape, hexUnit_spelled hs]
    simp only [hnotlow, (isHighSurrogate_iff high).mpr hhigh, Bool.false_eq_true, if_false, if_true]
    rw [lowHalf, if_neg (by simp), hexUnit_spelled ht]
    simp only [(isLowSurrogate_iff low).mpr hlow, if_true]
    rw [← hc, Char.ofNat_toNat]

theorem exists_of_lowHalf {high : Nat} {s rest : Bytes} {c : Char}
    (h : lowHalf high s = .ok (c, rest)) : ∃ w low, SpellsUnit w low ∧
      (0xDC00 ≤ low ∧ low ≤ 0xDFFF) ∧ s = 0x5C :: 0x75 :: (Utf8.encode w ++ rest) ∧
      c = Char.ofNat (0x10000 + (high - 0xD800) * 1024 + (low - 0xDC00)) := by
  unfold lowHalf at h
  split at h
  next => cases h
  next => split at h <;> cases h
  next b u tail =>
    obtain ⟨hmarks, hpair⟩ := of_guard_eq_ok h
    simp only [ne_eq, not_or, Decidable.not_not] at hmarks
    split at hpair
    next => cases hpair
    next low tail' hunit =>
      split at hpair
      next hlow =>
        simp only [Except.ok.injEq, Prod.mk.injEq] at hpair
        obtain ⟨w, hw, rfl⟩ := exists_of_hexUnit hunit
        refine ⟨w, low, hw, (isLowSurrogate_iff low).mp hlow, ?_, hpair.1.symm⟩
        rw [hmarks.1, hmarks.2, hpair.2]
      next => cases hpair

theorem exists_of_unicodeEscape {s rest : Bytes} {c : Char}
    (h : unicodeEscape s = .ok (c, rest)) :
    ∃ e, SpellsEscape ('u' :: e) c ∧ s = Utf8.encode e ++ rest := by
  unfold unicodeEscape at h
  split at h
  next => cases h
  next n tail hunit =>
    obtain ⟨w, hw, rfl⟩ := exists_of_hexUnit hunit
    obtain ⟨hlow, hvalue⟩ := of_guard_eq_ok h
    rw [isLowSurrogate_iff] at hlow
    have hlt := hw.lt
    split at hvalue
    next hhigh =>
      rw [isHighSurrogate_iff] at hhigh
      obtain ⟨w', low, hw', hlow', rfl, hc⟩ := exists_of_lowHalf hvalue
      have hn : c.toNat = 0x10000 + (n - 0xD800) * 1024 + (low - 0xDC00) := by
        rw [hc, Utf8.toNat_ofNat (.inr (by omega))]
      refine ⟨_, .pair hw hw' hhigh hlow' hn, ?_⟩
      exact (encode_pair w w' rest).symm
    next hhigh =>
      rw [isHighSurrogate_iff] at hhigh
      cases hvalue
      have hn : (Char.ofNat n).toNat = n := Utf8.toNat_ofNat (by unfold Nat.isValidChar; omega)
      exact ⟨w, .unit (hn.symm ▸ hw), rfl⟩

theorem exists_of_escape {s rest : Bytes} {c : Char} (h : escape s = .ok (c, rest)) :
    ∃ e, SpellsEscape e c ∧ s = Utf8.encode e ++ rest := by
  unfold escape at h
  split at h
  next => cases h
  next b tail =>
    split at h
    next hb =>
      subst hb
      obtain ⟨e, he, rfl⟩ := exists_of_unicodeEscape h
      exact ⟨'u' :: e, he, rfl⟩
    next =>
      split at h
      next c' hsimple =>
        cases h
        obtain ⟨mark, hmark, hbytes⟩ := exists_of_simpleEscape? hsimple
        refine ⟨[mark], .letter hmark, ?_⟩
        rw [Utf8.encode_cons, hbytes]
        rfl
      next => cases h

/-! ## Texts -/

theorem isLiteral_of_isVerbatim {c : Char} (h : IsVerbatim c) :
    ∀ b ∈ String.utf8EncodeChar c, IsLiteral b :=
  isLiteral_of_mem h.1 h.2.1 (Nat.not_lt.mpr h.2.2)

theorem isVerbatim_of_isLiteral {c : Char} {b : UInt8} (hb : b ∈ String.utf8EncodeChar c)
    (h : IsLiteral b) : IsVerbatim c := by
  obtain ⟨hquote, hslash, hcontrol⟩ := h
  refine ⟨?_, ?_, ?_⟩
  · rintro rfl
    exact hquote (List.mem_singleton.mp hb)
  · rintro rfl
    exact hslash (List.mem_singleton.mp hb)
  · simp only [UInt8.lt_iff_toNat_lt, UInt8.reduceToNat] at hcontrol
    have hvalue := Utf8.toNat_of_mem_encodeChar hb
    omega

theorem stringBytes_spelled {s text : List Char} (h : SpellsText s text) (rest : Bytes) :
    stringBytes (Utf8.encode s ++ 0x22 :: rest) = .ok (Utf8.encode text, rest) := by
  induction h with
  | nil =>
    rw [Utf8.encode_nil, List.nil_append, stringBytes, if_pos rfl]
  | verbatim hc _ ih =>
    rw [Utf8.encode_cons, List.append_assoc, stringBytes_literals (isLiteral_of_isVerbatim hc), ih]
    rfl
  | escape he _ ih =>
    rw [Utf8.encode_cons, Utf8.encode_append, List.append_assoc, List.append_assoc]
    refine (stringBytes_escape (escape_spelled he _)).trans ?_
    rw [ih]
    rfl

/-- The ways in which the bytes of a string go on. -/
theorem stringBytes_cases {s t rest : Bytes} (h : stringBytes s = .ok (t, rest)) :
    (t = [] ∧ s = 0x22 :: rest) ∨
    (∃ c r r' t', s = 0x5C :: r ∧ escape r = .ok (c, r') ∧ stringBytes r' = .ok (t', rest) ∧
      t = String.utf8EncodeChar c ++ t') ∨
    (∃ b r t', s = b :: r ∧ IsLiteral b ∧ stringBytes r = .ok (t', rest) ∧ t = b :: t') := by
  fun_induction stringBytes s generalizing t rest with
  | case2 r =>
    cases h
    exact .inl ⟨rfl, rfl⟩
  | case5 r c r' hescape t' rest' hrest =>
    cases h
    exact .inr (.inl ⟨c, r, r', t', rfl, hescape, hrest, rfl⟩)
  | case8 b r hquote hslash hcontrol t' rest' hrest =>
    cases h
    exact .inr (.inr ⟨b, r, t', rfl, ⟨hquote, hslash, hcontrol⟩, hrest, rfl⟩)
  | case1 | case3 | case4 | case6 | case7 => cases h

/-- Bytes that go on with a character stand in the string as they are: an escape gives whole
characters, and none of them begins with such a byte. -/
theorem exists_of_stringBytes_tails {tails s t rest : Bytes}
    (htails : ∀ b ∈ tails, Utf8.isTail b = true) (h : stringBytes s = .ok (tails ++ t, rest)) :
    ∃ r, s = tails ++ r ∧ stringBytes r = .ok (t, rest) := by
  induction tails generalizing s with
  | nil => exact ⟨s, rfl, h⟩
  | cons b tails ih =>
    have hb := htails b List.mem_cons_self
    rcases stringBytes_cases h with
      ⟨hnil, -⟩ | ⟨c, r, r', t', -, -, -, heq⟩ | ⟨b', r, t', rfl, -, hr, heq⟩
    · cases hnil
    · obtain ⟨a, bytes, hc, ha, -⟩ := Utf8.exists_encodeChar c
      rw [hc] at heq
      obtain ⟨rfl, -⟩ := List.cons.inj heq
      rw [ha] at hb
      cases hb
    · obtain ⟨rfl, rfl⟩ := List.cons.inj heq
      obtain ⟨r', rfl, hr'⟩ := ih (fun x hx => htails x (List.mem_cons_of_mem b hx)) hr
      exact ⟨r', rfl, hr'⟩

theorem exists_of_stringBytes {text : List Char} {s rest : Bytes}
    (h : stringBytes s = .ok (Utf8.encode text, rest)) :
    ∃ w, SpellsText w text ∧ s = Utf8.encode w ++ 0x22 :: rest := by
  induction text generalizing s with
  | nil =>
    rcases stringBytes_cases h with
      ⟨-, rfl⟩ | ⟨c, r, r', t', -, -, -, heq⟩ | ⟨b, r, t', -, -, -, heq⟩
    · exact ⟨[], .nil, rfl⟩
    · obtain ⟨a, bytes, hc, -⟩ := Utf8.exists_encodeChar c
      rw [hc] at heq
      cases heq
    · cases heq
  | cons c text ih =>
    obtain ⟨a, tails, hc, -, htails⟩ := Utf8.exists_encodeChar c
    rcases stringBytes_cases h with
      ⟨hnil, -⟩ | ⟨d, r, r', t', rfl, hescape, hrest, heq⟩ | ⟨b, r, t', rfl, hb, hrest, heq⟩
    · exact absurd hnil (Utf8.encode_ne_nil (List.cons_ne_nil c text))
    · obtain ⟨rfl, rfl⟩ := Utf8.encodeChar_append_inj heq
      obtain ⟨e, he, rfl⟩ := exists_of_escape hescape
      obtain ⟨w, hw, rfl⟩ := ih hrest
      refine ⟨_, .escape he hw, ?_⟩
      rw [Utf8.encode_cons, Utf8.encode_append, List.append_assoc, List.append_assoc]
      rfl
    · rw [Utf8.encode_cons, hc] at heq
      obtain ⟨rfl, rfl⟩ := List.cons.inj heq
      obtain ⟨r', rfl, hr'⟩ := exists_of_stringBytes_tails htails hrest
      obtain ⟨w, hw, rfl⟩ := ih hr'
      refine ⟨c :: w, .verbatim (isVerbatim_of_isLiteral ?_ hb) hw, ?_⟩
      · rw [hc]
        exact List.mem_cons_self
      · rw [Utf8.encode_cons, hc, List.append_assoc]
        rfl

/-- A text is read exactly where it is spelled up to a closing quote. -/
theorem stringText_eq_ok_iff {s rest : Bytes} {text : String} :
    stringText s = .ok (text, rest) ↔
      ∃ w, SpellsText w text.toList ∧ s = Utf8.encode w ++ 0x22 :: rest := by
  unfold stringText
  constructor
  · intro h
    split at h
    next => cases h
    next t tail hbytes =>
      split at h
      next cs hdecode =>
        cases h
        rw [Utf8.decode?_eq_some_iff.mp hdecode] at hbytes
        rw [String.toList_ofList]
        exact exists_of_stringBytes hbytes
      next => cases h
  · rintro ⟨w, hw, rfl⟩
    rw [stringBytes_spelled hw]
    dsimp only
    rw [Utf8.decode?_encode]
    exact congrArg (fun x => Except.ok (x, rest)) String.ofList_toList

end LetterPages.Json
