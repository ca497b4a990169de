import LetterPages.Json.Document
import LetterPages.Json.Value
import LetterPages.Proofs.Utf8

/-!
# Numbers read back from JSON

The decimal numeral of a 64-bit word is read back as that word, as long as what follows it does not
go on with the number.
-/

namespace LetterPages.Json

/-! ## Digits as characters and as bytes -/

def digitByte (c : Char) : UInt8 :=
  UInt8.ofNat c.toNat

/-- A byte string that does not go on with a number. -/
def Ended (rest : Bytes) : Prop :=
  ∀ b ∈ rest.head?, isDigit b = false ∧ b ≠ 0x2E ∧ isExponentLetter b = false

theorem bounds_of_isDigit {c : Char} (h : c.isDigit = true) : 48 ≤ c.toNat ∧ c.toNat ≤ 57 := by
  rw [Char.isDigit, Bool.and_eq_true, decide_eq_true_eq, decide_eq_true_eq] at h
  exact h

theorem toNat_digitByte {c : Char} (h : c.isDigit = true) : (digitByte c).toNat = c.toNat := by
  have hc := bounds_of_isDigit h
  rw [digitByte, UInt8.toNat_ofNat', Nat.mod_eq_of_lt (by omega)]

theorem encodeChar_digit {c : Char} (h : c.isDigit = true) :
    String.utf8EncodeChar c = [digitByte c] := by
  have hc : c.val.toNat ≤ 0x7f := Nat.le_trans (bounds_of_isDigit h).2 (by decide)
  exact if_pos hc

theorem digit?_digitByte {c : Char} (h : c.isDigit = true) :
    digit? (digitByte c) = some (c.toNat - 48) := by
  have hc := bounds_of_isDigit h
  have hb := toNat_digitByte h
  have hrange : 0x30 ≤ digitByte c ∧ digitByte c ≤ 0x39 := by
    rw [UInt8.le_iff_toNat_le, UInt8.le_iff_toNat_le, hb]
    exact hc
  rw [digit?, if_pos hrange, hb]

theorem isDigit_digitByte {c : Char} (h : c.isDigit = true) : isDigit (digitByte c) = true := by
  rw [isDigit, digit?_digitByte h]
  rfl

theorem encode_digits {cs : List Char} (h : ∀ c ∈ cs, c.isDigit = true) :
    Utf8.encode cs = cs.map digitByte := by
  induction cs with
  | nil => rfl
  | cons c cs ih =>
    rw [Utf8.encode_cons, encodeChar_digit (h c List.mem_cons_self),
      ih fun x hx => h x (List.mem_cons_of_mem c hx)]
    rfl

theorem eq_zero_of_digitByte {c : Char} (h : c.isDigit = true) (hbyte : digitByte c = 0x30) :
    c = '0' := by
  have hcode := toNat_digitByte h
  rw [hbyte] at hcode
  exact Char.toNat_inj.mp hcode.symm

/-! ## Runs of digits -/

theorem startsWithDigit_ended {rest : Bytes} (hrest : Ended rest) :
    startsWithDigit rest = false := by
  cases rest with
  | nil => rfl
  | cons b rest => exact (hrest b rfl).1

section Run

variable {cs : List Char} {rest : Bytes}

theorem takeWhile_digits (h : ∀ c ∈ cs, c.isDigit = true)
    (hrest : startsWithDigit rest = false) :
    (cs.map digitByte ++ rest).takeWhile isDigit = cs.map digitByte := by
  rw [List.takeWhile_append_of_pos]
  · cases rest with
    | nil => simp
    | cons b rest => simp [show isDigit b = false from hrest]
  · intro b hb
    obtain ⟨c, hc, rfl⟩ := List.mem_map.mp hb
    exact isDigit_digitByte (h c hc)

theorem skipDigits_digits (h : ∀ c ∈ cs, c.isDigit = true)
    (hrest : startsWithDigit rest = false) :
    skipDigits (cs.map digitByte ++ rest) = rest := by
  rw [skipDigits, List.dropWhile_append_of_pos]
  · cases rest with
    | nil => rfl
    | cons b rest => simp [show isDigit b = false from hrest]
  · intro b hb
    obtain ⟨c, hc, rfl⟩ := List.mem_map.mp hb
    exact isDigit_digitByte (h c hc)

theorem digitRun_digits (h : ∀ c ∈ cs, c.isDigit = true)
    (hrest : startsWithDigit rest = false) :
    digitRun (cs.map digitByte ++ rest) = cs.map fun c => c.toNat - 48 := by
  rw [digitRun, takeWhile_digits h hrest]
  clear hrest
  induction cs with
  | nil => rfl
  | cons c cs ih =>
    rw [List.map_cons, List.filterMap_cons_some (digit?_digitByte (h c List.mem_cons_self)),
      ih fun x hx => h x (List.mem_cons_of_mem c hx)]
    rfl

end Run

theorem le_ofDigitChars (cs : List Char) (n : Nat) : n ≤ Nat.ofDigitChars 10 cs n := by
  induction cs generalizing n with
  | nil => exact Nat.le_of_eq Nat.ofDigitChars_nil.symm
  | cons c cs ih =>
    rw [Nat.ofDigitChars_cons]
    exact Nat.le_trans (by omega) (ih _)

theorem gather_digits (cs : List Char) (n : Nat) (h : Nat.ofDigitChars 10 cs n < UInt64.size) :
    gather n (cs.map fun c => c.toNat - 48) = (Nat.ofDigitChars 10 cs n, 0) := by
  induction cs generalizing n with
  | nil => rw [Nat.ofDigitChars_nil]; rfl
  | cons c cs ih =>
    rw [Nat.ofDigitChars_cons] at h ⊢
    have hstep : n * 10 + (c.toNat - 48) = 10 * n + (c.toNat - '0'.toNat) := by
      rw [Nat.mul_comm]; rfl
    rw [List.map_cons, gather, hstep, if_pos (Nat.lt_of_le_of_lt (le_ofDigitChars cs _) h), ih _ h]

/-! ## Numerals -/

theorem head?_toDigits {n : Nat} (h : n ≠ 0) : (Nat.toDigits 10 n).head? ≠ some '0' := by
  induction n using Nat.strongRecOn with
  | ind n ih =>
    by_cases hlt : n < 10
    · rw [Nat.toDigits_of_lt_base hlt, List.head?_cons]
      intro hzero
      have hvalue := Nat.toNat_digitChar_sub_48_of_lt_ten hlt
      rw [Option.some.inj hzero] at hvalue
      exact h hvalue.symm
    · rw [Nat.toDigits_of_base_le (by decide) (by omega), List.head?_append,
        List.head?_eq_some_head Nat.toDigits_ne_nil, Option.some_or,
        ← List.head?_eq_some_head Nat.toDigits_ne_nil]
      exact ih (n / 10) (by omega) (by omega)

theorem afterWhole_ended (n : Nat) {rest : Bytes} (hrest : Ended rest) :
    afterWhole false n 0 rest = .ok (.natural (UInt64.ofNat n), rest) := by
  unfold afterWhole
  cases rest with
  | nil => rfl
  | cons b rest =>
    obtain ⟨_, hpoint, hletter⟩ := hrest b rfl
    dsimp only
    rw [if_neg hpoint, hletter]
    rfl

theorem unsigned_digits {c : Char} {cs : List Char} (h : ∀ x ∈ c :: cs, x.isDigit = true)
    (hzero : c ≠ '0') (hsize : Nat.ofDigitChars 10 (c :: cs) 0 < UInt64.size) {rest : Bytes}
    (hrest : Ended rest) : unsigned false ((c :: cs).map digitByte ++ rest) =
      .ok (.natural (UInt64.ofNat (Nat.ofDigitChars 10 (c :: cs) 0)), rest) := by
  have hc : c.isDigit = true := h c List.mem_cons_self
  have hbyte : digitByte c ≠ 0x30 := fun heq => hzero (eq_zero_of_digitByte hc heq)
  have hrun := digitRun_digits h (startsWithDigit_ended hrest)
  have hskip : skipDigits (cs.map digitByte ++ rest) = rest :=
    skipDigits_digits (fun x hx => h x (List.mem_cons_of_mem c hx)) (startsWithDigit_ended hrest)
  rw [List.map_cons, List.cons_append] at hrun ⊢
  rw [unsigned, isDigit_digitByte hc, if_neg hbyte, hrun, gather_digits _ _ hsize, hskip]
  exact afterWhole_ended _ hrest

theorem number_of_digit {b : UInt8} (h : isDigit b = true) (r : Bytes) :
    number (b :: r) = unsigned false (b :: r) := by
  unfold number
  split
  · rename_i heq
    cases heq
    cases h
  · rfl

theorem encode_numeral (n : UInt64) :
    ∃ b t, Utf8.encode (numeral n) = b :: t ∧ isDigit b = true := by
  have hdigits : ∀ c ∈ Nat.toDigits 10 n.toNat, c.isDigit = true := by
    intro c hc
    exact Nat.isDigit_of_mem_toDigits (by decide) (by decide) hc
  rw [numeral, Nat.toString_eq_repr, Nat.toList_repr, encode_digits hdigits]
  cases hcs : Nat.toDigits 10 n.toNat with
  | nil => exact absurd hcs Nat.toDigits_ne_nil
  | cons c cs =>
    refine ⟨digitByte c, cs.map digitByte, rfl, isDigit_digitByte (hdigits c ?_)⟩
    rw [hcs]
    exact List.mem_cons_self

theorem number_numeral (n : UInt64) {rest : Bytes} (hrest : Ended rest) :
    number (Utf8.encode (numeral n) ++ rest) = .ok (.natural n, rest) := by
  have hdigits : ∀ c ∈ Nat.toDigits 10 n.toNat, c.isDigit = true := by
    intro c hc
    exact Nat.isDigit_of_mem_toDigits (by decide) (by decide) hc
  have hvalue : Nat.ofDigitChars 10 (Nat.toDigits 10 n.toNat) 0 = n.toNat :=
    Nat.ofDigitChars_ten_toDigits
  rw [numeral, Nat.toString_eq_repr, Nat.toList_repr, encode_digits hdigits]
  by_cases hzero : n = 0
  · subst hzero
    rw [show Nat.toDigits 10 (0 : UInt64).toNat = ['0'] from rfl, List.map_cons, List.map_nil,
      List.cons_append, List.nil_append, number_of_digit rfl, unsigned]
    rw [startsWithDigit_ended hrest]
    exact afterWhole_ended 0 hrest
  · have hnat : n.toNat ≠ 0 := fun h => hzero (UInt64.toNat_inj.mp h)
    have hhead := head?_toDigits hnat
    generalize Nat.toDigits 10 n.toNat = cs at hdigits hvalue hhead
    cases cs with
    | nil => exact absurd hvalue.symm hnat
    | cons c cs =>
      have hc : c.isDigit = true := hdigits c List.mem_cons_self
      have hne : c ≠ '0' := fun h => hhead (congrArg some h)
      have hsize : Nat.ofDigitChars 10 (c :: cs) 0 < UInt64.size := by
        rw [hvalue]
        exact n.toNat_lt
      have hread := unsigned_digits hdigits hne hsize hrest
      rw [hvalue, UInt64.ofNat_toNat] at hread
      rw [List.map_cons, List.cons_append, number_of_digit (isDigit_digitByte hc)]
      exact hread

end LetterPages.Json
