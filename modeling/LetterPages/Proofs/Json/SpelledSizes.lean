import LetterPages.Proofs.Json.SpelledValues

/-!
# Spelled sizes

A value is read as a size exactly when it is a plain numeral of a 64-bit word: no sign, no fraction,
no exponent, and not too large. No other number is taken for one.
-/

namespace LetterPages.Json

/-- The numeral of a word. -/
def SpellsSize (w : List Char) (n : UInt64) : Prop :=
  IsWhole w ∧ Nat.ofDigitChars 10 w 0 = n.toNat

/-! ## Fractions -/

/-- A reading that ends in a fraction if it ends at all. -/
def Fractional (outcome : Except Problem (Number × Bytes)) : Prop :=
  ∀ m rest, outcome = .ok (m, rest) → ∃ isNegative x, m = .fraction isNegative x

theorem Fractional.not_natural {outcome : Except Problem (Number × Bytes)} (h : Fractional outcome)
    (n : UInt64) (rest : Bytes) : outcome ≠ .ok (.natural n, rest) := by
  intro heq
  obtain ⟨_, _, hm⟩ := h _ _ heq
  cases hm

theorem exists_of_fraction {isNegative : Bool} {word : Nat} {exponent : Int} {m : Number}
    (h : fraction isNegative word exponent = .ok m) : ∃ x, m = .fraction isNegative x := by
  unfold fraction at h
  split at h
  next => cases h
  next =>
    split at h
    next => cases h
    next x _ =>
      cases h
      exact ⟨x, rfl⟩

section

variable (isNegative : Bool) (word : Nat)

theorem fractional_finish (exponent : Int) (s : Bytes) :
    Fractional (match fraction isNegative word exponent with
      | .error p => Except.error p
      | .ok n => .ok (n, s)) := by
  intro m rest h
  split at h
  next => cases h
  next hfraction =>
    cases h
    obtain ⟨x, hx⟩ := exists_of_fraction hfraction
    exact ⟨isNegative, x, hx⟩

theorem fractional_exponentDigits (start : Int) (downward : Bool) (s : Bytes) :
    Fractional (exponentDigits isNegative word start downward s) := by
  intro m rest h
  unfold exponentDigits at h
  split at h
  next => cases h
  next =>
    obtain ⟨-, h⟩ := of_guard_eq_ok h
    dsimp only at h
    split at h
    next =>
      obtain ⟨-, h⟩ := of_guard_eq_ok h
      cases h
      exact ⟨isNegative, .zero, rfl⟩
    next => exact fractional_finish isNegative word _ _ m rest h

theorem fractional_exponentPart (start : Int) (s : Bytes) :
    Fractional (exponentPart isNegative word start s) := by
  unfold exponentPart
  split <;> exact fractional_exponentDigits isNegative word start _ _

theorem fractional_fractionOrExponent (exponent : Int) (s : Bytes) :
    Fractional (fractionOrExponent isNegative word exponent s) := by
  unfold fractionOrExponent
  dsimp only
  split
  next => exact fractional_finish isNegative word exponent _
  next =>
    split
    next => exact fractional_exponentPart isNegative word exponent _
    next => exact fractional_finish isNegative word exponent _

theorem fractional_fractionPart (exponent : Int) (s : Bytes) :
    Fractional (fractionPart isNegative word exponent s) := by
  intro m rest h
  unfold fractionPart at h
  split at h
  next => cases h
  next =>
    obtain ⟨-, h⟩ := of_guard_eq_ok h
    exact fractional_fractionOrExponent isNegative _ _ _ m rest h

end

/-! ## Whole numbers -/

theorem whole_natural {isNegative : Bool} {word : Nat} {n : UInt64}
    (h : whole isNegative word = .ok (.natural n)) :
    isNegative = false ∧ n = UInt64.ofNat word := by
  unfold whole at h
  split at h
  next hsign =>
    cases h
    exact ⟨hsign, rfl⟩
  next =>
    split at h
    next =>
      obtain ⟨x, hx⟩ := exists_of_fraction h
      cases hx
    next => cases h

/-- A word comes of whole digits that are all gathered, with no sign before them and neither a point
nor an exponent behind. -/
theorem afterWhole_natural {isNegative : Bool} {word left : Nat} {s rest : Bytes} {n : UInt64}
    (h : afterWhole isNegative word left s = .ok (.natural n, rest)) :
    isNegative = false ∧ left = 0 ∧ n = UInt64.ofNat word ∧ rest = s ∧
      ∀ b ∈ s.head?, b ≠ 0x2E ∧ isExponentLetter b = false := by
  -- at the end of the text and in front of any other byte the number is finished alike
  have hfinish : (match if left = 0 then whole isNegative word else fraction isNegative word left
      with
      | .error p => Except.error p
      | .ok n => .ok (n, s)) = .ok (.natural n, rest) →
      isNegative = false ∧ left = 0 ∧ n = UInt64.ofNat word ∧ rest = s := by
    intro h
    split at h
    next => cases h
    next hvalue =>
      cases h
      split at hvalue
      next hleft =>
        obtain ⟨hsign, hn⟩ := whole_natural hvalue
        exact ⟨hsign, hleft, hn, rfl⟩
      next =>
        obtain ⟨x, hx⟩ := exists_of_fraction hvalue
        cases hx
  unfold afterWhole at h
  dsimp only at h
  split at h
  next =>
    obtain ⟨hsign, hleft, hn, hrest⟩ := hfinish h
    exact ⟨hsign, hleft, hn, hrest, fun b hb => by cases hb⟩
  next b r =>
    split at h
    next => exact absurd h ((fractional_fractionPart isNegative word left r).not_natural n rest)
    next hpoint =>
      split at h
      next => exact absurd h ((fractional_exponentPart isNegative word left r).not_natural n rest)
      next hletter =>
        obtain ⟨hsign, hleft, hn, hrest⟩ := hfinish h
        refine ⟨hsign, hleft, hn, hrest, fun x hx => ?_⟩
        cases hx
        exact ⟨hpoint, Bool.not_eq_true _ ▸ hletter⟩

theorem gather_overflow (cs : List Char) (n : Nat) (hn : n < UInt64.size)
    (h : UInt64.size ≤ Nat.ofDigitChars 10 cs n) :
    (gather n (cs.map fun c => c.toNat - 48)).2 ≠ 0 := by
  induction cs generalizing n with
  | nil =>
    rw [Nat.ofDigitChars_nil] at h
    omega
  | cons c cs ih =>
    rw [Nat.ofDigitChars_cons] at h
    have hstep : 10 * n + (c.toNat - '0'.toNat) = n * 10 + (c.toNat - 48) := by
      rw [Nat.mul_comm]
      rfl
    rw [hstep] at h
    rw [List.map_cons, gather]
    split
    next hfits => exact ih _ hfits h
    next => exact Nat.succ_ne_zero _

theorem unsigned_isWhole {w : List Char} (hw : IsWhole w) (isNegative : Bool) {s : Bytes}
    (hs : startsWithDigit s = false) : unsigned isNegative (Utf8.encode w ++ s) =
      afterWhole isNegative (gather 0 (w.map fun c => c.toNat - 48)).1
        (gather 0 (w.map fun c => c.toNat - 48)).2 s := by
  obtain ⟨⟨hne, hdigits⟩, hzero⟩ := hw
  have hrun := digitRun_digits hdigits hs
  rw [encode_digits hdigits]
  cases w with
  | nil => exact absurd rfl hne
  | cons c w =>
    have hc : c.isDigit = true := hdigits c List.mem_cons_self
    rw [List.map_cons, List.cons_append] at hrun ⊢
    rw [unsigned, isDigit_digitByte hc]
    by_cases hbyte : digitByte c = 0x30
    · rw [eq_zero_of_digitByte hc hbyte] at hzero ⊢
      obtain rfl : w = [] := (List.cons.inj (hzero rfl)).2
      rw [List.map_nil, List.nil_append, hs]
      rfl
    · have hskip : skipDigits (w.map digitByte ++ s) = s :=
        skipDigits_digits (fun d hd => hdigits d (List.mem_cons_of_mem c hd)) hs
      rw [if_neg hbyte, hrun, hskip]
      rfl

/-- Where neither a point nor an exponent comes next, none was spelled. -/
theorem nil_of_head {f e : List Char} (hf : IsFraction f) (he : IsExponent e) {rest : Bytes}
    (h : ∀ b ∈ (Utf8.encode (f ++ e) ++ rest).head?, b ≠ 0x2E ∧ isExponentLetter b = false) :
    f = [] ∧ e = [] := by
  cases hf with
  | digits => exact absurd rfl (h 0x2E rfl).1
  | none =>
    cases he with
    | none => exact ⟨rfl, rfl⟩
    | digits hletter =>
      rcases hletter with rfl | rfl
      · exact absurd (h 0x65 rfl).2 (by decide)
      · exact absurd (h 0x45 rfl).2 (by decide)

/-- A number is read as a word exactly when it has no sign, no fraction and no exponent and its
value fits. -/
theorem number_natural_iff {sign w f e : List Char} (hsign : sign = [] ∨ sign = ['-'])
    (hw : IsWhole w) (hf : IsFraction f) (he : IsExponent e) {rest rest' : Bytes}
    (hrest : Ended rest) {n : UInt64} :
    number (Utf8.encode (sign ++ (w ++ (f ++ e))) ++ rest) = .ok (.natural n, rest') ↔
      rest' = rest ∧ sign = [] ∧ f = [] ∧ e = [] ∧ Nat.ofDigitChars 10 w 0 = n.toNat := by
  have hread : ∀ isNegative, unsigned isNegative (Utf8.encode (w ++ (f ++ e)) ++ rest) =
      afterWhole isNegative (gather 0 (w.map fun c => c.toNat - 48)).1
        (gather 0 (w.map fun c => c.toNat - 48)).2 (Utf8.encode (f ++ e) ++ rest) := by
    intro isNegative
    rw [Utf8.encode_append, List.append_assoc]
    exact unsigned_isWhole hw isNegative (hf.head he hrest)
  rcases hsign with rfl | rfl
  · obtain ⟨x, t, hbytes, hx⟩ := encode_isDigits hw.1
    have hnumber : number (Utf8.encode (w ++ (f ++ e)) ++ rest) =
        unsigned false (Utf8.encode (w ++ (f ++ e)) ++ rest) := by
      rw [Utf8.encode_append, hbytes]
      exact number_of_digit hx _
    rw [List.nil_append, hnumber, hread]
    constructor
    · intro h
      obtain ⟨-, hleft, hn, hs, hhead⟩ := afterWhole_natural h
      obtain ⟨rfl, rfl⟩ := nil_of_head hf he hhead
      -- a larger value would leave digits over
      have hsize : Nat.ofDigitChars 10 w 0 < UInt64.size := by
        rcases Nat.lt_or_ge (Nat.ofDigitChars 10 w 0) UInt64.size with hsize | hlarge
        · exact hsize
        · exact absurd hleft (gather_overflow w 0 (by decide) hlarge)
      rw [gather_digits w 0 hsize] at hn
      exact ⟨hs, rfl, rfl, rfl, by rw [hn, UInt64.toNat_ofNat_of_lt' hsize]⟩
    · rintro ⟨rfl, -, rfl, rfl, hvalue⟩
      have hsize : Nat.ofDigitChars 10 w 0 < UInt64.size := hvalue ▸ n.toNat_lt
      rw [gather_digits w 0 hsize, hvalue]
      exact (afterWhole_ended n.toNat hrest).trans (by rw [UInt64.ofNat_toNat])
  · have hnumber : number (Utf8.encode (['-'] ++ (w ++ (f ++ e))) ++ rest) =
        unsigned true (Utf8.encode (w ++ (f ++ e)) ++ rest) := rfl
    rw [hnumber, hread]
    constructor
    · intro h
      exact absurd (afterWhole_natural h).1 (by decide)
    · rintro ⟨-, hsign, -⟩
      cases hsign

/-! ## Sizes -/

theorem spellsSize_iff {sign w f e : List Char} (hsign : sign = [] ∨ sign = ['-'])
    (hw : IsWhole w) (hf : IsFraction f) (he : IsExponent e) {n : UInt64} :
    SpellsSize (sign ++ (w ++ (f ++ e))) n ↔
      sign = [] ∧ f = [] ∧ e = [] ∧ Nat.ofDigitChars 10 w 0 = n.toNat := by
  constructor
  · rintro ⟨⟨⟨-, hdigits⟩, -⟩, hvalue⟩
    have hno : ∀ c, c.isDigit = false → c ∉ sign ++ (w ++ (f ++ e)) := by
      intro c hc hmem
      rw [hdigits c hmem] at hc
      cases hc
    obtain rfl : sign = [] := by
      rcases hsign with rfl | rfl
      · rfl
      · exact absurd (by simp) (hno '-' rfl)
    obtain rfl : f = [] := by
      cases hf with
      | none => rfl
      | digits => exact absurd (by simp) (hno '.' rfl)
    obtain rfl : e = [] := by
      cases he with
      | none => rfl
      | digits hletter =>
        rcases hletter with rfl | rfl
        · exact absurd (by simp) (hno 'e' rfl)
        · exact absurd (by simp) (hno 'E' rfl)
    rw [List.nil_append, List.append_nil, List.append_nil] at hvalue
    exact ⟨rfl, rfl, rfl, hvalue⟩
  · rintro ⟨rfl, rfl, rfl, hvalue⟩
    rw [List.nil_append, List.append_nil, List.append_nil]
    exact ⟨hw, hvalue⟩

theorem sizeFrom_eq_ok_iff {b : UInt8} {r rest : Bytes} {n : UInt64} :
    sizeFrom b r = .ok (n, rest) ↔
      (b = 0x2D ∨ isDigit b = true) ∧ number (b :: r) = .ok (.natural n, rest) := by
  unfold sizeFrom
  constructor
  · intro h
    split at h
    next hb =>
      split at h
      next => cases h
      next hnumber =>
        cases h
        exact ⟨hb, hnumber⟩
      next => cases h
      next => cases h
    next => cases h
  · rintro ⟨hb, hnumber⟩
    rw [if_pos hb, hnumber]

/-- What a reader makes of a value is told from the value alone, and it is read to its end. -/
def ReadsValues {α : Type} (reader : Reader α) (spells : List Char → α → Prop) : Prop :=
  ∀ {b w : List Char} {rest rest' : Bytes} {a : α}, IsBlanks b → IsValue w → Ended rest →
    (reader.run (Utf8.encode (b ++ w) ++ rest) = .ok (a, rest') ↔ rest' = rest ∧ spells w a)

theorem size_run {b : List Char} (hb : IsBlanks b) {x : UInt8} (hx : isBlank x = false)
    (t : Bytes) : size.run (Utf8.encode b ++ x :: t) = sizeFrom x t := by
  have hrun : size.run = firstOf sizeFrom := rfl
  rw [hrun, firstOf, skipBlanks_append hb hx]

theorem isNumber_or_opening {w : List Char} (h : IsValue w) :
    IsNumber w ∨ ∃ x t, Utf8.encode w = x :: t ∧ ¬ (x = 0x2D ∨ isDigit x = true) := by
  cases h with
  | number h => exact .inl h
  | word h =>
    simp only [List.mem_cons, List.not_mem_nil, or_false] at h
    rcases h with rfl | rfl | rfl
    · exact .inr ⟨0x6E, _, rfl, by decide⟩
    · exact .inr ⟨0x74, _, rfl, by decide⟩
    · exact .inr ⟨0x66, _, rfl, by decide⟩
  | string => exact .inr ⟨0x22, _, rfl, by decide⟩
  | @nested frame s =>
    refine .inr ⟨frame.opening, _, frame.encode_left _, ?_⟩
    cases frame <;> decide

/-- A size is read exactly where a numeral of its word stands for the value. -/
theorem size_reads : ReadsValues size SpellsSize := by
  intro b w rest rest' n hb hw hrest
  obtain ⟨x, t, hbytes, hx⟩ := hw.opening
  rw [Utf8.encode_append, List.append_assoc, hbytes, List.cons_append, size_run hb hx.1,
    sizeFrom_eq_ok_iff, ← List.cons_append, ← hbytes]
  rcases isNumber_or_opening hw with hnumber | ⟨y, r, hbytes', hy⟩
  · obtain ⟨hsign, hwhole, hf, he⟩ := hnumber
    rw [number_natural_iff hsign hwhole hf he hrest, spellsSize_iff hsign hwhole hf he]
    refine and_iff_right ?_
    rcases hsign with rfl | rfl
    · obtain ⟨y, r, hbytes', hy⟩ := encode_isDigits hwhole.1
      rw [List.nil_append, Utf8.encode_append, hbytes'] at hbytes
      rw [← (List.cons.inj hbytes).1]
      exact .inr hy
    · exact .inl (List.cons.inj hbytes).1.symm
  · rw [hbytes] at hbytes'
    obtain ⟨rfl, -⟩ := List.cons.inj hbytes'
    constructor
    · exact fun h => absurd h.1 hy
    · rintro ⟨-, hwhole, -⟩
      obtain ⟨z, r, hdigits, hz⟩ := encode_isDigits hwhole.1
      rw [hbytes] at hdigits
      rw [← (List.cons.inj hdigits).1] at hz
      exact absurd (.inr hz) hy

end LetterPages.Json
