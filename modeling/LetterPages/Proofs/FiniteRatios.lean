import Mathlib.Algebra.Order.Field.Power
import Mathlib.Algebra.Order.Field.Rat
import Mathlib.Tactic.Linarith
import Mathlib.Tactic.NormNum
import Mathlib.Tactic.Positivity
import Mathlib.Tactic.Ring
import LetterPages.Decimal.Binary64

/-!
# Ratios within the range of 64-bit floats

A ratio has a nearest finite value exactly when it lies below the middle between the largest one and
the power of two that would come next.
-/

namespace LetterPages.Binary64

/-- The middle between the largest finite value and `2 ^ 1024`. -/
def limit : ℚ :=
  (2 ^ 54 - 1) * 2 ^ 970

theorem le_limit : 2 ^ 54 - 1 ≤ limit :=
  le_mul_of_one_le_right (by norm_num) (one_le_pow₀ one_le_two)

theorem one_lt_limit : 1 < limit :=
  lt_of_lt_of_le (by norm_num) le_limit

theorem limit_le : limit ≤ 10 ^ 309 := by
  have hpow : 2 ^ 1024 ≤ 10 ^ 309 := by decide +kernel
  calc limit ≤ 2 ^ 54 * 2 ^ 970 := mul_le_mul_of_nonneg_right (by norm_num) (by positivity)
    _ = ((2 ^ 1024 : Nat) : ℚ) := by rw [← pow_add, Nat.cast_pow, Nat.cast_ofNat]
    _ ≤ 10 ^ 309 := by exact_mod_cast hpow

theorem power_eq (base exponent : Nat) : power base exponent = base ^ exponent :=
  rfl

theorem scaled_ratio (num : Nat) {den : Nat} (hden : 0 < den) (e : Int) :
    0 < (scaled num den e).2 ∧
      ((scaled num den e).1 : ℚ) / (scaled num den e).2 = num / den / 2 ^ e := by
  have hpower : 0 < power 2 e.natAbs := Nat.two_pow_pos _
  unfold scaled
  split
  next he =>
    obtain ⟨k, rfl⟩ : ∃ k : Nat, e = -k := ⟨e.natAbs, by omega⟩
    refine ⟨hden, ?_⟩
    simp only [Int.natAbs_neg, Int.natAbs_natCast, power_eq, Nat.cast_mul, Nat.cast_pow,
      Nat.cast_ofNat, zpow_neg, zpow_natCast, div_inv_eq_mul]
    ring
  next he =>
    obtain ⟨k, rfl⟩ : ∃ k : Nat, e = k := ⟨e.natAbs, by omega⟩
    refine ⟨Nat.mul_pos hden hpower, ?_⟩
    simp only [Int.natAbs_natCast, power_eq, Nat.cast_mul, Nat.cast_pow, Nat.cast_ofNat,
      zpow_natCast, div_div]

theorem exists_top {num den : Nat} (hnum : 0 < num) (hden : 0 < den) :
    ∃ top : Int, placeOf num den = max (top - 52) (-1074) ∧
      (2 : ℚ) ^ top ≤ num / den ∧ (num : ℚ) / den < 2 ^ (top + 1) := by
  have hden' : (0 : ℚ) < den := Nat.cast_pos.mpr hden
  have hnumLow : (2 : ℚ) ^ num.log2 ≤ num := by exact_mod_cast Nat.log2_self_le hnum.ne'
  have hnumHigh : (num : ℚ) < 2 ^ (num.log2 + 1) := by exact_mod_cast Nat.lt_log2_self
  have hdenLow : (2 : ℚ) ^ den.log2 ≤ den := by exact_mod_cast Nat.log2_self_le hden.ne'
  have hdenHigh : (den : ℚ) < 2 ^ (den.log2 + 1) := by exact_mod_cast Nat.lt_log2_self
  generalize hguess : (num.log2 : Int) - den.log2 = guess
  have hlow : (2 : ℚ) ^ (guess - 1) ≤ num / den := by
    rw [← hguess, sub_sub, zpow_sub₀ two_ne_zero]
    exact div_le_div₀ (Nat.cast_nonneg num) (by exact_mod_cast hnumLow) hden'
      (by exact_mod_cast hdenHigh.le)
  have hhigh : (num : ℚ) / den < 2 ^ (guess + 1) := by
    rw [← hguess, sub_add_eq_add_sub, zpow_sub₀ two_ne_zero]
    exact div_lt_div₀ (by exact_mod_cast hnumHigh) (by exact_mod_cast hdenLow) (by positivity)
      (by positivity)
  obtain ⟨hpos, hratio⟩ := scaled_ratio num hden guess
  have hpos' : (0 : ℚ) < (scaled num den guess).2 := Nat.cast_pos.mpr hpos
  have hstep : (2 : ℚ) ^ guess ≤ num / den ↔
      (scaled num den guess).2 ≤ (scaled num den guess).1 := by
    rw [← Nat.cast_le (α := ℚ), ← one_le_div hpos', hratio, one_le_div (by positivity)]
  refine ⟨_, congrArg (fun top => max (top - 52) (-1074)) (if_congr Iff.rfl rfl rfl), ?_⟩
  rw [hguess]
  split
  next hle => exact ⟨hstep.mpr hle, hhigh⟩
  next hlt =>
    refine ⟨hlow, ?_⟩
    rw [sub_add_cancel]
    exact not_le.mp fun hle => hlt (hstep.mp hle)

/-- Rounding goes up to an even bound exactly from the middle of the last step below it. -/
theorem roundDiv_eq_iff {num den bound : Nat} (hden : 0 < den) (heven : bound % 2 = 0)
    (hlt : num < bound * den) : roundDiv num den = bound ↔ (2 * bound - 1) * den ≤ 2 * num := by
  have hsplit := Nat.div_add_mod num den
  have hmod := Nat.mod_lt num hden
  have hdiv : num / den < bound := Nat.div_lt_of_lt_mul (Nat.mul_comm bound den ▸ hlt)
  obtain ⟨below, rfl⟩ := Nat.exists_eq_add_of_le' (Nat.zero_lt_of_lt hdiv)
  have hmiddle : (2 * (below + 1) - 1) * den = 2 * (den * below) + den := by
    rw [show 2 * (below + 1) - 1 = 2 * below + 1 by omega]
    ring
  rw [hmiddle]
  unfold roundDiv
  dsimp only
  rcases Nat.lt_or_eq_of_le (Nat.le_of_lt_succ hdiv) with h | h
  · have hfar : den * (num / den) + den ≤ den * below := by
      rw [← Nat.mul_succ]
      exact Nat.mul_le_mul_left den h
    constructor
    · intro hround
      split at hround <;> [omega; skip]
      split at hround <;> omega
    · intro hle
      omega
  · rw [h] at hsplit ⊢
    split <;> [omega; skip]
    split <;> omega

theorem isSome_ofRatio?_eq {num : Nat} (hnum : 0 < num) (den : Nat) :
    (ofRatio? num den).isSome = true ↔
      if roundDiv (scaled num den (placeOf num den)).1 (scaled num den (placeOf num den)).2 =
          mantissaLimit then placeOf num den ≤ 970 else placeOf num den ≤ 971 := by
  rw [ofRatio?, if_neg hnum.ne']
  dsimp only
  -- A quotient that is rounded up to the limit of the mantissa moves up by one place.
  split <;> split
  all_goals
    simp only [Option.isSome_none, Option.isSome_some, Bool.false_eq_true, false_iff, true_iff]
    omega

/-- In the place of the largest values, a quotient is rounded up to the limit of the mantissa where
the ratio reaches the middle. -/
theorem roundDiv_eq_mantissaLimit_iff {n d : Nat} (hd : 0 < d) (hlt : (n : ℚ) / d < 2 ^ 53) :
    roundDiv n d = mantissaLimit ↔ limit ≤ n / d * 2 ^ 971 := by
  have hd' : (0 : ℚ) < d := Nat.cast_pos.mpr hd
  have hunit : (0 : ℚ) < 2 ^ 970 := by positivity
  have hbound : n < mantissaLimit * d := by
    have hn := (div_lt_iff₀ hd').mp hlt
    exact_mod_cast hn
  have heven : mantissaLimit % 2 = 0 := by decide
  rw [roundDiv_eq_iff hd heven hbound, limit, pow_succ' (2 : ℚ) 970, ← mul_assoc,
    mul_le_mul_iff_left₀ hunit, div_mul_eq_mul_div, le_div_iff₀ hd', mul_comm (n : ℚ) 2,
    ← Nat.cast_le (α := ℚ)]
  norm_num [mantissaLimit, power]

theorem isSome_ofRatio?_iff (num : Nat) {den : Nat} (hden : 0 < den) :
    (ofRatio? num den).isSome = true ↔ (num : ℚ) / den < limit := by
  have hunit : (0 : ℚ) < 2 ^ 970 := by positivity
  rcases Nat.eq_zero_or_pos num with rfl | hnum
  · refine iff_of_true rfl ?_
    rw [Nat.cast_zero, zero_div, limit]
    exact mul_pos (by norm_num) hunit
  have hpow : ∀ k : Nat, (2 : ℚ) ^ ((970 + k : Nat) : Int) = 2 ^ k * 2 ^ 970 := by
    intro k
    rw [zpow_natCast, Nat.add_comm, pow_add]
  obtain ⟨top, hplace, hlow, hhigh⟩ := exists_top hnum hden
  rw [isSome_ofRatio?_eq hnum]
  rcases lt_trichotomy top 1023 with htop | rfl | htop
  · refine iff_of_true (by split <;> omega) (hhigh.trans_le ?_)
    calc (2 : ℚ) ^ (top + 1) ≤ 2 ^ ((970 + 53 : Nat) : Int) :=
          zpow_le_zpow_right₀ one_le_two (by omega)
      _ = 2 ^ 53 * 2 ^ 970 := hpow 53
      _ ≤ limit := mul_le_mul_of_nonneg_right (by norm_num) hunit.le
  · have hplace : placeOf num den = 971 := by omega
    obtain ⟨hpos, hratio⟩ := scaled_ratio num hden (placeOf num den)
    generalize (scaled num den (placeOf num den)).1 = n at *
    generalize (scaled num den (placeOf num den)).2 = d at *
    have hvalue : (num : ℚ) / den = n / d * 2 ^ 971 := by
      rw [hratio, hplace, ← zpow_ofNat, div_mul_cancel₀ _ (zpow_ne_zero 971 two_ne_zero)]
    have hlt : (n : ℚ) / d < 2 ^ 53 := by
      have hbelow : (n : ℚ) / d * 2 ^ 971 < 2 ^ 53 * 2 ^ 971 := by
        rw [← hvalue, ← pow_add]
        exact hhigh
      exact lt_of_mul_lt_mul_right hbelow (by positivity)
    have hround := roundDiv_eq_mantissaLimit_iff hpos hlt
    rw [← hvalue] at hround
    split
    next h => exact iff_of_false (by omega) (not_lt.mpr (hround.mp h))
    next h => exact iff_of_true (by omega) (not_le.mp fun hle => h (hround.mpr hle))
  · refine iff_of_false (by split <;> omega) (not_lt.mpr (le_trans ?_ hlow))
    calc limit ≤ 2 ^ 54 * 2 ^ 970 := mul_le_mul_of_nonneg_right (by norm_num) hunit.le
      _ = 2 ^ ((970 + 54 : Nat) : Int) := (hpow 54).symm
      _ ≤ 2 ^ top := zpow_le_zpow_right₀ one_le_two (by omega)

end LetterPages.Binary64
