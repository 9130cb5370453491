import Mathlib.Algebra.Order.Field.Power
import Mathlib.Algebra.Order.Ring.Rat
import Mathlib.Tactic.Ring
import MotionScript.Number.Decimal
/-!
# Rounding of exact values

A number is the only one its own value rounds to: reading the exact value of a finite number, in
whichever way it is written as a quotient, gives the number back.
-/

namespace MotionScript

/-! ## Powers of two -/

theorem two_zpow_toNat (x : ℤ) : (2 : ℚ) ^ x.toNat = 2 ^ x * 2 ^ (-x).toNat := by
  rcases le_total 0 x with h | h
  · rw [Int.toNat_of_nonpos (Int.neg_nonpos_of_nonneg h), pow_zero, mul_one, ← zpow_natCast,
      Int.toNat_of_nonneg h]
  · rw [Int.toNat_of_nonpos h, pow_zero, ← zpow_natCast,
      Int.toNat_of_nonneg (Int.neg_nonneg_of_nonpos h), ← zpow_add₀ two_ne_zero]
    simp

/-- A comparison up to a power of two, without negative exponents. -/
theorem mul_two_zpow_le {num den : ℕ} {x : ℤ} :
    den * 2 ^ x.toNat ≤ num * 2 ^ (-x).toNat ↔ (den : ℚ) * 2 ^ x ≤ num := by
  have hpos : (0 : ℚ) < 2 ^ (-x).toNat := pow_pos two_pos _
  rw [← Nat.cast_le (α := ℚ)]
  push_cast
  rw [two_zpow_toNat, ← mul_assoc]
  exact mul_le_mul_iff_of_pos_right hpos

theorem mul_two_zpow_eq {num den n : ℕ} {x : ℤ} (h : (num : ℚ) = n * den * 2 ^ x) :
    num * 2 ^ (-x).toNat = n * (den * 2 ^ x.toNat) := by
  rw [← Nat.cast_inj (R := ℚ)]
  push_cast
  rw [h, two_zpow_toNat x]
  ring

/-! ## The order of a quotient -/

/-- Whether the quotient `num / den` lies between `2 ^ t` and `2 ^ (t + 1)`. -/
structure HasOrder (num den : ℕ) (t : ℤ) : Prop where
  low : (den : ℚ) * 2 ^ t ≤ num
  high : (num : ℚ) < den * 2 ^ (t + 1)

namespace HasOrder

variable {num den : ℕ} {t : ℤ}

theorem den_pos (h : HasOrder num den t) : (0 : ℚ) < den := by
  rcases Nat.eq_zero_or_pos den with rfl | hd
  · exact absurd h.high (not_lt.2 (by simp))
  · exact Nat.cast_pos.2 hd

/-- A power of two below the quotient is at most its order. -/
theorem le_order (h : HasOrder num den t) {x : ℤ} (hx : (den : ℚ) * 2 ^ x ≤ num) : x ≤ t := by
  have hlt : (2 : ℚ) ^ x < 2 ^ (t + 1) :=
    lt_of_mul_lt_mul_left (hx.trans_lt h.high) h.den_pos.le
  exact Int.lt_add_one_iff.1 ((zpow_lt_zpow_iff_right₀ one_lt_two).1 hlt)

/-- A power of two above the quotient is above its order. -/
theorem order_lt (h : HasOrder num den t) {x : ℤ} (hx : (num : ℚ) < den * 2 ^ x) : t < x := by
  have hlt : (2 : ℚ) ^ t < 2 ^ x :=
    lt_of_mul_lt_mul_left (h.low.trans_lt hx) h.den_pos.le
  exact (zpow_lt_zpow_iff_right₀ one_lt_two).1 hlt

/-- The logarithms of both parts give the order up to one. -/
theorem log2_bounds {num den : ℕ} (hn : num ≠ 0) (hd : den ≠ 0) :
    (den : ℚ) * 2 ^ ((num.log2 : ℤ) - den.log2 - 1) ≤ num ∧
      (num : ℚ) < den * 2 ^ ((num.log2 : ℤ) - den.log2 + 1) := by
  have two_ne : (2 : ℚ) ≠ 0 := two_ne_zero
  have hn1 : (2 : ℚ) ^ (num.log2 : ℤ) ≤ num := by
    rw [zpow_natCast]; exact_mod_cast Nat.log2_self_le hn
  have hn2 : (num : ℚ) < 2 ^ ((num.log2 : ℤ) + 1) := by
    have := Nat.lt_log2_self (n := num)
    rw [← Nat.cast_succ, zpow_natCast]; exact_mod_cast this
  have hd1 : (2 : ℚ) ^ (den.log2 : ℤ) ≤ den := by
    rw [zpow_natCast]; exact_mod_cast Nat.log2_self_le hd
  have hd2 : (den : ℚ) < 2 ^ ((den.log2 : ℤ) + 1) := by
    have := Nat.lt_log2_self (n := den)
    rw [← Nat.cast_succ, zpow_natCast]; exact_mod_cast this
  constructor
  · calc (den : ℚ) * 2 ^ ((num.log2 : ℤ) - den.log2 - 1)
        ≤ 2 ^ ((den.log2 : ℤ) + 1) * 2 ^ ((num.log2 : ℤ) - den.log2 - 1) :=
          mul_le_mul_of_nonneg_right hd2.le (by positivity)
      _ = 2 ^ (num.log2 : ℤ) := by rw [← zpow_add₀ two_ne]; congr 1; ring
      _ ≤ num := hn1
  · calc (num : ℚ) < 2 ^ ((num.log2 : ℤ) + 1) := hn2
      _ = 2 ^ (den.log2 : ℤ) * 2 ^ ((num.log2 : ℤ) - den.log2 + 1) := by
          rw [← zpow_add₀ two_ne]; congr 1; ring
      _ ≤ den * 2 ^ ((num.log2 : ℤ) - den.log2 + 1) :=
          mul_le_mul_of_nonneg_right hd1 (by positivity)

end HasOrder

/-! ## Rounding -/

theorem roundHalfEven_mul (n : ℕ) {den : ℕ} (hd : 0 < den) : roundHalfEven (n * den) den = n := by
  simp [roundHalfEven, hd]

namespace Format

variable {f : Format}

theorem unitExponent_eq {num den : ℕ} {t : ℤ} (h : HasOrder num den t) :
    f.unitExponent num den = max f.minExponent (t - f.precision + 1) := by
  have hd : den ≠ 0 := fun h0 => by simpa [h0] using h.den_pos
  have hn : num ≠ 0 := by
    intro h0
    have := h.low
    rw [h0, Nat.cast_zero] at this
    exact absurd this (not_le.2 (mul_pos h.den_pos (by positivity)))
  obtain ⟨hlow, hhigh⟩ := HasOrder.log2_bounds hn hd
  have h1 := h.le_order hlow
  have h2 := h.order_lt hhigh
  simp only [unitExponent, decide_eq_true_eq, mul_two_zpow_le]
  congr 2
  split
  · rename_i hr
    have := h.le_order hr
    omega
  · rename_i hr
    have := h.order_lt (not_le.1 hr)
    omega

variable (hp : 1 ≤ f.precision)

theorem binade_pos : 0 < f.binade := Nat.two_pow_pos _

/-- The significand of a normalised number starts with a one. -/
theorem significand_of_binade_le {code : ℕ} (h : f.binade ≤ code) :
    f.significand code = f.binade + code % f.binade := if_neg (Nat.not_lt.2 h)

/-- A number is put together from its exponent and its significand. -/
theorem code_eq (code : ℕ) :
    (f.exponent code - f.minExponent).toNat * f.binade + f.significand code = code := by
  have hb := f.binade_pos
  simp only [exponent, add_sub_cancel_left, Int.toNat_natCast]
  rcases Nat.lt_or_ge code f.binade with h | h
  · simp [significand, h, Nat.div_eq_of_lt h]
  · rw [significand_of_binade_le h]
    have hq : 1 ≤ code / f.binade := (Nat.one_le_div_iff hb).2 h
    obtain ⟨q, hq⟩ := Nat.exists_eq_add_of_le hq
    have hdiv := Nat.div_add_mod code f.binade
    rw [hq] at hdiv ⊢
    rw [Nat.add_sub_cancel_left]
    calc q * f.binade + (f.binade + code % f.binade)
        = f.binade * (1 + q) + code % f.binade := by ring
      _ = code := hdiv

include hp in
/-- The unit of rounding is the exponent of the number. -/
theorem exponent_eq {code : ℕ} (hc : code ≠ 0) :
    max f.minExponent (((f.significand code).log2 : ℤ) + f.exponent code - f.precision + 1) =
      f.exponent code := by
  have hb := f.binade_pos
  rcases Nat.lt_or_ge code f.binade with h | h
  · have hs : f.significand code = code := if_pos h
    have he : f.exponent code = f.minExponent := by simp [exponent, Nat.div_eq_of_lt h]
    have hlog : code.log2 < f.precision - 1 := (Nat.log2_lt hc).2 h
    rw [hs, he]
    omega
  · rw [significand_of_binade_le h]
    have hmod := Nat.mod_lt code hb
    have hlog : (f.binade + code % f.binade).log2 = f.precision - 1 := by
      refine (Nat.log2_eq_iff (by omega)).2 ⟨Nat.le_add_right _ _, ?_⟩
      rw [Nat.pow_succ]
      exact Nat.lt_of_lt_of_eq (Nat.add_lt_add_left hmod _) (by rw [binade]; omega)
    have he : f.minExponent ≤ f.exponent code := by simp [exponent]
    rw [hlog]
    omega

include hp in
/-- The value of a number, written as any quotient, rounds to the number. -/
theorem round_value {code num den : ℕ} (hc : code < f.infinity) (hd : den ≠ 0)
    (h : (num : ℚ) = f.significand code * den * 2 ^ f.exponent code) : f.round num den = code := by
  have hden : (0 : ℚ) < den := Nat.cast_pos.2 (Nat.pos_of_ne_zero hd)
  rcases Nat.eq_zero_or_pos (f.significand code) with hs | hs
  · have hzero : code = 0 := by
      unfold significand at hs
      have := f.binade_pos
      split at hs <;> omega
    have hn : num = 0 := by
      rw [hs] at h
      simpa using h
    rw [round, if_pos hn, hzero]
  · have hcode : code ≠ 0 := by
      rintro rfl
      simp [significand, f.binade_pos] at hs
    have hn : num ≠ 0 := by
      rintro rfl
      have : (0 : ℚ) < f.significand code * den * 2 ^ f.exponent code :=
        mul_pos (mul_pos (Nat.cast_pos.2 hs) hden) (zpow_pos two_pos _)
      simp [← h] at this
    have horder : HasOrder num den (((f.significand code).log2 : ℤ) + f.exponent code) := by
      have hs0 : f.significand code ≠ 0 := Nat.pos_iff_ne_zero.1 hs
      have h1 : (2 : ℚ) ^ ((f.significand code).log2 : ℤ) ≤ f.significand code := by
        rw [zpow_natCast]; exact_mod_cast Nat.log2_self_le hs0
      have h2 : (f.significand code : ℚ) < 2 ^ (((f.significand code).log2 : ℤ) + 1) := by
        rw [← Nat.cast_succ, zpow_natCast]; exact_mod_cast Nat.lt_log2_self
      have hpow : (0 : ℚ) < den * 2 ^ f.exponent code := mul_pos hden (zpow_pos two_pos _)
      refine ⟨?_, ?_⟩
      · rw [h, zpow_add₀ two_ne_zero]
        calc (den : ℚ) * (2 ^ ((f.significand code).log2 : ℤ) * 2 ^ f.exponent code)
            = 2 ^ ((f.significand code).log2 : ℤ) * (den * 2 ^ f.exponent code) := by ring
          _ ≤ f.significand code * (den * 2 ^ f.exponent code) :=
              mul_le_mul_of_nonneg_right h1 hpow.le
          _ = _ := by ring
      · rw [h, add_right_comm, zpow_add₀ two_ne_zero]
        calc (f.significand code : ℚ) * den * 2 ^ f.exponent code
            = f.significand code * (den * 2 ^ f.exponent code) := by ring
          _ < 2 ^ (((f.significand code).log2 : ℤ) + 1) * (den * 2 ^ f.exponent code) :=
              mul_lt_mul_of_pos_right h2 hpow
          _ = _ := by ring
    have hunit : f.unitExponent num den = f.exponent code := by
      rw [unitExponent_eq horder, exponent_eq hp hcode]
    rw [round, if_neg hn]
    simp only [hunit]
    rw [mul_two_zpow_eq h, roundHalfEven_mul _ (Nat.mul_pos (Nat.pos_of_ne_zero hd)
      (Nat.two_pow_pos _)), code_eq, Nat.min_eq_right hc.le]

end Format

end MotionScript
