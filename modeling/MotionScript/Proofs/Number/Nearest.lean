import Mathlib.Tactic.Linarith
import Mathlib.Tactic.NormNum.Pow
import MotionScript.Proofs.Number.Rounding
/-!
# Nearest numbers

What is rounded becomes a number of the format that no other one is nearer to. So a quotient that is
the value of a number rounds to a number of that value, and a decimal that is read is off by as little
as the format allows.
-/

namespace MotionScript

/-! ## Whole quotients -/

/-- The distance to a whole quotient is at most one half. -/
theorem abs_sub_roundHalfEven_le (num : ℕ) {den : ℕ} (hd : 0 < den) :
    |(num : ℚ) / den - roundHalfEven num den| ≤ 1 / 2 := by
  have hpos : (0 : ℚ) < den := Nat.cast_pos.2 hd
  have hsplit : (num : ℚ) / den = (num / den : ℕ) + (num % den : ℕ) / den := by
    rw [div_eq_iff hpos.ne', add_mul, div_mul_cancel₀ _ hpos.ne']
    exact_mod_cast (Nat.div_add_mod' num den).symm
  have hlow : (0 : ℚ) ≤ (num % den : ℕ) / den := div_nonneg (Nat.cast_nonneg _) hpos.le
  have hhigh : ((num % den : ℕ) : ℚ) / den < 1 := by
    rw [div_lt_one₀ hpos]
    exact_mod_cast Nat.mod_lt num hd
  have hhalf : 2 * (num % den) ≤ den ↔ ((num % den : ℕ) : ℚ) / den ≤ 1 / 2 := by
    rw [div_le_div_iff₀ hpos two_pos, one_mul, mul_comm]
    exact_mod_cast Iff.rfl
  have hhalf' : den ≤ 2 * (num % den) ↔ 1 / 2 ≤ ((num % den : ℕ) : ℚ) / den := by
    rw [div_le_div_iff₀ two_pos hpos, one_mul, mul_comm _ (2 : ℚ)]
    exact_mod_cast Iff.rfl
  rw [hsplit, abs_le]
  unfold roundHalfEven
  dsimp only
  split
  · rename_i h
    have := hhalf.1 h.le
    constructor <;> linarith
  · split
    · rename_i h
      have := hhalf'.1 h.le
      push_cast
      constructor <;> linarith
    · rename_i h h'
      have h1 := hhalf.1 (not_lt.1 h')
      have h2 := hhalf'.1 (not_lt.1 h)
      rcases Nat.mod_two_eq_zero_or_one (num / den) with hparity | hparity <;> rw [hparity] <;>
        push_cast <;> constructor <;> linarith

theorem div_eq_natCast_iff {num den n : ℕ} (hd : den ≠ 0) :
    (num : ℚ) / den = n ↔ num % den = 0 ∧ num / den = n := by
  have hpos : (0 : ℚ) < den := Nat.cast_pos.2 (Nat.pos_of_ne_zero hd)
  rw [div_eq_iff hpos.ne']
  constructor
  · intro h
    have h : num = n * den := by exact_mod_cast h
    exact ⟨by simp [h], by rw [h, Nat.mul_div_cancel _ (Nat.pos_of_ne_zero hd)]⟩
  · rintro ⟨hmod, rfl⟩
    exact_mod_cast (Nat.div_mul_cancel (Nat.dvd_of_mod_eq_zero hmod)).symm

/-- No natural number is nearer to a quotient than the one it is rounded to. -/
theorem abs_sub_roundHalfEven_le_abs_sub (num : ℕ) {den : ℕ} (hd : 0 < den) (n : ℕ) :
    |(num : ℚ) / den - roundHalfEven num den| ≤ |(num : ℚ) / den - n| := by
  have herror := abs_sub_roundHalfEven_le num hd
  by_cases hn : roundHalfEven num den = n
  · rw [hn]
  · have hapart : (1 : ℚ) ≤ |(roundHalfEven num den : ℚ) - n| := by
      have hint : (1 : ℤ) ≤ |(roundHalfEven num den : ℤ) - n| :=
        Int.one_le_abs (sub_ne_zero.2 (by exact_mod_cast hn))
      exact_mod_cast hint
    have htriangle := abs_sub_le (roundHalfEven num den : ℚ) ((num : ℚ) / den) n
    rw [abs_sub_comm _ ((num : ℚ) / den)] at htriangle
    linarith

theorem roundHalfEven_le {num den n : ℕ} (hd : 0 < den) (h : (num : ℚ) / den ≤ n) :
    roundHalfEven num den ≤ n := by
  have hnearest := abs_sub_roundHalfEven_le_abs_sub num hd n
  rw [abs_of_nonpos (sub_nonpos.2 h)] at hnearest
  have hdistance := neg_abs_le ((num : ℚ) / den - roundHalfEven num den)
  exact_mod_cast (by linarith : (roundHalfEven num den : ℚ) ≤ n)

theorem le_roundHalfEven {num den n : ℕ} (hd : 0 < den) (h : (n : ℚ) ≤ num / den) :
    n ≤ roundHalfEven num den := by
  have hnearest := abs_sub_roundHalfEven_le_abs_sub num hd n
  rw [abs_of_nonneg (sub_nonneg.2 h)] at hnearest
  have hdistance := le_abs_self ((num : ℚ) / den - roundHalfEven num den)
  exact_mod_cast (by linarith : (n : ℚ) ≤ roundHalfEven num den)

namespace HasOrder

/-- Every positive quotient lies between two neighbouring powers of two. -/
theorem exists_order {num den : ℕ} (hn : num ≠ 0) (hd : den ≠ 0) : ∃ t, HasOrder num den t := by
  obtain ⟨hlow, hhigh⟩ := log2_bounds hn hd
  by_cases h : (den : ℚ) * 2 ^ ((num.log2 : ℤ) - den.log2) ≤ num
  · exact ⟨_, h, hhigh⟩
  · exact ⟨_, hlow, by rw [sub_add_cancel]; exact not_le.1 h⟩

end HasOrder

/-! ## Values -/

namespace Format

variable {f : Format}

/-- The number that a code stands for. -/
def value (f : Format) (code : ℕ) : ℚ := f.significand code * 2 ^ f.exponent code

theorem value_nonneg (code : ℕ) : 0 ≤ f.value code := by
  unfold value
  positivity

@[simp]
theorem value_zero : f.value 0 = 0 := by simp [value, significand, f.binade_pos]

theorem significand_lt (code : ℕ) : f.significand code < 2 * f.binade := by
  have hb := f.binade_pos
  have hmod := Nat.mod_lt code hb
  unfold significand
  split <;> omega

theorem minExponent_le (code : ℕ) : f.minExponent ≤ f.exponent code := by simp [exponent]

/-- The value that is put together from a unit and a significand that fills it. -/
theorem value_add {k s : ℕ} (hs : s ≤ 2 * f.binade) (hk : k = 0 ∨ f.binade ≤ s) :
    f.value (k * f.binade + s) = s * 2 ^ (f.minExponent + k) := by
  have hb := f.binade_pos
  -- A significand of one binade more than fits belongs to the next unit.
  rcases hs.lt_or_eq with hlt | rfl
  · rcases Nat.lt_or_ge s f.binade with h | h
    · obtain rfl : k = 0 := hk.resolve_right (Nat.not_le.2 h)
      simp [value, significand, exponent, h, Nat.div_eq_of_lt h]
    · have hdiv : (k * f.binade + s) / f.binade = k + 1 := by
        rw [Nat.mul_comm, Nat.mul_add_div hb]
        congr 1
        exact Nat.div_eq_of_lt_le (by omega) (by omega)
      have hmod : (k * f.binade + s) % f.binade = s - f.binade := by
        rw [Nat.mul_comm, Nat.mul_add_mod, Nat.mod_eq_sub_mod h, Nat.mod_eq_of_lt (by omega)]
      have hle : f.binade ≤ k * f.binade + s := by omega
      rw [value, significand_of_binade_le hle, exponent, hdiv, hmod, Nat.add_sub_cancel,
        Nat.add_sub_cancel' h]
  · have hcode : k * f.binade + 2 * f.binade = (k + 2) * f.binade := by ring
    have hle : f.binade ≤ (k + 2) * f.binade := Nat.le_mul_of_pos_left _ (by omega)
    rw [hcode, value, significand_of_binade_le hle, exponent, Nat.mul_div_cancel _ hb,
      Nat.mul_mod_left, Nat.add_zero, show k + 2 - 1 = k + 1 from rfl]
    push_cast
    rw [← add_assoc, zpow_add_one₀ two_ne_zero]
    ring

/-- The unit that a quotient is rounded in, and what the quotient is in that unit. -/
theorem exists_unit (hp : 1 ≤ f.precision) {num den : ℕ} (hn : num ≠ 0) (hd : den ≠ 0) :
    ∃ k a b : ℕ, 0 < b ∧ (num : ℚ) / den = a / b * 2 ^ (f.minExponent + k) ∧
      f.round num den = min f.infinity (k * f.binade + roundHalfEven a b) ∧
      (a : ℚ) / b ≤ (2 * f.binade : ℕ) ∧ (k = 0 ∨ (f.binade : ℚ) ≤ a / b) := by
  obtain ⟨t, ht⟩ := HasOrder.exists_order hn hd
  have hunit := unitExponent_eq (f := f) ht
  obtain ⟨k, hk⟩ : ∃ k : ℕ, f.unitExponent num den = f.minExponent + k :=
    ⟨(f.unitExponent num den - f.minExponent).toNat, by omega⟩
  have hround : f.round num den = min f.infinity (k * f.binade +
      roundHalfEven (num * 2 ^ (-(f.minExponent + k)).toNat)
        (den * 2 ^ (f.minExponent + k : ℤ).toNat)) := by
    rw [round, if_neg hn, hk]
    simp only [add_sub_cancel_left, Int.toNat_natCast]
  rw [hk] at hunit
  clear hk
  generalize hu : f.minExponent + (k : ℤ) = u at hround hunit ⊢
  have hden : (0 : ℚ) < den := ht.den_pos
  have hpow : (0 : ℚ) < 2 ^ u := zpow_pos two_pos u
  have hbinade : (f.binade : ℚ) * 2 ^ u = 2 ^ (f.precision - 1 + u : ℤ) := by
    rw [zpow_add₀ two_ne_zero, binade, ← Int.ofNat_one, ← Int.ofNat_sub hp, zpow_natCast]
    push_cast
    rfl
  have hquotient : ((num * 2 ^ (-u).toNat : ℕ) : ℚ) / (den * 2 ^ u.toNat : ℕ) =
      num / den / 2 ^ u := by
    have hne : (2 : ℚ) ^ (-u).toNat ≠ 0 := pow_ne_zero _ two_ne_zero
    push_cast
    rw [two_zpow_toNat u, ← mul_assoc, mul_div_mul_right _ _ hne, div_div]
  refine ⟨k, num * 2 ^ (-u).toNat, den * 2 ^ u.toNat,
    Nat.mul_pos (Nat.pos_of_ne_zero hd) (Nat.two_pow_pos _), ?_, hround, ?_, ?_⟩
  · rw [hquotient, hu, div_mul_cancel₀ _ hpow.ne']
  · have hnext : ((2 * f.binade : ℕ) : ℚ) * 2 ^ u = 2 ^ (f.precision + u : ℤ) := by
      rw [Nat.cast_mul, Nat.cast_two, mul_assoc, hbinade, ← zpow_one_add₀ two_ne_zero]
      congr 1
      ring
    rw [hquotient, div_le_iff₀ hpow, div_le_iff₀ hden, hnext, mul_comm]
    exact ht.high.le.trans
      (mul_le_mul_of_nonneg_left (zpow_le_zpow_right₀ one_le_two (by omega)) hden.le)
  · rcases Nat.eq_zero_or_pos k with hk | hk
    · exact .inl hk
    · right
      rw [hquotient, le_div_iff₀ hpow, le_div_iff₀ hden, hbinade, mul_comm,
        show (f.precision - 1 + u : ℤ) = t by omega]
      exact ht.low

/-- No number is nearer to a quotient than the one that it is rounded to. -/
theorem abs_sub_round_le (hp : 1 ≤ f.precision) {num den : ℕ} (hd : den ≠ 0)
    (hfinite : f.round num den < f.infinity) (code : ℕ) :
    |(num : ℚ) / den - f.value (f.round num den)| ≤ |(num : ℚ) / den - f.value code| := by
  by_cases hn : num = 0
  · simp [round, hn]
  obtain ⟨k, a, b, hb, hquotient, hround, hhigh, hlow⟩ := exists_unit hp hn hd
  have hb' : (0 : ℚ) < b := Nat.cast_pos.2 hb
  have hpow : (0 : ℚ) < 2 ^ (f.minExponent + k) := zpow_pos two_pos _
  have hnearest := abs_sub_roundHalfEven_le_abs_sub a hb
  -- The significand lies between bounds between which the quotient lies.
  have hs := roundHalfEven_le hb hhigh
  have hk := hlow.imp_right (le_roundHalfEven hb)
  have hvalue : f.value (f.round num den) = roundHalfEven a b * 2 ^ (f.minExponent + k) := by
    rw [hround] at hfinite ⊢
    rw [Nat.min_eq_right (by omega), value_add hs hk]
  have hscale (n : ℕ) : |(num : ℚ) / den - n * 2 ^ (f.minExponent + k)| =
      |(a : ℚ) / b - n| * 2 ^ (f.minExponent + k) := by
    rw [hquotient, ← sub_mul, abs_mul, abs_of_pos hpow]
  rw [hvalue, hscale]
  by_cases he : f.minExponent + k ≤ f.exponent code
  · -- The other number is a multiple of the unit.
    obtain ⟨j, hj⟩ : ∃ j : ℕ, f.exponent code = j + (f.minExponent + k) :=
      ⟨(f.exponent code - (f.minExponent + k)).toNat, by omega⟩
    have hcode : f.value code = (f.significand code * 2 ^ j : ℕ) * 2 ^ (f.minExponent + k) := by
      rw [value, hj, zpow_add₀ two_ne_zero, zpow_natCast]
      push_cast
      ring
    rw [hcode, hscale]
    exact mul_le_mul_of_nonneg_right (hnearest _) hpow.le
  · -- The other number is below the binade of the quotient, which starts with a multiple of the unit.
    have hmin := f.minExponent_le code
    have hbinade : (f.binade : ℚ) ≤ a / b := hlow.resolve_left (by omega)
    have hcode : f.value code ≤ f.binade * 2 ^ (f.minExponent + k) := by
      calc f.value code ≤ (2 * f.binade : ℕ) * 2 ^ f.exponent code :=
            mul_le_mul_of_nonneg_right (Nat.cast_le.2 (f.significand_lt code).le) (by positivity)
        _ = f.binade * 2 ^ (f.exponent code + 1) := by
            rw [zpow_add_one₀ two_ne_zero]
            push_cast
            ring
        _ ≤ f.binade * 2 ^ (f.minExponent + k) :=
            mul_le_mul_of_nonneg_left (zpow_le_zpow_right₀ one_le_two (by omega)) (Nat.cast_nonneg _)
    calc |(a : ℚ) / b - roundHalfEven a b| * 2 ^ (f.minExponent + k)
        ≤ |(a : ℚ) / b - f.binade| * 2 ^ (f.minExponent + k) :=
          mul_le_mul_of_nonneg_right (hnearest _) hpow.le
      _ = num / den - f.binade * 2 ^ (f.minExponent + k) := by
          rw [abs_of_nonneg (sub_nonneg.2 hbinade), sub_mul, hquotient]
      _ ≤ num / den - f.value code := sub_le_sub_left hcode _
      _ ≤ |num / den - f.value code| := le_abs_self _

/-- A quotient that lies a binade below the greatest numbers does not overflow. -/
theorem round_lt_infinity (hp : 1 ≤ f.precision) {num den k : ℕ} (hd : den ≠ 0)
    (h : (num : ℚ) / den < f.value (k * f.binade + f.binade))
    (hk : (k + 2) * f.binade < f.infinity) : f.round num den < f.infinity := by
  have hb := f.binade_pos
  by_cases hn : num = 0
  · simp only [round, hn, if_true]
    omega
  obtain ⟨j, a, b, hden, hquotient, hround, hhigh, hlow⟩ := exists_unit hp hn hd
  have hs := roundHalfEven_le hden hhigh
  have hj : j ≤ k := by
    rcases hlow with rfl | hlow
    · exact Nat.zero_le k
    · by_contra hlt
      rw [value_add (by omega) (.inr le_rfl), hquotient] at h
      refine absurd h (not_lt.2 (mul_le_mul hlow ?_ (by positivity) ?_))
      · exact zpow_le_zpow_right₀ one_le_two (by omega)
      · exact (Nat.cast_nonneg _).trans hlow
  have hcode : j * f.binade + roundHalfEven a b ≤ (k + 2) * f.binade := by
    rw [add_mul]
    exact add_le_add (Nat.mul_le_mul_right _ hj) hs
  omega

/-- The value of a code as a quotient. -/
theorem value_ratio (code : ℕ) : ((f.ratio code).1 : ℚ) / (f.ratio code).2 = f.value code := by
  have hpow : (2 : ℚ) ^ (-f.exponent code).toNat ≠ 0 := pow_ne_zero _ two_ne_zero
  rw [ratio, value]
  push_cast
  rw [two_zpow_toNat, ← mul_assoc, mul_div_cancel_right₀ _ hpow]

/-! ## The range of a format -/

/-- Whether the numbers of a format lie well between the powers of ten at which decimals are cut
off. -/
structure Moderate (f : Format) : Prop where
  precision : 1 ≤ f.precision
  low : -1100 ≤ f.minExponent
  high : f.exponent f.infinity + f.precision ≤ 1100

theorem moderate_double : double.Moderate := ⟨by decide, by decide, by decide +kernel⟩

theorem pos_of_value_ne_zero {code : ℕ} (h : f.value code ≠ 0) :
    (2 : ℚ) ^ f.minExponent ≤ f.value code := by
  have hs : f.significand code ≠ 0 := fun hs => h (by simp [value, hs])
  calc (2 : ℚ) ^ f.minExponent ≤ 2 ^ f.exponent code :=
        zpow_le_zpow_right₀ one_le_two (f.minExponent_le code)
    _ ≤ f.significand code * 2 ^ f.exponent code :=
        le_mul_of_one_le_left (by positivity) (Nat.one_le_cast.2 (Nat.one_le_iff_ne_zero.2 hs))

theorem value_lt (hf : f.Moderate) {code : ℕ} (hc : code < f.infinity) :
    f.value code < 2 ^ (1100 : ℕ) := by
  have hexponent : f.exponent code ≤ f.exponent f.infinity := by
    have := Nat.div_le_div_right (c := f.binade) hc.le
    simp only [exponent]
    omega
  have hbinade : 2 * f.binade = 2 ^ f.precision := by
    obtain ⟨p, hp⟩ := Nat.exists_eq_add_of_le' hf.precision
    rw [binade, hp, Nat.add_sub_cancel, Nat.pow_succ']
  calc f.value code < (2 * f.binade : ℕ) * 2 ^ f.exponent code :=
        mul_lt_mul_of_pos_right (Nat.cast_lt.2 (f.significand_lt code)) (zpow_pos two_pos _)
    _ = 2 ^ (f.precision + f.exponent code) := by
        rw [hbinade, zpow_add₀ two_ne_zero, zpow_natCast]
        push_cast
        rfl
    _ ≤ 2 ^ (1100 : ℤ) := zpow_le_zpow_right₀ one_le_two (by have := hf.high; omega)
    _ = 2 ^ (1100 : ℕ) := zpow_natCast 2 1100

theorem eq_zero_of_value {code : ℕ} (h : f.value code = 0) : code = 0 := by
  have hs : f.significand code = 0 := by
    rcases mul_eq_zero.1 h with hs | hs
    · exact_mod_cast hs
    · exact absurd hs (zpow_pos two_pos _).ne'
  have hb := f.binade_pos
  unfold significand at hs
  split at hs <;> omega

end Format

/-! ## Decimals -/

/-- A number with a sign. -/
def signed (negative : Bool) (q : ℚ) : ℚ := if negative then -q else q

@[simp]
theorem signed_true (q : ℚ) : signed true q = -q := if_pos rfl

@[simp]
theorem signed_false (q : ℚ) : signed false q = q := if_neg Bool.false_ne_true

theorem abs_signed (negative : Bool) {q : ℚ} (hq : 0 ≤ q) : |signed negative q| = q := by
  cases negative
  · rw [signed_false, abs_of_nonneg hq]
  · rw [signed_true, abs_neg, abs_of_nonneg hq]

theorem abs_signed_sub (negative : Bool) (p q : ℚ) :
    |signed negative p - signed negative q| = |p - q| := by
  cases negative
  · rfl
  · rw [signed_true, signed_true, neg_sub_neg, abs_sub_comm]

namespace Decimal

/-- The number that is stood for. -/
def value (d : Decimal) : ℚ := d.digits * 10 ^ d.exponent

theorem value_nonneg (d : Decimal) : 0 ≤ d.value := by
  unfold value
  positivity

theorem value_ratio (d : Decimal) : (d.ratio.1 : ℚ) / d.ratio.2 = d.value := by
  have hten : (10 : ℚ) ^ d.exponent = 10 ^ d.exponent.toNat / 10 ^ (-d.exponent).toNat := by
    rcases le_total 0 d.exponent with h | h
    · rw [Int.toNat_of_nonpos (by omega : -d.exponent ≤ 0), pow_zero, div_one, ← zpow_natCast,
        Int.toNat_of_nonneg h]
    · rw [Int.toNat_of_nonpos h, pow_zero, one_div, ← zpow_natCast,
        Int.toNat_of_nonneg (by omega : 0 ≤ -d.exponent), zpow_neg, inv_inv]
  rw [value, hten, ratio]
  push_cast
  rw [mul_div_assoc]

theorem ratio_ne_zero (d : Decimal) : d.ratio.2 ≠ 0 :=
  Nat.pos_iff_ne_zero.1 (Nat.pow_pos (by decide))

theorem two_pow_le_ten_pow : (2 : ℚ) ^ 1102 ≤ 10 ^ 401 :=
  calc (2 : ℚ) ^ 1102 ≤ 2 ^ (3 * 401) := pow_le_pow_right₀ one_le_two (by decide)
    _ = (2 ^ 3) ^ 401 := pow_mul 2 3 401
    _ ≤ 10 ^ 401 := pow_le_pow_left₀ (by norm_num) (by norm_num) 401

theorem le_value {d : Decimal} (hd : d.digits ≠ 0) (h : 400 < d.exponent) :
    (2 : ℚ) ^ (1100 : ℕ) ≤ d.value :=
  calc (2 : ℚ) ^ (1100 : ℕ) ≤ 2 ^ 1102 := pow_le_pow_right₀ one_le_two (by decide)
    _ ≤ 10 ^ 401 := two_pow_le_ten_pow
    _ = 10 ^ (401 : ℤ) := (zpow_natCast 10 401).symm
    _ ≤ 10 ^ d.exponent := zpow_le_zpow_right₀ (by norm_num) (by omega)
    _ ≤ d.digits * 10 ^ d.exponent :=
        le_mul_of_one_le_left (by positivity) (Nat.one_le_cast.2 (Nat.one_le_iff_ne_zero.2 hd))

theorem value_le {d : Decimal} (h : d.exponent + d.digits.log2 < -400) :
    d.value * 2 ≤ 2 ^ (-1100 : ℤ) := by
  have hdigits : (d.digits : ℚ) ≤ 2 * 10 ^ d.digits.log2 := by
    have hlog : (d.digits : ℚ) < 2 ^ (d.digits.log2 + 1) := by exact_mod_cast Nat.lt_log2_self
    have hpow : (2 : ℚ) ^ d.digits.log2 ≤ 10 ^ d.digits.log2 :=
      pow_le_pow_left₀ (by norm_num) (by norm_num) _
    rw [pow_succ] at hlog
    linarith
  have hten : (10 : ℚ) ^ d.exponent ≤ 10 ^ (-401 - d.digits.log2 : ℤ) :=
    zpow_le_zpow_right₀ (by norm_num) (by omega)
  calc d.value * 2 ≤ 2 * 10 ^ d.digits.log2 * 10 ^ (-401 - d.digits.log2 : ℤ) * 2 := by
        unfold value
        gcongr
    _ = 2 * 2 * (10 ^ d.digits.log2 * 10 ^ (-401 - d.digits.log2 : ℤ)) := by ring
    _ = 2 ^ 2 * (10 ^ 401)⁻¹ := by
        rw [← zpow_natCast, ← zpow_add₀ (by norm_num), add_sub_cancel, zpow_neg, pow_two]
        exact congrArg _ (congrArg _ (zpow_natCast 10 401))
    _ ≤ 2 ^ 2 * (2 ^ 1102)⁻¹ :=
        mul_le_mul_of_nonneg_left (inv_anti₀ (pow_pos two_pos _) two_pow_le_ten_pow) (by norm_num)
    _ = 2 ^ (-1100 : ℤ) := by
        rw [← zpow_natCast, ← zpow_natCast, ← zpow_neg, ← zpow_add₀ two_ne_zero]
        rfl

variable {f : Format} {negative : Bool} {d : Decimal}

@[simp]
theorem negative_toBinary : (d.toBinary f negative).negative = negative := by
  unfold toBinary
  repeat' split
  all_goals rfl

/-- No magnitude is nearer to a decimal than the one that it is read as. -/
theorem abs_sub_value_le (hf : f.Moderate) (hfinite : (d.toBinary f negative).isFinite = true)
    (code : ℕ) :
    |d.value - f.value (d.toBinary f negative).magnitude| ≤ |d.value - f.value code| := by
  revert hfinite
  unfold toBinary
  split
  · rename_i hd
    simp [value, hd]
  · split
    · intro hfinite
      simp [Binary.isFinite, Binary.infinity] at hfinite
    · split
      · -- So close to zero there is only zero.
        rename_i htiny
        intro _
        rw [Format.value_zero, sub_zero]
        by_cases hcode : f.value code = 0
        · rw [hcode, sub_zero]
        · have hlow := Format.pos_of_value_ne_zero hcode
          have hmin : (2 : ℚ) ^ (-1100 : ℤ) ≤ 2 ^ f.minExponent :=
            zpow_le_zpow_right₀ one_le_two hf.low
          have hsmall := value_le htiny
          have hvalue := d.value_nonneg
          rw [abs_of_nonneg hvalue, abs_of_nonpos (by linarith)]
          linarith
      · intro hfinite
        rw [← value_ratio]
        exact Format.abs_sub_round_le hf.precision d.ratio_ne_zero
          (of_decide_eq_true hfinite) code

/-- A decimal that is the value of a number is read as the number. -/
theorem toBinary_of_value (hf : f.Moderate) {code : ℕ} (hc : code < f.infinity)
    (h : d.value = f.value code) : d.toBinary f negative = ⟨negative, code⟩ := by
  unfold toBinary
  split
  · rename_i hd
    have hzero : f.value code = 0 := by rw [← h, value, hd, Nat.cast_zero, zero_mul]
    rw [Format.eq_zero_of_value hzero]
  · rename_i hd
    have hpos : f.value code ≠ 0 := by
      rw [← h]
      exact mul_ne_zero (Nat.cast_ne_zero.2 hd) (zpow_pos (by norm_num) _).ne'
    split
    · have hlow := le_value hd ‹_›
      have hhigh := Format.value_lt hf hc
      rw [h] at hlow
      exact absurd hlow (not_le.2 hhigh)
    · split
      · have hsmall := value_le ‹_›
        have hlow := Format.pos_of_value_ne_zero hpos
        have hmin : (2 : ℚ) ^ (-1100 : ℤ) ≤ 2 ^ f.minExponent :=
          zpow_le_zpow_right₀ one_le_two hf.low
        rw [h] at hsmall
        have : (0 : ℚ) < 2 ^ f.minExponent := zpow_pos two_pos _
        linarith
      · rw [Binary.ofRatio, Format.round_value hf.precision hc d.ratio_ne_zero]
        have hden : (d.ratio.2 : ℚ) ≠ 0 := Nat.cast_ne_zero.2 d.ratio_ne_zero
        rw [← value_ratio, div_eq_iff hden, Format.value] at h
        rw [h]
        ring

/-- A decimal that lies a binade below the greatest numbers does not overflow. -/
theorem isFinite_toBinary (hf : f.Moderate) {k : ℕ} (h : d.value < f.value (k * f.binade + f.binade))
    (hk : (k + 2) * f.binade < f.infinity) : (d.toBinary f negative).isFinite = true := by
  have hpos : 0 < f.infinity := Nat.zero_lt_of_lt hk
  unfold toBinary
  split
  · exact decide_eq_true hpos
  · rename_i hd
    split
    · have hcode : k * f.binade + f.binade < f.infinity := by
        rw [add_mul] at hk
        omega
      exact absurd h (not_lt.2 ((Format.value_lt hf hcode).le.trans (le_value hd ‹_›)))
    · split
      · exact decide_eq_true hpos
      · rw [← value_ratio] at h
        exact decide_eq_true (Format.round_lt_infinity hf.precision d.ratio_ne_zero h hk)

end Decimal

namespace Binary

variable {f : Format}

/-- The number that is stood for; meant for finite numbers. -/
def value (x : Binary f) : ℚ := signed x.negative (f.value x.magnitude)

/-- The integer of a number is its value. -/
theorem integer?_eq_some_iff {x : Binary f} {v : ℤ} :
    x.integer? = some v ↔ x.isFinite = true ∧ x.value = v := by
  have hd : (f.ratio x.magnitude).2 ≠ 0 := Nat.pos_iff_ne_zero.1 (Nat.two_pow_pos _)
  unfold integer? value
  rw [← f.value_ratio x.magnitude, Binary.ratio]
  generalize f.ratio x.magnitude = r at hd
  obtain ⟨num, den⟩ := r
  dsimp only at hd ⊢
  cases x.isFinite with
  | false => simp
  | true =>
    simp only [if_true, true_and]
    by_cases hmod : num % den = 0
    · rw [if_pos hmod, (div_eq_natCast_iff hd).2 ⟨hmod, rfl⟩, Option.some.injEq]
      generalize num / den = n
      cases x.negative
      · rw [signed_false, if_neg Bool.false_ne_true]
        exact_mod_cast Iff.rfl
      · rw [signed_true, if_pos rfl]
        exact_mod_cast Iff.rfl
    · rw [if_neg hmod]
      refine iff_of_false (by simp) fun h => hmod ?_
      -- The quotient is the integer without its sign.
      have hnonneg : (0 : ℚ) ≤ num / den := div_nonneg (Nat.cast_nonneg _) (Nat.cast_nonneg _)
      have habs : (num : ℚ) / den = (v.natAbs : ℕ) := by
        rw [Nat.cast_natAbs, Int.cast_abs, ← h, abs_signed _ hnonneg]
      exact ((div_eq_natCast_iff hd).1 habs).1

end Binary

/-- No number is nearer to a decimal than the one that it is read as. -/
theorem Decimal.abs_sub_toBinary_le {f : Format} (hf : f.Moderate) {negative : Bool} {d : Decimal}
    (hfinite : (d.toBinary f negative).isFinite = true) (y : Binary f) :
    |signed negative d.value - (d.toBinary f negative).value| ≤
      |signed negative d.value - y.value| := by
  have hnearest := abs_sub_value_le hf hfinite
  rw [Binary.value, negative_toBinary, abs_signed_sub]
  by_cases hy : y.negative = negative
  · rw [Binary.value, hy, abs_signed_sub]
    exact hnearest _
  · -- On the other side of zero there is nothing nearer than zero.
    have hvalue := d.value_nonneg
    have hother := f.value_nonneg y.magnitude
    have hapart : |signed negative d.value - y.value| = d.value + f.value y.magnitude := by
      rw [Binary.value, show y.negative = !negative by cases hn : y.negative <;> simp_all]
      cases negative
      · rw [Bool.not_false, signed_false, signed_true, sub_neg_eq_add,
          abs_of_nonneg (add_nonneg hvalue hother)]
      · rw [Bool.not_true, signed_true, signed_false, ← neg_add', abs_neg,
          abs_of_nonneg (add_nonneg hvalue hother)]
    calc _ ≤ |d.value - f.value 0| := hnearest 0
      _ = d.value := by rw [Format.value_zero, sub_zero, abs_of_nonneg hvalue]
      _ ≤ d.value + f.value y.magnitude := le_add_of_nonneg_right hother
      _ = _ := hapart.symm

end MotionScript
