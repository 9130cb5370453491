import Mathlib.Data.List.TakeDrop
import MotionScript.Proofs.Number.Rounding
import MotionScript.Token.Numeral
/-!
# Written numbers

The text of a finite number is a numeral that reads back as the number.
-/

namespace MotionScript

/-! ## Digits -/

theorem ofDigits_eq (cs : List Char) : ofDigits cs = Nat.ofDigitChars 10 cs 0 := rfl

theorem ofDigits_toDigits (n : ℕ) : ofDigits (toDigits n) = n := Nat.ofDigitChars_ten_toDigits

theorem isDigit_toDigits {n : ℕ} {c : Char} (h : c ∈ toDigits n) : c.isDigit = true :=
  Nat.isDigit_of_mem_toDigits (by decide) (by decide) h

theorem toDigits_ne_nil (n : ℕ) : toDigits n ≠ [] := Nat.toDigits_ne_nil

theorem ofDigits_zeros (n : ℕ) (cs : List Char) :
    ofDigits (List.replicate n '0' ++ cs) = ofDigits cs := by
  rw [ofDigits_eq, Nat.ofDigitChars_append, Nat.ofDigitChars_replicate_zero, Nat.mul_zero,
    ofDigits_eq]

theorem ofDigits_append_zeros (cs : List Char) (n : ℕ) :
    ofDigits (cs ++ List.replicate n '0') = ofDigits cs * 10 ^ n := by
  rw [ofDigits_eq, Nat.ofDigitChars_append, Nat.ofDigitChars_replicate_zero, Nat.mul_comm]
  rfl

namespace Decimal

/-! ## Positional text -/

/-- Digits with an optional fraction. -/
structure Positional where
  whole : List Char
  fraction : List Char
  /-- There is a digit. -/
  nonempty : whole ≠ []
  digits : ∀ c ∈ whole ++ fraction, c.isDigit = true

namespace Positional

def chars (p : Positional) : List Char :=
  p.whole ++ if p.fraction.isEmpty then [] else '.' :: p.fraction

/-- The decimal the text stands for. -/
def value (p : Positional) : Decimal := ⟨ofDigits (p.whole ++ p.fraction), -p.fraction.length⟩

theorem span_digits {xs : List Char} (hx : ∀ c ∈ xs, c.isDigit = true) (ys : List Char)
    (hy : ∀ c ∈ ys.head?, c.isDigit = false) : (xs ++ ys).span Char.isDigit = (xs, ys) := by
  rw [List.span_eq_takeWhile_dropWhile, List.takeWhile_append_of_pos hx,
    List.dropWhile_append_of_pos hx]
  cases ys with
  | nil => simp
  | cons y ys => simp [hy y rfl]

theorem readUnsigned_chars (p : Positional) : readUnsigned p.chars = some p.value := by
  obtain ⟨whole, fraction, hne, hd⟩ := p
  have hw (c : Char) (h : c ∈ whole) : c.isDigit = true := hd c (List.mem_append_left _ h)
  have hf (c : Char) (h : c ∈ fraction) : c.isDigit = true := hd c (List.mem_append_right _ h)
  have hempty : whole.isEmpty = false := by simpa using hne
  unfold readUnsigned
  cases fraction with
  | nil =>
    have hspan := span_digits hw [] (by simp)
    rw [List.append_nil] at hspan
    simp only [chars, value, List.isEmpty_nil, if_true, List.append_nil, hspan, takeFraction,
      hempty]
    simp [readExponent]
  | cons c cs =>
    have hspan := span_digits hf [] (by simp)
    rw [List.append_nil] at hspan
    simp only [chars, value, List.isEmpty_cons, Bool.false_eq_true, if_false,
      span_digits hw ('.' :: c :: cs) (by simp), takeFraction, hspan, hempty]
    simp [readExponent]

/-- The text starts with a digit, behind no sign and no radix mark. -/
theorem chars_head (p : Positional) :
    ∃ c cs, p.chars = c :: cs ∧ c.isDigit = true ∧ ∀ d ∈ cs.head?, d.isDigit = true ∨ d = '.' := by
  obtain ⟨whole, fraction, hne, hd⟩ := p
  obtain ⟨c, cs, rfl⟩ := List.exists_cons_of_ne_nil hne
  refine ⟨c, _, List.cons_append .., hd c (by simp), fun d h => ?_⟩
  cases cs with
  | nil =>
    right
    cases fraction <;> simp at h
    exact h.symm
  | cons a cs =>
    left
    obtain rfl : a = d := by simpa using h
    exact hd a (by simp)

theorem all_isDigit (p : Positional) : p.chars.all Char.isDigit = p.fraction.isEmpty := by
  obtain ⟨whole, fraction, hne, hd⟩ := p
  have hw : whole.all Char.isDigit = true :=
    List.all_eq_true.2 fun c h => hd c (List.mem_append_left _ h)
  cases fraction <;> simp [chars, hw, show ('.').isDigit = false from rfl]

end Positional

/-- The text of a decimal is positional, and loses no digit. -/
theorem exists_positional (d : Decimal) : ∃ p : Positional, d.text = p.chars ∧
    p.value = if 0 ≤ d.exponent then ⟨d.digits * 10 ^ d.exponent.toNat, 0⟩ else d := by
  have hd (c : Char) (h : c ∈ toDigits d.digits) : c.isDigit = true := isDigit_toDigits h
  by_cases he : 0 ≤ d.exponent
  · refine ⟨⟨toDigits d.digits ++ List.replicate d.exponent.toNat '0', [], ?_, ?_⟩, ?_, ?_⟩
    · simp [toDigits_ne_nil]
    · intro c hc
      simp only [List.append_nil, List.mem_append] at hc
      rcases hc with hc | hc
      · exact hd c hc
      · rw [List.eq_of_mem_replicate hc]; rfl
    · simp [text, he, Positional.chars]
    · simp [Positional.value, he, ofDigits_append_zeros, ofDigits_toDigits]
  · have hexp : -((-d.exponent).toNat : ℤ) = d.exponent := by omega
    rw [if_neg he]
    by_cases hp : (-d.exponent).toNat < (toDigits d.digits).length
    · have hlen : ((toDigits d.digits).drop ((toDigits d.digits).length -
          (-d.exponent).toNat)).length = (-d.exponent).toNat := by
        rw [List.length_drop]; omega
      refine ⟨⟨(toDigits d.digits).take ((toDigits d.digits).length - (-d.exponent).toNat),
        (toDigits d.digits).drop ((toDigits d.digits).length - (-d.exponent).toNat), ?_, ?_⟩,
        ?_, ?_⟩
      · intro h
        have := congrArg List.length h
        simp only [List.length_take, List.length_nil] at this
        omega
      · rw [List.take_append_drop]; exact hd
      · have hne : ((toDigits d.digits).drop ((toDigits d.digits).length -
            (-d.exponent).toNat)).isEmpty = false := by
          rw [List.isEmpty_eq_false_iff, ← List.length_pos_iff, hlen]; omega
        simp [text, he, hp, Positional.chars, hne]
      · rw [Positional.value]
        simp only
        rw [List.take_append_drop, ofDigits_toDigits, hlen, hexp]
    · refine ⟨⟨['0'], List.replicate ((-d.exponent).toNat - (toDigits d.digits).length) '0' ++
        toDigits d.digits, by simp, ?_⟩, ?_, ?_⟩
      · intro c hc
        simp only [List.cons_append, List.nil_append, List.mem_cons, List.mem_append] at hc
        rcases hc with rfl | hc | hc
        · rfl
        · rw [List.eq_of_mem_replicate hc]; rfl
        · exact hd c hc
      · simp [text, he, hp, Positional.chars, toDigits_ne_nil]
      · have hlen : (List.replicate ((-d.exponent).toNat - (toDigits d.digits).length) '0' ++
            toDigits d.digits).length = (-d.exponent).toNat := by
          rw [List.length_append, List.length_replicate]; omega
        rw [Positional.value]
        simp only
        rw [hlen, hexp, show ['0'] = List.replicate 1 '0' from rfl, ofDigits_zeros, ofDigits_zeros,
          ofDigits_toDigits]

end Decimal

/-! ## Numerals -/

/-- A sign in front of positional text. -/
def signedChars (negative : Bool) (p : Decimal.Positional) : List Char :=
  if negative then '-' :: p.chars else p.chars

theorem takeSign_signedChars (negative : Bool) (p : Decimal.Positional) :
    Decimal.takeSign (signedChars negative p) = (negative, p.chars) := by
  cases negative with
  | true => rfl
  | false =>
    obtain ⟨c, cs, h, hc, -⟩ := p.chars_head
    simp only [signedChars, Bool.false_eq_true, if_false, h]
    unfold Decimal.takeSign
    split <;> simp_all

theorem radixOf?_eq_none {c : Char} (h : c.isDigit = true ∨ c = '.') : radixOf? c = none := by
  rcases h with h | rfl
  · have hl : c.toLower = c := by
      have h9 : c.val ≤ 57 := by simpa using (Bool.and_eq_true_iff.1 h).2
      have hA : ¬(65 ≤ c.val) := by
        rw [UInt32.le_iff_toNat_le] at h9 ⊢
        exact fun hA => absurd (hA.trans h9) (by decide)
      exact dif_neg fun hc => hA hc.1
    unfold radixOf?
    rw [hl]
    split <;> simp_all
  · rfl

theorem takeRadix_cons (c : Char) {cs : List Char} (h : ∀ mark ∈ cs.head?, radixOf? mark = none) :
    Numeral.takeRadix (c :: cs) = none := by
  unfold Numeral.takeRadix
  split
  · rename_i mark digits heq
    obtain ⟨rfl, rfl⟩ := List.cons.inj heq
    rw [h mark rfl]
    rfl
  · rfl

theorem takeRadix_chars (p : Decimal.Positional) : Numeral.takeRadix p.chars = none := by
  obtain ⟨c, cs, h, hc, hcs⟩ := p.chars_head
  rw [h]
  exact takeRadix_cons c fun mark hmark => radixOf?_eq_none (hcs mark hmark)

theorem Numeral.read_signedChars (negative : Bool) (p : Decimal.Positional) :
    Numeral.read (signedChars negative p) =
      some (.decimal negative p.value p.fraction.isEmpty) := by
  simp [read, takeSign_signedChars, takeRadix_chars, p.readUnsigned_chars, p.all_isDigit]

/-! ## Shortest text -/

namespace Decimal

/-- Zeros can be written out instead of a positive exponent, as long as that is in range. -/
theorem toBinary_mul_pow (f : Format) (negative : Bool) (d : Decimal) (h0 : 0 ≤ d.exponent)
    (h : d.exponent ≤ 400) :
    (⟨d.digits * 10 ^ d.exponent.toNat, 0⟩ : Decimal).toBinary f negative =
      d.toBinary f negative := by
  unfold toBinary
  by_cases hd : d.digits = 0
  · simp [hd]
  · have hlow : ¬d.exponent + d.digits.log2 < -400 := by omega
    have hlow' : ¬((d.digits * 10 ^ d.exponent.toNat).log2 : ℤ) < -400 := by omega
    have hn : (-d.exponent).toNat = 0 := by omega
    simp only [hd, if_false, hlow, not_lt.2 h, ratio, hn]
    simp [hd, hlow']

end Decimal

namespace Binary

variable {f : Format} {x : Binary f}

theorem readsBack_onGrid {exponent : ℤ} {d : Decimal} (h : x.onGrid exponent = some d) :
    x.readsBack d = true := by
  unfold onGrid at h
  simp only at h
  split at h
  · obtain rfl := Option.some.inj h
    split <;> assumption
  · obtain rfl := Option.some.inj h
    assumption
  · obtain rfl := Option.some.inj h
    assumption
  · cases h

/-- The exact value needs no rounding. -/
theorem readsBack_exactDecimal (hp : 1 ≤ f.precision) (hx : x.isFinite = true)
    (hz : x.isZero = false) : x.readsBack x.exactDecimal = true := by
  have hcode : x.magnitude < f.infinity := by simpa [isFinite] using hx
  have hpos : f.significand x.magnitude ≠ 0 := by
    have hm : x.magnitude ≠ 0 := by simpa [isZero] using hz
    have := f.binade_pos
    unfold Format.significand
    split <;> omega
  simp only [readsBack, beq_iff_eq, exactDecimal]
  split
  · rename_i he
    have hd : f.significand x.magnitude * 2 ^ (f.exponent x.magnitude).toNat ≠ 0 :=
      Nat.mul_ne_zero hpos (Nat.pos_iff_ne_zero.1 (Nat.two_pow_pos _))
    have hlow : ¬(0 : ℤ) + (f.significand x.magnitude *
        2 ^ (f.exponent x.magnitude).toNat).log2 < -400 := by omega
    simp only [Decimal.toBinary, hd, if_false, show ¬(400 : ℤ) < 0 by decide, hlow, ofRatio,
      Decimal.ratio]
    refine Format.round_value hp hcode (by simp) ?_
    push_cast
    rw [two_zpow_toNat, Int.toNat_of_nonpos (Int.neg_nonpos_of_nonneg he)]
    simp
  · rename_i he
    obtain ⟨k, hk⟩ : ∃ k : ℕ, f.exponent x.magnitude = -(k : ℤ) :=
      ⟨(-f.exponent x.magnitude).toNat, by omega⟩
    have hd : f.significand x.magnitude * 5 ^ k ≠ 0 :=
      Nat.mul_ne_zero hpos (Nat.pos_iff_ne_zero.1 (Nat.pow_pos (by decide)))
    -- Four to the `k` is below the digits, so the value is nowhere near the least exponent.
    have hlog : 2 * k ≤ (f.significand x.magnitude * 5 ^ k).log2 := by
      rw [Nat.le_log2 hd, Nat.pow_mul]
      calc (2 ^ 2) ^ k ≤ 5 ^ k := Nat.pow_le_pow_left (by decide) k
        _ ≤ f.significand x.magnitude * 5 ^ k :=
          Nat.le_mul_of_pos_left _ (Nat.pos_of_ne_zero hpos)
    have hlow : ¬-(k : ℤ) + (f.significand x.magnitude * 5 ^ k).log2 < -400 := by omega
    have hhigh : ¬(400 : ℤ) < -(k : ℤ) := by omega
    simp only [hk, neg_neg, Int.toNat_natCast, Decimal.toBinary, hd, if_false, hlow, hhigh,
      ofRatio, Decimal.ratio]
    refine Format.round_value hp hcode (Nat.pos_iff_ne_zero.1 (Nat.pow_pos (by decide))) ?_
    rw [hk, Int.toNat_neg_natCast]
    push_cast
    rw [zpow_neg, zpow_natCast, show (10 : ℚ) = 5 * 2 by norm_num, mul_pow, mul_one, mul_assoc,
      mul_assoc, mul_inv_cancel₀ (pow_ne_zero k two_ne_zero), mul_one]

theorem readsBack_shortest (hp : 1 ≤ f.precision) (hx : x.isFinite = true)
    (hz : x.isZero = false) : x.readsBack x.shortest = true := by
  unfold shortest
  cases h : (List.range 19).findSome? fun (i : Nat) => x.onGrid (x.decimalTop - i) with
  | none => exact readsBack_exactDecimal hp hx hz
  | some d =>
    obtain ⟨i, -, hi⟩ := List.exists_of_findSome?_eq_some h
    exact readsBack_onGrid hi

/-- The text of a finite number is a numeral that stands for the number. -/
theorem exists_numeral (hp : 1 ≤ f.precision) (hx : x.isFinite = true) :
    ∃ p : Decimal.Positional, x.text = signedChars x.negative p ∧
      p.value.toBinary f x.negative = x := by
  have hcode : x.magnitude < f.infinity := by simpa [isFinite] using hx
  have hnan : x.isNaN = false := by simpa [isNaN] using hcode.le
  have htext : x.text = if x.negative then '-' :: (if x.isZero then ['0'] else x.shortest.text)
      else if x.isZero then ['0'] else x.shortest.text := by
    simp [text, hnan, hx]
  cases hz : x.isZero with
  | true =>
    have hm : x.magnitude = 0 := by simpa [isZero] using hz
    refine ⟨⟨['0'], [], by simp, by simp⟩, ?_, ?_⟩
    · rw [htext, hz]
      rfl
    · obtain ⟨negative, magnitude⟩ := x
      obtain rfl : magnitude = 0 := hm
      rfl
  | false =>
    have hback := readsBack_shortest hp hx hz
    obtain ⟨p, hp, hv⟩ := x.shortest.exists_positional
    refine ⟨p, ?_, ?_⟩
    · rw [htext, hz, signedChars, ← hp]
      simp
    · have hsame : p.value.toBinary f x.negative = x.shortest.toBinary f x.negative := by
        rw [hv]
        split
        · rename_i h0
          by_cases hd : x.shortest.digits = 0
          · simp [Decimal.toBinary, hd]
          refine Decimal.toBinary_mul_pow f x.negative _ h0 (not_lt.1 fun h => ?_)
          simp only [readsBack, Decimal.toBinary, hd, if_false, h, if_true, infinity,
            beq_iff_eq] at hback
          omega
        · rfl
      rw [hsame]
      have hneg : (x.shortest.toBinary f x.negative).negative = x.negative := by
        unfold Decimal.toBinary
        repeat' split
        all_goals rfl
      have hmag : (x.shortest.toBinary f x.negative).magnitude = x.magnitude := by
        simpa [readsBack] using hback
      cases hb : x.shortest.toBinary f x.negative
      rw [hb] at hneg hmag
      cases x
      simp_all

end Binary

theorem exists_numeral_int (n : ℤ) :
    ∃ p : Decimal.Positional, (toString n).toList = signedChars (decide (n < 0)) p ∧
      p.value = ⟨n.natAbs, 0⟩ ∧ p.fraction = [] := by
  refine ⟨⟨toDigits n.natAbs, [], toDigits_ne_nil _, by simpa using fun c => isDigit_toDigits⟩,
    ?_, ?_, rfl⟩
  · rw [Int.toString_eq_repr, Int.repr_eq_if]
    by_cases h : 0 ≤ n
    · rw [if_pos h, Nat.toList_repr, decide_eq_false (not_lt.2 h)]
      simp [signedChars, Decimal.Positional.chars, toDigits, show n.toNat = n.natAbs by omega]
    · rw [if_neg h, String.toList_append, Nat.toList_repr, decide_eq_true (not_le.1 h)]
      simp [signedChars, Decimal.Positional.chars, toDigits, show (-n).toNat = n.natAbs by omega]
  · simp [Decimal.Positional.value, ofDigits_toDigits]

end MotionScript
