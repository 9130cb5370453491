import Mathlib.Data.List.TakeWhile
import Mathlib.Data.Nat.Digits.Defs
import MotionScript.Proofs.Token.Numerals
/-!
# Values of literals

A literal is written with an optional sign, digits of a base or digits around a point, and an optional
exponent, and stands for a number. The integer of a number token is that number if it is exact: a
point or an exponent lets it be rounded, and the least 64-bit integer is only reached by digits.
-/

namespace MotionScript

/-! ## Literals -/

/-- The number that digits of a base stand for by their places. -/
def placeValue (base : ℕ) (digits : List Char) : ℕ := Nat.ofDigits base (digits.reverse.map hexValue)

theorem ofDigitsIn_eq (base : ℕ) (digits : List Char) :
    ofDigitsIn base digits = placeValue base digits := by
  rw [placeValue, Nat.ofDigits_eq_foldr, List.foldr_map, List.foldr_reverse, ofDigitsIn]
  simp only [Nat.add_comm, Nat.cast_id]

theorem ofDigits_eq_placeValue {digits : List Char} (h : ∀ c ∈ digits, c.isDigit = true) :
    ofDigits digits = placeValue 10 digits := by
  rw [← ofDigitsIn_eq]
  exact List.foldl_ext _ _ 0 fun n c hc => by rw [hexValue, if_pos (h c hc)]

theorem placeValue_append (base : ℕ) (high low : List Char) :
    placeValue base (high ++ low) = placeValue base high * base ^ low.length + placeValue base low := by
  rw [placeValue, List.reverse_append, List.map_append, Nat.ofDigits_append, List.length_map,
    List.length_reverse, Nat.add_comm, Nat.mul_comm]
  rfl

/-- A sign that may be left out. -/
inductive Sign : List Char → Bool → Prop
  | none : Sign [] false
  | plus : Sign ['+'] false
  | minus : Sign ['-'] true

/-- An exponent that may be left out. -/
inductive Exponent : List Char → ℤ → Prop
  | none : Exponent [] 0
  | marked {mark : Char} {sign digits : List Char} {negative : Bool} (hmark : mark = 'e' ∨ mark = 'E')
    (hsign : Sign sign negative) (hne : digits ≠ []) (hdigits : ∀ c ∈ digits, c.isDigit = true) :
    Exponent (mark :: (sign ++ digits))
      (if negative then -placeValue 10 digits else placeValue 10 digits)

/-- A point and the digits behind it, which may be left out together. -/
inductive Fraction : List Char → List Char → Prop
  | none : Fraction [] []
  | point {digits : List Char} (hdigits : ∀ c ∈ digits, c.isDigit = true) :
    Fraction ('.' :: digits) digits

/-- What is written as a literal, and the number that it stands for. -/
inductive Literal : List Char → ℚ → Prop
  | radix {sign digits : List Char} {negative : Bool} {mark : Char} {base : ℕ}
    (hsign : Sign sign negative) (hbase : radixOf? mark = some base) (hne : digits ≠ [])
    (hdigits : ∀ c ∈ digits, isDigitOf base c = true) :
    Literal (sign ++ '0' :: mark :: digits) (signed negative (placeValue base digits))
  | decimal {sign whole point fraction mark : List Char} {negative : Bool} {exponent : ℤ}
    (hsign : Sign sign negative) (hwhole : ∀ c ∈ whole, c.isDigit = true)
    (hpoint : Fraction point fraction) (hmark : Exponent mark exponent)
    (hne : whole ≠ [] ∨ fraction ≠ []) :
    Literal (sign ++ (whole ++ (point ++ mark)))
      (signed negative ((placeValue 10 whole + placeValue 10 fraction / 10 ^ fraction.length) *
        10 ^ exponent))

/-! ## Reading -/

namespace Numeral

/-- The number that a numeral stands for. -/
def value : Numeral → ℚ
  | radix negative magnitude => signed negative magnitude
  | decimal negative d _ => signed negative d.value

theorem sign_takeSign (cs : List Char) :
    ∃ sign, Sign sign (Decimal.takeSign cs).1 ∧ cs = sign ++ (Decimal.takeSign cs).2 := by
  unfold Decimal.takeSign
  split
  · exact ⟨_, .minus, rfl⟩
  · exact ⟨_, .plus, rfl⟩
  · exact ⟨_, .none, rfl⟩

theorem exponent_of_read {cs : List Char} {exponent : ℤ}
    (h : Decimal.readExponent cs = some exponent) : Exponent cs exponent := by
  cases cs with
  | nil =>
    obtain rfl := Option.some.inj h
    exact .none
  | cons mark cs =>
    obtain ⟨sign, hsign, hcs⟩ := sign_takeSign cs
    simp only [Decimal.readExponent] at h
    split at h
    case isFalse => cases h
    rename_i hmark
    split at h
    case isTrue => cases h
    rename_i hdigits
    simp only [Bool.or_eq_true, Bool.not_eq_true', not_or, Bool.not_eq_false, List.isEmpty_iff,
      List.all_eq_true] at hdigits
    rw [hcs]
    rw [ofDigits_eq_placeValue hdigits.2] at h
    exact Option.some.inj h ▸ .marked hmark hsign hdigits.1 hdigits.2

theorem fraction_of_take (cs : List Char) :
    ∃ point, Fraction point (Decimal.takeFraction cs).1 ∧
      cs = point ++ (Decimal.takeFraction cs).2 ∧
        ∀ c ∈ (Decimal.takeFraction cs).1, c.isDigit = true := by
  unfold Decimal.takeFraction
  split
  · rename_i rest
    have hdigits : ∀ c ∈ rest.takeWhile Char.isDigit, c.isDigit = true :=
      List.all_eq_true.1 List.all_takeWhile
    rw [List.span_eq_takeWhile_dropWhile]
    exact ⟨_, .point hdigits, by rw [List.cons_append, List.takeWhile_append_dropWhile], hdigits⟩
  · exact ⟨[], .none, rfl, by simp⟩

/-- What is read as an unsigned decimal is one, and it is read exactly. -/
theorem unsigned_of_read {cs : List Char} {d : Decimal} (h : Decimal.readUnsigned cs = some d) :
    ∃ whole point fraction mark exponent, cs = whole ++ (point ++ mark) ∧
      (∀ c ∈ whole, c.isDigit = true) ∧ Fraction point fraction ∧ Exponent mark exponent ∧
      (whole ≠ [] ∨ fraction ≠ []) ∧
      d.value = (placeValue 10 whole + placeValue 10 fraction / 10 ^ fraction.length) *
        10 ^ exponent := by
  simp only [Decimal.readUnsigned, List.span_eq_takeWhile_dropWhile] at h
  have hcs := List.takeWhile_append_dropWhile (p := Char.isDigit) (l := cs)
  have hwhole : ∀ c ∈ cs.takeWhile Char.isDigit, c.isDigit = true :=
    List.all_eq_true.1 List.all_takeWhile
  generalize cs.takeWhile Char.isDigit = whole at hcs hwhole h
  obtain ⟨point, hpoint, hrest, hfraction⟩ := fraction_of_take (cs.dropWhile Char.isDigit)
  rw [hrest] at hcs
  generalize Decimal.takeFraction (cs.dropWhile Char.isDigit) = x at hpoint hcs hfraction h
  obtain ⟨fraction, mark⟩ := x
  dsimp only at hpoint hcs hfraction h
  split at h
  case isTrue => cases h
  rename_i hne
  obtain ⟨exponent, hexponent, rfl⟩ := Option.map_eq_some_iff.1 h
  refine ⟨whole, point, fraction, mark, exponent, hcs.symm, hwhole, hpoint,
    exponent_of_read hexponent, ?_, ?_⟩
  · rw [Bool.and_eq_true, not_and_or, List.isEmpty_iff, List.isEmpty_iff] at hne
    exact hne
  · have hten : (10 : ℚ) ^ fraction.length ≠ 0 := pow_ne_zero _ (by norm_num)
    rw [Decimal.value, zpow_sub₀ (by norm_num), zpow_natCast,
      ofDigits_eq_placeValue (List.forall_mem_append.2 ⟨hwhole, hfraction⟩), placeValue_append]
    push_cast
    rw [← mul_div_assoc, mul_div_right_comm, add_div, mul_div_cancel_right₀ _ hten]

/-- What is read with a radix is digits of a base behind its mark. -/
theorem radix_of_read {cs : List Char} {negative : Bool} {magnitude : ℕ}
    (h : read cs = some (radix negative magnitude)) :
    ∃ sign mark base digits, cs = sign ++ '0' :: mark :: digits ∧ Sign sign negative ∧
      radixOf? mark = some base ∧ digits ≠ [] ∧ (∀ c ∈ digits, isDigitOf base c = true) ∧
      magnitude = placeValue base digits := by
  obtain ⟨sign, hsign, hcs⟩ := sign_takeSign cs
  simp only [read] at h
  generalize Decimal.takeSign cs = x at hsign hcs h
  obtain ⟨sign', u⟩ := x
  dsimp only at hsign hcs h
  split at h
  case h_2 =>
    obtain ⟨d, -, hd⟩ := Option.map_eq_some_iff.1 h
    cases hd
  rename_i base digits hradix
  split at h
  case isTrue => cases h
  rename_i hdigits
  obtain ⟨rfl, rfl⟩ := (radix.injEq ..).mp (Option.some.inj h)
  simp only [Bool.or_eq_true, Bool.not_eq_true', not_or, Bool.not_eq_false, List.isEmpty_iff,
    List.all_eq_true] at hdigits
  unfold takeRadix at hradix
  split at hradix
  case h_2 => cases hradix
  obtain ⟨b, hb, heq⟩ := Option.map_eq_some_iff.1 hradix
  cases heq
  exact ⟨sign, _, _, _, hcs, hsign, hb, hdigits.1, hdigits.2, ofDigitsIn_eq ..⟩

/-- What is read without a radix is a decimal behind a sign, and it is read exactly. -/
theorem decimal_of_read {cs : List Char} {negative all : Bool} {d : Decimal}
    (h : read cs = some (decimal negative d all)) :
    ∃ sign whole point fraction mark exponent, cs = sign ++ (whole ++ (point ++ mark)) ∧
      Sign sign negative ∧ (∀ c ∈ whole, c.isDigit = true) ∧ Fraction point fraction ∧
      Exponent mark exponent ∧ (whole ≠ [] ∨ fraction ≠ []) ∧
      d.value = (placeValue 10 whole + placeValue 10 fraction / 10 ^ fraction.length) *
        10 ^ exponent := by
  obtain ⟨sign, hsign, hcs⟩ := sign_takeSign cs
  simp only [read] at h
  generalize Decimal.takeSign cs = x at hsign hcs h
  obtain ⟨sign', u⟩ := x
  dsimp only at hsign hcs h
  split at h
  case h_1 => split at h <;> cases h
  obtain ⟨d', hd, heq⟩ := Option.map_eq_some_iff.1 h
  obtain ⟨rfl, rfl, -⟩ := (decimal.injEq ..).mp heq
  obtain ⟨whole, point, fraction, mark, exponent, rfl, hparts⟩ := unsigned_of_read hd
  exact ⟨sign, whole, point, fraction, mark, exponent, hcs, hsign, hparts⟩

/-- What is read as a numeral is a literal, and the numeral stands for the number of the literal. -/
theorem literal_of_read {cs : List Char} {n : Numeral} (h : read cs = some n) :
    Literal cs n.value := by
  cases n with
  | radix negative magnitude =>
    obtain ⟨sign, mark, base, digits, rfl, hsign, hbase, hne, hdigits, rfl⟩ := radix_of_read h
    exact .radix hsign hbase hne hdigits
  | decimal negative d all =>
    obtain ⟨sign, whole, point, fraction, mark, exponent, rfl, hsign, hwhole, hpoint, hmark, hne,
      hvalue⟩ := decimal_of_read h
    rw [value, hvalue]
    exact .decimal hsign hwhole hpoint hmark hne

/-! ## Integers -/

theorem exponent_of_whole {cs : List Char} {negative : Bool} {d : Decimal}
    (h : read cs = some (decimal negative d true)) : d.exponent = 0 := by
  simp only [read] at h
  generalize (Decimal.takeSign cs).2 = u at h
  split at h
  · split at h <;> cases h
  · obtain ⟨d', hd, heq⟩ := Option.map_eq_some_iff.1 h
    obtain ⟨-, rfl, hall⟩ := (decimal.injEq ..).mp heq
    have hwhole := List.all_eq_true.1 hall
    have htake : u.takeWhile Char.isDigit = u := List.takeWhile_eq_self_iff.2 hwhole
    have hdrop : u.dropWhile Char.isDigit = [] := List.dropWhile_eq_nil_iff.2 hwhole
    simp only [Decimal.readUnsigned, List.span_eq_takeWhile_dropWhile, htake, hdrop,
      Decimal.takeFraction, Decimal.readExponent, Option.map_some] at hd
    split at hd
    · cases hd
    · rw [← Option.some.inj hd]
      rfl

theorem signed_natCast (negative : Bool) (n : ℕ) :
    signed negative n = ((if negative then -n else n : ℤ) : ℚ) := by
  cases negative <;> simp

theorem natAbs_signed (negative : Bool) (n : ℕ) : (if negative then -n else n : ℤ).natAbs = n := by
  cases negative <;> simp

theorem integer?_radix {negative : Bool} {magnitude : ℕ} {v : ℤ} :
    (radix negative magnitude).integer? = some v ↔
      (radix negative magnitude).value = v ∧ v.natAbs < integerBound := by
  rw [value, signed_natCast, Int.cast_inj, integer?, signed?]
  constructor
  · intro h
    split at h
    · rename_i hlt
      obtain rfl := Option.some.inj h
      exact ⟨rfl, by rwa [natAbs_signed]⟩
    · cases h
  · rintro ⟨rfl, hlt⟩
    rw [natAbs_signed] at hlt
    rw [if_pos hlt]

theorem integer?_marked {negative : Bool} {d : Decimal} {v : ℤ} :
    (decimal negative d false).integer? = some v ↔
      ((d.toBinary .double negative).isFinite = true ∧ (d.toBinary .double negative).value = v) ∧
        v.natAbs < integerBound := by
  rw [← Binary.integer?_eq_some_iff]
  simp only [integer?, Bool.false_eq_true, false_and, if_false]
  cases (d.toBinary .double negative).integer? with
  | none => simp
  | some n =>
    dsimp only
    constructor
    · intro h
      split at h
      · rename_i hlt
        exact ⟨h, Option.some.inj h ▸ hlt⟩
      · cases h
    · rintro ⟨h, hlt⟩
      obtain rfl := Option.some.inj h
      rw [if_pos hlt]

/-- The bound is a 64-bit number. -/
theorem value_integerBound :
    Format.double.value (1085 * Format.double.binade + Format.double.binade) = integerBound := by
  rw [Format.value_add (by omega) (.inr le_rfl), show Format.double.binade = 2 ^ 52 from rfl,
    show Format.double.minExponent + (1085 : ℕ) = (11 : ℕ) from rfl, zpow_natCast, integerBound]
  norm_num

/-- What is out of range stays out of range if it is rounded. -/
theorem integerBound_le_natAbs {negative : Bool} {d : Decimal} {v : ℤ}
    (hd : integerBound ≤ d.value)
    (hfinite : (d.toBinary .double negative).isFinite = true)
    (hv : (d.toBinary .double negative).value = v) : integerBound ≤ v.natAbs := by
  have hnearest := Decimal.abs_sub_value_le Format.moderate_double hfinite
    (1085 * Format.double.binade + Format.double.binade)
  rw [value_integerBound, abs_of_nonneg (sub_nonneg.2 hd)] at hnearest
  have hle := (le_abs_self _).trans hnearest
  have habs : ((v.natAbs : ℕ) : ℚ) =
      Format.double.value (d.toBinary .double negative).magnitude := by
    rw [Nat.cast_natAbs, Int.cast_abs, ← hv, Binary.value, abs_signed _ (Format.value_nonneg _)]
  have hcast : ((integerBound : ℕ) : ℚ) ≤ (v.natAbs : ℕ) := by
    rw [habs]
    linarith
  exact_mod_cast hcast

theorem integer?_whole {negative : Bool} {d : Decimal} {v : ℤ} (hd : d.exponent = 0) :
    (decimal negative d true).integer? = some v ↔
      (decimal negative d true).value = v ∧ -(integerBound : ℤ) ≤ v ∧ v < integerBound := by
  have hvalue : d.value = d.digits := by rw [Decimal.value, hd, zpow_zero, mul_one]
  have hdigits := natAbs_signed negative d.digits
  have hrounded : (decimal negative d false).integer? = some v → d.digits < integerBound := by
    intro h
    obtain ⟨⟨hfinite, hv⟩, hlt⟩ := integer?_marked.1 h
    by_contra hbound
    have hle := integerBound_le_natAbs (by rw [hvalue]; exact_mod_cast not_lt.1 hbound) hfinite hv
    omega
  rw [value, hvalue, signed_natCast, Int.cast_inj]
  simp only [integer?, true_and, Bool.false_eq_true, false_and, if_false] at hrounded ⊢
  -- Digits that are out of range are rounded, and stay out of range.
  generalize (if negative = true then -(d.digits : ℤ) else d.digits) = exact at hdigits ⊢
  split
  · rename_i hrange
    rw [Option.some.injEq]
    exact ⟨fun h => ⟨h, h ▸ hrange⟩, And.left⟩
  · rename_i hrange
    refine iff_of_false (fun h => ?_) fun ⟨h, hv⟩ => hrange (h ▸ hv)
    have := hrounded h
    omega

/-! ## Exact integers -/

/-- Whether a numeral is read without being rounded, and not as the least 64-bit integer unless it is
written in digits only. -/
def Exact : Numeral → Prop
  | radix negative magnitude => (radix negative magnitude).value ≠ -2 ^ 63
  | decimal negative d whole => whole = true ∨
    (decimal negative d whole).value ≠ -2 ^ 63 ∧
      ∃ x : Double, x.isFinite = true ∧ x.value = (decimal negative d whole).value

theorem natAbs_lt_integerBound {v : ℤ} : v.natAbs < integerBound ↔ -2 ^ 63 < v ∧ v < 2 ^ 63 := by
  rw [integerBound]
  omega

theorem abs_value_decimal (negative : Bool) (d : Decimal) (whole : Bool) :
    |(decimal negative d whole).value| = d.value :=
  abs_signed negative d.value_nonneg

theorem toBinary_of_isFinite {negative : Bool} {d : Decimal} {x : Double}
    (hx : x.isFinite = true) (h : x.value = signed negative d.value) :
    (d.toBinary .double negative).isFinite = true ∧
      (d.toBinary .double negative).value = signed negative d.value := by
  have hvalue : d.value = Format.double.value x.magnitude := by
    rw [← abs_signed negative d.value_nonneg, ← h, Binary.value, abs_signed _ (Format.value_nonneg _)]
  rw [Decimal.toBinary_of_value Format.moderate_double (of_decide_eq_true hx) hvalue, Binary.value,
    hvalue]
  exact ⟨hx, rfl⟩

/-- The integer of an exact numeral is its value. -/
theorem integer?_of_exact {cs : List Char} {n : Numeral} (h : read cs = some n) (hn : n.Exact)
    (v : ℤ) : n.integer? = some v ↔ n.value = v ∧ -2 ^ 63 ≤ v ∧ v < 2 ^ 63 := by
  have hleast (hne : n.value ≠ -2 ^ 63) :
      n.value = v ∧ v.natAbs < integerBound ↔ n.value = v ∧ -2 ^ 63 ≤ v ∧ v < 2 ^ 63 := by
    refine and_congr_right fun hv => ?_
    rw [hv] at hne
    have hne : v ≠ -2 ^ 63 := by exact_mod_cast hne
    rw [natAbs_lt_integerBound]
    omega
  cases n with
  | radix negative magnitude => rw [integer?_radix, hleast hn]
  | decimal negative d whole =>
    cases whole with
    | true => exact integer?_whole (exponent_of_whole h)
    | false =>
      obtain ⟨hne, x, hx, heq⟩ := hn.resolve_left Bool.false_ne_true
      rw [integer?_marked, ← hleast hne, and_iff_right (toBinary_of_isFinite hx heq).1,
        (toBinary_of_isFinite hx heq).2]
      rfl

/-- Only digits reach the ends of the range. -/
theorem integer?_eq_none {n : Numeral} (hn : ∀ negative d, n ≠ decimal negative d true)
    (h : 2 ^ 63 ≤ |n.value|) : n.integer? = none := by
  rw [Option.eq_none_iff_forall_ne_some]
  intro v hv
  cases n with
  | radix negative magnitude =>
    obtain ⟨hvalue, hlt⟩ := integer?_radix.1 hv
    rw [hvalue] at h
    have h : 2 ^ 63 ≤ |v| := by exact_mod_cast h
    rw [natAbs_lt_integerBound] at hlt
    exact absurd h (not_le.2 (abs_lt.2 hlt))
  | decimal negative d whole =>
    cases whole with
    | true => exact hn negative d rfl
    | false =>
      obtain ⟨⟨hfinite, hvalue⟩, hlt⟩ := integer?_marked.1 hv
      rw [abs_value_decimal] at h
      have hbound : ((integerBound : ℕ) : ℚ) = 2 ^ 63 := by
        rw [integerBound]
        norm_num
      have := integerBound_le_natAbs (hbound ▸ h) hfinite hvalue
      omega

/-- A numeral with a point or an exponent that is in range is rounded. -/
theorem exists_rounded {negative : Bool} {d : Decimal}
    (h : |(decimal negative d false).value| < 2 ^ 63) :
    ∃ x : Double, x.isFinite = true ∧
      (∀ y : Double, |(decimal negative d false).value - x.value| ≤
        |(decimal negative d false).value - y.value|) ∧
      ∀ v : ℤ, (decimal negative d false).integer? = some v ↔
        x.value = v ∧ -2 ^ 63 < v ∧ v < 2 ^ 63 := by
  rw [abs_value_decimal] at h
  have hfinite : (d.toBinary .double negative).isFinite = true := by
    refine Decimal.isFinite_toBinary Format.moderate_double (k := 1085) ?_ (by decide)
    rw [value_integerBound, integerBound]
    norm_num at h ⊢
    exact h
  refine ⟨_, hfinite, Decimal.abs_sub_toBinary_le Format.moderate_double hfinite, fun v => ?_⟩
  rw [integer?_marked, and_iff_right hfinite, natAbs_lt_integerBound]

/-- What the integer of a numeral is. -/
structure HasInteger (n : Numeral) (integer : Option ℤ) : Prop where
  exact : n.Exact → ∀ v : ℤ, integer = some v ↔ n.value = v ∧ -2 ^ 63 ≤ v ∧ v < 2 ^ 63
  /-- Only digits reach the least integer. -/
  outside : (∀ negative d, n ≠ decimal negative d true) → 2 ^ 63 ≤ |n.value| → integer = none
  /-- No 64-bit number is nearer than the one that a point or an exponent is rounded to. -/
  rounded : ∀ negative d, n = decimal negative d false → |n.value| < 2 ^ 63 →
    ∃ x : Double, x.isFinite = true ∧
      (∀ y : Double, |n.value - x.value| ≤ |n.value - y.value|) ∧
      ∀ v : ℤ, integer = some v ↔ x.value = v ∧ -2 ^ 63 < v ∧ v < 2 ^ 63

end Numeral

namespace Token

open Lexer (tokenize)

/-- Every number token is a literal. Its integer is the number that the literal stands for if this is
read exactly; the least 64-bit integer is read from digits only, and what has a point or an exponent
is rounded. -/
theorem integer?_literal {symbols : SymbolSet} {text : String} {t : Token}
    (ht : t ∈ (tokenize symbols text).tokens) (hk : t.kind = .number) :
    ∃ n, t.numeral? = some n ∧ Literal t.text.toList n.value ∧ n.HasInteger t.integer? := by
  obtain ⟨n, hn⟩ := Lexer.exists_numeral ht hk
  have hread : Numeral.read t.text.toList = some n := by
    simpa only [numeral?, hk, beq_self_eq_true, if_true] using hn
  rw [integer?, hn, Option.bind_some]
  refine ⟨n, rfl, Numeral.literal_of_read hread, Numeral.integer?_of_exact hread,
    Numeral.integer?_eq_none, ?_⟩
  rintro negative d rfl
  exact Numeral.exists_rounded

/-- The least integer, one beyond it by an exponent, and two digits with a radix. -/
theorem integer?_literal_ends :
    (tokenize .document "-9223372036854775808 -9.3e18 0x7f").tokens.length = 3 ∧
      ∀ t ∈ (tokenize .document "-9223372036854775808 -9.3e18 0x7f").tokens, t.kind = .number ∧
        ∃ n, t.numeral? = some n ∧ Literal t.text.toList n.value ∧ n.HasInteger t.integer? := by
  have hnumbers : ∀ t ∈ (tokenize .document "-9223372036854775808 -9.3e18 0x7f").tokens,
      t.kind = .number := by decide +kernel
  exact ⟨by decide +kernel, fun t ht => ⟨hnumbers t ht, integer?_literal ht (hnumbers t ht)⟩⟩

/-- The least 64-bit integer is no integer if it is written with a radix. -/
theorem least_radix_not_integer :
    ¬∀ (symbols : SymbolSet) (text : String), ∀ t ∈ (tokenize symbols text).tokens,
      t.kind = .number → ∀ q, Literal t.text.toList q →
        ∀ v : ℤ, t.integer? = some v ↔ q = v ∧ -2 ^ 63 ≤ v ∧ v < 2 ^ 63 := by
  intro h
  have hleast : ∃ t ∈ (tokenize .document "-0x8000000000000000").tokens, t.kind = .number ∧
      t.text = "-0x8000000000000000" ∧ t.integer? = none := by decide +kernel
  obtain ⟨t, ht, hk, htext, hnone⟩ := hleast
  have hread : Numeral.read t.text.toList = some (.radix true integerBound) := by
    rw [htext]
    decide +kernel
  have hvalue : (Numeral.radix true integerBound).value = ((-2 ^ 63 : ℤ) : ℚ) := by
    rw [Numeral.value, signed_true, integerBound]
    norm_num
  have hsome := (h _ _ t ht hk _ (Numeral.literal_of_read hread) (-2 ^ 63)).2
    ⟨hvalue, by norm_num, by norm_num⟩
  rw [hnone] at hsome
  cases hsome

end Token

end MotionScript
