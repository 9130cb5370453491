import MotionScript.Proofs.Number.Written
import MotionScript.Proofs.Token.Literals
/-!
# Numbers of number tokens

Every number token has a number, unless it is written with a radix and its digits denote an integer
that is too large. Whether it is written with a radix is told by its text alone, as it was told by all
of the text from where the token starts.
-/

namespace MotionScript

/-! ## Literals -/

/-- Digits of a base behind a sign and the mark of the base, and the number that they denote. -/
inductive RadixLiteral : List Char → ℕ → Prop
  | mk {sign digits : List Char} {negative : Bool} {mark : Char} {base : ℕ}
    (hsign : Sign sign negative) (hbase : radixOf? mark = some base) (hne : digits ≠ [])
    (hdigits : ∀ c ∈ digits, isDigitOf base c = true) :
    RadixLiteral (sign ++ '0' :: mark :: digits) (placeValue base digits)

/-- Digits with a point in front of, between or behind them, behind a sign and in front of an
exponent. -/
inductive DecimalLiteral : List Char → Prop
  | mk {sign whole point fraction mark : List Char} {negative : Bool} {exponent : ℤ}
    (hsign : Sign sign negative) (hwhole : ∀ c ∈ whole, c.isDigit = true)
    (hpoint : Fraction point fraction) (hmark : Exponent mark exponent)
    (hne : whole ≠ [] ∨ fraction ≠ []) :
    DecimalLiteral (sign ++ (whole ++ (point ++ mark)))

theorem Sign.takeSign_append {sign body : List Char} {negative : Bool} (h : Sign sign negative)
    (hbody : ∀ c ∈ body.head?, c ≠ '-' ∧ c ≠ '+') :
    Decimal.takeSign (sign ++ body) = (negative, body) := by
  cases h with
  | plus => rfl
  | minus => rfl
  | none =>
    rw [List.nil_append, Decimal.takeSign.eq_def]
    split
    · exact absurd rfl (hbody '-' rfl).1
    · exact absurd rfl (hbody '+' rfl).2
    · rfl

/-- What goes on behind digits is no mark of a radix. -/
theorem radixOf?_head {whole point fraction mark : List Char} {exponent : ℤ}
    (hwhole : ∀ c ∈ whole, c.isDigit = true) (hpoint : Fraction point fraction)
    (hmark : Exponent mark exponent) :
    ∀ c ∈ (whole ++ (point ++ mark)).head?, radixOf? c = none := by
  cases whole with
  | cons c whole =>
    rintro _ ⟨⟩
    exact radixOf?_eq_none (.inl (hwhole c List.mem_cons_self))
  | nil =>
    cases hpoint with
    | point => rintro _ ⟨⟩; rfl
    | none =>
      cases hmark with
      | none => simp
      | marked hmark =>
        rintro _ ⟨⟩
        rcases hmark with rfl | rfl <;> rfl

namespace Lexer

theorem startsRadix_of_decimal {cs : List Char} (h : DecimalLiteral cs) : startsRadix cs = false := by
  obtain ⟨hsign, hwhole, hpoint, hmark, hne⟩ := h
  rename_i sign whole point fraction mark negative exponent
  -- A digit or the point comes first, and what follows it is no mark of a radix.
  suffices hbody : ∃ c rest, whole ++ (point ++ mark) = c :: rest ∧ (c.isDigit = true ∨ c = '.') ∧
      ∀ m ∈ rest.head?, radixOf? m = none by
    obtain ⟨c, rest, heq, hc, hrest⟩ := hbody
    rw [heq, startsRadix, hsign.takeSign_append, takeRadix_cons c hrest]
    · rfl
    · rintro _ ⟨⟩
      constructor <;> rintro rfl <;> revert hc <;> decide
  cases whole with
  | cons c whole =>
    exact ⟨c, _, rfl, .inl (hwhole c List.mem_cons_self),
      radixOf?_head (fun d hd => hwhole d (List.mem_cons_of_mem c hd)) hpoint hmark⟩
  | nil =>
    cases hpoint with
    | none => exact absurd rfl (hne.resolve_left (absurd rfl))
    | point hdigits => exact ⟨'.', _, rfl, .inr rfl, radixOf?_head hdigits .none hmark⟩

end Lexer

namespace Numeral

open Lexer (startsRadix startsRadix_of_decimal)

/-- What is read with a radix is a literal with a radix, and every one is read so. -/
theorem read_radix_iff {cs : List Char} {magnitude : ℕ} :
    (∃ negative, read cs = some (radix negative magnitude)) ↔ RadixLiteral cs magnitude := by
  constructor
  · rintro ⟨negative, h⟩
    obtain ⟨sign, mark, base, digits, rfl, hsign, hbase, hne, hdigits, rfl⟩ := radix_of_read h
    exact .mk hsign hbase hne hdigits
  · rintro ⟨hsign, hbase, hne, hdigits⟩
    rename_i sign digits negative mark base
    have hsign : Decimal.takeSign (sign ++ '0' :: mark :: digits) = (negative, '0' :: mark :: digits) :=
      hsign.takeSign_append (by rintro _ ⟨⟩; decide)
    refine ⟨negative, ?_⟩
    simp only [read, hsign, takeRadix, hbase, Option.map_some, List.isEmpty_eq_false_iff.2 hne,
      List.all_eq_true.2 hdigits, Bool.not_true, Bool.or_self, Bool.false_eq_true, if_false,
      ofDigitsIn_eq]

theorem isSome_toBinary?_radix {f : Format} {negative : Bool} {magnitude : ℕ} :
    ((radix negative magnitude).toBinary? f).isSome = true ↔ magnitude ≤ 2 ^ 63 - 1 := by
  rw [toBinary?, Option.isSome_map, signed?, apply_ite Option.isSome, integerBound]
  simp only [Option.isSome_some, Option.isSome_none, Bool.if_false_right, Bool.and_true,
    decide_eq_true_eq]
  omega

theorem startsRadix_of_read {cs : List Char} {n : Numeral} (h : read cs = some n) :
    startsRadix cs = n.isRadix := by
  simp only [read] at h
  split at h
  · rename_i hradix
    split at h
    · cases h
    · rw [startsRadix, hradix, ← Option.some.inj h]
      rfl
  · rename_i hradix
    obtain ⟨d, -, rfl⟩ := Option.map_eq_some_iff.1 h
    rw [startsRadix, hradix]
    rfl

end Numeral

/-! ## Tokens -/

namespace Token

open Lexer (tokenize startsRadix)

/-- The numbers of a token that is taken for a literal with a radix or for a decimal. -/
structure HasNumbers (t : Token) (radix : Bool) : Prop where
  /-- The text of the token is taken as all of the text was. -/
  recognised : startsRadix t.text.toList = radix
  radixLiteral : (∃ m, RadixLiteral t.text.toList m) ↔ radix = true
  decimalLiteral : DecimalLiteral t.text.toList ↔ radix = false
  inRange : ∀ m, RadixLiteral t.text.toList m →
    (t.double?.isSome = true ↔ m ≤ 2 ^ 63 - 1) ∧ (t.single?.isSome = true ↔ m ≤ 2 ^ 63 - 1)
  always : DecimalLiteral t.text.toList → t.double?.isSome = true ∧ t.single?.isSome = true

theorem hasNumbers_of_read {t : Token} {n : Numeral} (hn : t.numeral? = some n)
    (h : Numeral.read t.text.toList = some n) : t.HasNumbers n.isRadix := by
  have hstarts := Numeral.startsRadix_of_read h
  have hdouble : t.double? = n.toBinary? .double := by rw [double?, hn, Option.bind_some]
  have hsingle : t.single? = n.toBinary? .single := by rw [single?, hn, Option.bind_some]
  cases n with
  | radix negative magnitude =>
    have hnone : ¬DecimalLiteral t.text.toList := fun hd =>
      Bool.false_ne_true ((Lexer.startsRadix_of_decimal hd).symm.trans hstarts)
    refine ⟨hstarts, iff_of_true ⟨magnitude, Numeral.read_radix_iff.1 ⟨negative, h⟩⟩ rfl,
      iff_of_false hnone Bool.false_ne_true.symm, fun m hm => ?_, fun hd => absurd hd hnone⟩
    -- The text is read in one way only, so its digits denote one number.
    obtain ⟨negative', hm⟩ := Numeral.read_radix_iff.2 hm
    obtain ⟨-, rfl⟩ := (Numeral.radix.injEq ..).mp (Option.some.inj (h.symm.trans hm))
    rw [hdouble, hsingle]
    exact ⟨Numeral.isSome_toBinary?_radix, Numeral.isSome_toBinary?_radix⟩
  | decimal negative d all =>
    have hnone : ∀ m, ¬RadixLiteral t.text.toList m := fun m hm => by
      obtain ⟨negative', hm⟩ := Numeral.read_radix_iff.2 hm
      cases h.symm.trans hm
    obtain ⟨sign, whole, point, fraction, mark, exponent, htext, hsign, hwhole, hpoint, hmark, hne,
      -⟩ := Numeral.decimal_of_read h
    refine ⟨hstarts, iff_of_false (fun ⟨m, hm⟩ => hnone m hm) Bool.false_ne_true,
      iff_of_true (htext ▸ .mk hsign hwhole hpoint hmark hne) rfl,
      fun m hm => absurd hm (hnone m), fun _ => ?_⟩
    rw [hdouble, hsingle]
    exact ⟨rfl, rfl⟩

/-- Every number token has its numbers, as the literal that the lexer took it for. -/
theorem number_hasNumbers {symbols : SymbolSet} {text : String} {t : Token}
    (ht : t ∈ (tokenize symbols text).tokens) (hk : t.kind = .number) :
    ∃ front rest, text.toList = front ++ (t.text.toList ++ rest) ∧ t.span.start = byteSize front ∧
      t.HasNumbers (startsRadix (t.text.toList ++ rest)) := by
  obtain ⟨front, rest, n, hsource, hstart, hn, hradix⟩ := Lexer.exists_numeral_at ht hk
  have hread : Numeral.read t.text.toList = some n := by
    simpa only [numeral?, hk, beq_self_eq_true, if_true] using hn
  exact ⟨front, rest, hsource, hstart, hradix ▸ hasNumbers_of_read hn hread⟩

/-- An integer one too large for its radix, the largest one, and decimals that look like a radix. -/
theorem number_hasNumbers_signed :
    (tokenize .document "-0x8000000000000000 +0x7fffffffffffffff 0b101 +.5e3 0.e-0").tokens.map
        (fun t => (t.double?.isSome, t.single?.isSome)) =
      [(false, false), (true, true), (true, true), (true, true), (true, true)] ∧
    ∀ t ∈ (tokenize .document "-0x8000000000000000 +0x7fffffffffffffff 0b101 +.5e3 0.e-0").tokens,
      t.kind = .number ∧ ∃ front rest,
        "-0x8000000000000000 +0x7fffffffffffffff 0b101 +.5e3 0.e-0".toList =
          front ++ (t.text.toList ++ rest) ∧
        t.span.start = byteSize front ∧ t.HasNumbers (startsRadix (t.text.toList ++ rest)) := by
  have hnumbers : ∀ t ∈ (tokenize .document
      "-0x8000000000000000 +0x7fffffffffffffff 0b101 +.5e3 0.e-0").tokens, t.kind = .number := by
    decide +kernel
  exact ⟨by decide +kernel, fun t ht => ⟨hnumbers t ht, number_hasNumbers ht (hnumbers t ht)⟩⟩

end Token

end MotionScript
