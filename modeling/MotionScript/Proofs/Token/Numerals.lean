import MotionScript.Proofs.Number.Nearest
import MotionScript.Proofs.Token.Layout
/-!
# Numerals of number tokens

Every number token is a numeral: what the lexer takes for one by looking ahead is read as one from its
text alone.
-/

namespace MotionScript

namespace Decimal

/-- A sign is read alike in front of a part of what follows it. -/
theorem exists_sign (cs : List Char) : ∃ sign, cs = sign ++ (takeSign cs).2 ∧
    ∀ part rest, (takeSign cs).2 = part ++ rest → takeSign (sign ++ part) = ((takeSign cs).1, part) := by
  rw [takeSign.eq_def]
  split
  · exact ⟨['-'], rfl, fun _ _ _ => rfl⟩
  · exact ⟨['+'], rfl, fun _ _ _ => rfl⟩
  · rename_i cs hminus hplus
    refine ⟨[], rfl, fun part rest hpart => ?_⟩
    dsimp only at hpart
    cases part with
    | nil => rfl
    | cons c part =>
      rw [List.nil_append, takeSign]
      · rintro tail heq
        cases heq
        exact hminus _ hpart
      · rintro tail heq
        cases heq
        exact hplus _ hpart

end Decimal

/-- Whether a numeral is written with a radix. -/
def Numeral.isRadix : Numeral → Bool
  | radix .. => true
  | decimal .. => false

namespace Lexer

/-- The fraction in front of what follows it, read alike in front of an exponent. -/
theorem exists_fraction (cs : List Char) : ∃ part fraction, cs = part ++ afterFraction cs ∧
    (∀ c ∈ part.head?, c = '.') ∧
    (∀ mark : List Char, (∀ c ∈ mark.head?, c.isDigit = false ∧ c ≠ '.') →
      Decimal.takeFraction (part ++ mark) = (fraction, mark)) ∧
    (fraction = [] → ∀ c rest, cs = '.' :: c :: rest → c.isDigit = false) := by
  rw [afterFraction.eq_def]
  split
  · rename_i rest
    have hdigits : ∀ c ∈ rest.takeWhile Char.isDigit, c.isDigit = true :=
      List.all_eq_true.1 List.all_takeWhile
    refine ⟨'.' :: rest.takeWhile Char.isDigit, rest.takeWhile Char.isDigit, ?_, by simp,
      fun mark hmark => ?_, ?_⟩
    · rw [List.cons_append, List.takeWhile_append_dropWhile]
    · exact Decimal.Positional.span_digits hdigits mark fun c hc => (hmark c hc).1
    · rintro hnone c rest' heq
      obtain rfl := (List.cons.inj heq).2
      by_contra hc
      rw [List.takeWhile_cons, if_pos (Bool.not_eq_false _ ▸ hc)] at hnone
      cases hnone
  · rename_i hpoint
    refine ⟨[], [], rfl, by simp, fun mark hmark => ?_, fun _ c rest heq => absurd heq (hpoint _)⟩
    rw [List.nil_append, Decimal.takeFraction.eq_def]
    split
    · exact absurd rfl (hmark '.' rfl).2
    · rfl

/-- The exponent in front of what follows it. -/
theorem exists_exponent (cs : List Char) : ∃ part, cs = part ++ afterExponent cs ∧
    (∃ exponent, Decimal.readExponent part = some exponent) ∧
      ∀ c ∈ part.head?, c = 'e' ∨ c = 'E' := by
  unfold afterExponent
  split
  · rename_i hstarts
    cases cs with
    | nil => cases hstarts
    | cons e cs =>
      simp only [startsExponent, Bool.and_eq_true, Bool.or_eq_true, beq_iff_eq] at hstarts
      obtain ⟨he, hdigit⟩ := hstarts
      obtain ⟨sign, hcs, hsign⟩ := Decimal.exists_sign cs
      generalize hu : (Decimal.takeSign cs).2 = u at hdigit hcs hsign
      have hsplit := List.takeWhile_append_dropWhile (p := Char.isDigit) (l := u)
      refine ⟨e :: (sign ++ u.takeWhile Char.isDigit), ?_, ?_, ?_⟩
      · rw [List.tail_cons, hu, List.cons_append, List.append_assoc, hsplit, ← hcs]
      · have hne : (u.takeWhile Char.isDigit).isEmpty = false := by
          cases u with
          | nil => cases hdigit
          | cons c u => simp only [startsDigit] at hdigit; simp [hdigit]
        have hall : (u.takeWhile Char.isDigit).all Char.isDigit = true := List.all_takeWhile
        simp only [Decimal.readExponent, if_pos he, hsign _ _ hsplit.symm, hne, hall, Bool.not_true,
          Bool.or_self, Bool.false_eq_true, if_false]
        exact ⟨_, rfl⟩
      · rintro c hc
        cases hc
        exact he
  · exact ⟨[], rfl, ⟨0, rfl⟩, by simp⟩

/-- What starts like a numeral without a digit has a point and a digit behind it. -/
theorem startsUnsigned_point {cs : List Char} (hs : startsUnsigned cs = true)
    (hnone : cs.takeWhile Char.isDigit = []) : ∃ c rest, cs = '.' :: c :: rest ∧ c.isDigit = true := by
  unfold startsUnsigned at hs
  split at hs
  · rename_i rest
    cases rest with
    | nil => cases hs
    | cons c rest => exact ⟨c, rest, rfl, hs⟩
  · cases cs with
    | nil => cases hs
    | cons c cs =>
      rw [startsDigit] at hs
      simp [hs] at hnone

/-- What is taken for the unsigned part of a decimal is read as one. -/
theorem exists_unsigned {cs : List Char} (hs : startsUnsigned cs = true) :
    ∃ part, cs = part ++ afterExponent (afterFraction (cs.dropWhile Char.isDigit)) ∧
      ∃ d, Decimal.readUnsigned part = some d := by
  have hsplit := List.takeWhile_append_dropWhile (p := Char.isDigit) (l := cs)
  have hwhole : ∀ c ∈ cs.takeWhile Char.isDigit, c.isDigit = true :=
    List.all_eq_true.1 List.all_takeWhile
  obtain ⟨point, fraction, hpoint, hdot, htake, hfraction⟩ :=
    exists_fraction (cs.dropWhile Char.isDigit)
  obtain ⟨mark, hmark, ⟨exponent, hexponent⟩, hhead⟩ :=
    exists_exponent (afterFraction (cs.dropWhile Char.isDigit))
  have hdigit : ∀ c ∈ mark.head?, c.isDigit = false ∧ c ≠ '.' := fun c hc => by
    rcases hhead c hc with rfl | rfl <;> decide
  refine ⟨cs.takeWhile Char.isDigit ++ (point ++ mark), ?_, ?_⟩
  · rw [List.append_assoc, List.append_assoc, ← hmark, ← hpoint, hsplit]
  have hnext : ∀ c ∈ (point ++ mark).head?, c.isDigit = false := by
    cases point with
    | nil => exact fun c hc => (hdigit c hc).1
    | cons c point =>
      rintro _ ⟨⟩
      rw [hdot c rfl]
      rfl
  have hempty : ((cs.takeWhile Char.isDigit).isEmpty && fraction.isEmpty) = false := by
    rw [Bool.eq_false_iff, ne_eq, Bool.and_eq_true, List.isEmpty_iff, List.isEmpty_iff]
    rintro ⟨hnone, hempty⟩
    obtain ⟨c, rest, hcs, hc⟩ := startsUnsigned_point hs hnone
    rw [hnone, List.nil_append] at hsplit
    rw [hfraction hempty c rest (hsplit.trans hcs)] at hc
    cases hc
  rw [Decimal.readUnsigned, Decimal.Positional.span_digits hwhole _ hnext]
  simp only [htake mark hdigit, hexponent, hempty, Bool.false_eq_true, if_false]
  exact ⟨_, rfl⟩

/-- The digits behind the mark of a radix, in front of what follows them. -/
theorem exists_radix {cs body : List Char} {base : ℕ}
    (h : Numeral.takeRadix cs = some (base, body))
    (hlength : (body.dropWhile (isDigitOf base)).length ≠ body.length) :
    ∃ part digits, cs = part ++ body.dropWhile (isDigitOf base) ∧
      Numeral.takeRadix part = some (base, digits) ∧ digits ≠ [] ∧
        digits.all (isDigitOf base) = true := by
  have hsplit := List.takeWhile_append_dropWhile (p := isDigitOf base) (l := body)
  unfold Numeral.takeRadix at h
  split at h
  · rename_i mark digits
    obtain ⟨b, hb, heq⟩ := Option.map_eq_some_iff.1 h
    cases heq
    refine ⟨'0' :: mark :: body.takeWhile (isDigitOf base), body.takeWhile (isDigitOf base), ?_, ?_,
      fun hnone => ?_, List.all_takeWhile⟩
    · rw [List.cons_append, List.cons_append, hsplit]
    · rw [Numeral.takeRadix, hb, Option.map_some]
    · rw [hnone, List.nil_append] at hsplit
      exact hlength (congrArg List.length hsplit)
  · cases h

/-- The mark of a radix stands in a text as it does in its first part. -/
theorem takeRadix_eq_none {part rest : List Char} (h : Numeral.takeRadix (part ++ rest) = none) :
    Numeral.takeRadix part = none := by
  by_contra hsome
  unfold Numeral.takeRadix at hsome
  split at hsome
  · rename_i mark digits
    rw [List.cons_append, List.cons_append, Numeral.takeRadix, Option.map_eq_none_iff] at h
    rw [h] at hsome
    exact hsome rfl
  · exact hsome rfl

/-- Whether the mark of a radix is read at the head of a text, behind a sign. -/
def startsRadix (cs : List Char) : Bool := (Numeral.takeRadix (Decimal.takeSign cs).2).isSome

/-- What is taken for a numeral is read as one from its text alone, with a radix exactly if one was
read there. -/
theorem exists_read {cs rest : List Char} (hs : startsUnsigned (Decimal.takeSign cs).2 = true)
    (h : afterNumber cs = .ok rest) :
    ∃ n, Numeral.read (taken cs rest) = some n ∧ n.isRadix = startsRadix cs := by
  obtain ⟨sign, hcs, hsign⟩ := Decimal.exists_sign cs
  simp only [afterNumber] at h
  rw [startsRadix]
  generalize (Decimal.takeSign cs).2 = u at hcs hsign h hs
  suffices hpart : ∃ part n, u = part ++ rest ∧ Numeral.read (sign ++ part) = some n ∧
      n.isRadix = (Numeral.takeRadix u).isSome by
    obtain ⟨part, n, rfl, hread, hradix⟩ := hpart
    refine ⟨n, ?_, hradix⟩
    rw [hcs, ← List.append_assoc, taken, List.length_append, Nat.add_sub_cancel, List.take_left,
      hread]
  cases hradix : Numeral.takeRadix u with
  | some x =>
    obtain ⟨base, body⟩ := x
    simp only [hradix] at h
    split at h
    · cases h
    · rename_i hcond
      obtain rfl := Except.ok.inj h
      rw [Bool.or_eq_true, not_or, decide_eq_true_iff] at hcond
      obtain ⟨part, digits, hu, htake, hne, hall⟩ := exists_radix hradix hcond.1
      refine ⟨part, .radix (Decimal.takeSign cs).1 (ofDigitsIn base digits), hu, ?_, rfl⟩
      simp only [Numeral.read, hsign _ _ hu, htake, List.isEmpty_eq_false_iff.2 hne, hall,
        Bool.not_true, Bool.or_self, Bool.false_eq_true, if_false]
  | none =>
    simp only [hradix, Except.ok.injEq] at h
    obtain ⟨part, hu, d, hd⟩ := exists_unsigned hs
    rw [h] at hu
    refine ⟨part, .decimal (Decimal.takeSign cs).1 d (part.all Char.isDigit), hu, ?_, rfl⟩
    simp only [Numeral.read, hsign _ _ hu, takeRadix_eq_none (hu ▸ hradix), hd, Option.map_some]

/-- Every number token is a numeral, with a radix exactly if one is read where the token starts. -/
theorem exists_numeral_at {symbols : SymbolSet} {text : String} {t : Token}
    (ht : t ∈ (tokenize symbols text).tokens) (hk : t.kind = .number) :
    ∃ front rest n, text.toList = front ++ (t.text.toList ++ rest) ∧
      t.span.start = byteSize front ∧ t.numeral? = some n ∧
        n.isRadix = startsRadix (t.text.toList ++ rest) := by
  obtain ⟨front, body, rest, hsource, hstart, hlexeme⟩ := exists_lexeme ht
  have htext : t.text.toList = taken body rest := lexeme_asWritten hlexeme (.inl hk)
  have hbody : t.text.toList ++ rest = body := htext ▸ taken_append_rest (lexeme_suffix hlexeme)
  suffices hread : ∃ n, t.numeral? = some n ∧ n.isRadix = startsRadix body by
    obtain ⟨n, hn, hradix⟩ := hread
    exact ⟨front, rest, n, hbody ▸ hsource, by rw [hstart, Nat.zero_add], hn, hbody ▸ hradix⟩
  rw [hk] at hlexeme
  cases body with
  | nil => cases (decoded_eq_ok.1 hlexeme).1
  | cons c body =>
    simp only [lexeme] at hlexeme
    split at hlexeme
    · cases (decoded_eq_ok.1 hlexeme).1
    split at hlexeme
    · cases (decoded_eq_ok.1 hlexeme).1
    split at hlexeme
    · rename_i hnumber
      cases hafter : afterNumber (c :: body) with
      | error stuck => rw [hafter] at hlexeme; cases hlexeme
      | ok after =>
        rw [hafter] at hlexeme
        obtain rfl : after = rest := congrArg Lexeme.rest (Except.ok.inj hlexeme)
        simp only [Token.numeral?, hk, beq_self_eq_true, if_true, htext]
        exact exists_read (startsNumber_takeSign hnumber) hafter
    split at hlexeme
    · cases hlexeme
    · cases (decoded_eq_ok.1 hlexeme).1

/-- Every number token is a numeral. -/
theorem exists_numeral {symbols : SymbolSet} {text : String} {t : Token}
    (ht : t ∈ (tokenize symbols text).tokens) (hk : t.kind = .number) :
    ∃ n, t.numeral? = some n := by
  obtain ⟨-, -, n, -, -, hn, -⟩ := exists_numeral_at ht hk
  exact ⟨n, hn⟩

end Lexer

end MotionScript
