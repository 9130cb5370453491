import MotionScript.Proofs.Token.Spelling
/-!
# Boundaries of tokens

A token ends where it ends whatever follows, as long as what follows cannot continue it: no word,
no escape and no numeral.
-/

namespace MotionScript

open Text

/-! ## Characters of words -/

theorem identifier_of_alphanum {c : Char} (h : c.isAlphanum = true) :
    isIdentifierChar c = true := by
  have hlow : c.toNat < 128 := by
    have hletters : (c.isUpper || c.isLower || c.isDigit) = true := h
    simp only [Bool.or_eq_true] at hletters
    rcases hletters with (hu | hl) | hd
    · have hupper : 65 ≤ c.toNat ∧ c.toNat ≤ 90 := of_decide_eq_true hu
      omega
    · have hlower : c.toNat ≤ 122 := of_decide_eq_true (Bool.and_eq_true_iff.1 hl).2
      omega
    · have hdigit : c.toNat ≤ 57 := of_decide_eq_true (Bool.and_eq_true_iff.1 hd).2
      omega
  simp [isIdentifierChar, isAlphanumeric, hlow, h]

theorem identifier_of_lower {c : Char} (h : c.toLower.isLower = true) :
    isIdentifierChar c = true := by
  refine identifier_of_alphanum ?_
  unfold Char.toLower at h
  split at h
  · rename_i hu
    have hupper : c.isUpper = true := decide_eq_true hu
    show (c.isUpper || c.isLower || c.isDigit) = true
    rw [hupper, Bool.true_or, Bool.true_or]
  · show (c.isUpper || c.isLower || c.isDigit) = true
    rw [h, Bool.or_true, Bool.true_or]

theorem identifier_of_isDigitOf {base : Nat} {c : Char} (h : isDigitOf base c = true) :
    isIdentifierChar c = true := by
  simp only [isDigitOf, Bool.and_eq_true, Bool.or_eq_true, decide_eq_true_eq] at h
  rcases h.1 with hd | ⟨ha, hf⟩
  · exact identifier_of_digit hd
  · refine identifier_of_lower ?_
    exact Bool.and_eq_true_iff.2
      ⟨decide_eq_true ha, decide_eq_true (UInt32.le_trans hf (by decide))⟩

theorem identifier_of_radixOf {c : Char} {base : Nat} (h : radixOf? c = some base) :
    isIdentifierChar c = true := by
  refine identifier_of_lower ?_
  unfold radixOf? at h
  split at h
  all_goals first | (rename_i hc; rw [hc]; rfl) | cases h

/-- Whether no symbol is a character that only separates tokens. -/
def SymbolSet.Proper (symbols : SymbolSet) : Prop :=
  ∀ c, symbols.contains c = true → isSeparator c = false

theorem SymbolSet.Proper.document : SymbolSet.document.Proper := fun c hc =>
  Form.not_separator (f := .symbol c) hc c rfl

namespace Lexer

/-! ## What is left -/

theorem numericEscape_suffix {leading : List Char} {limit base : Nat} {cs rest : List Char}
    {c : Char} (h : numericEscape leading limit base cs = .ok (c, rest)) : rest <:+ cs := by
  unfold numericEscape at h
  simp only at h
  split at h
  · cases h
  · split at h
    · cases h; exact List.drop_suffix _ _
    · cases h

theorem escape_suffix {cs rest : List Char} {c : Char} (h : escape cs = .ok (c, rest)) :
    rest <:+ cs := by
  cases cs with
  | nil => cases h
  | cons d cs =>
    refine List.IsSuffix.trans ?_ (List.suffix_cons d cs)
    simp only [escape] at h
    split at h
    · cases h; exact List.suffix_rfl
    split at h
    · exact numericEscape_suffix h
    split at h
    · exact numericEscape_suffix h
    split at h
    · exact numericEscape_suffix h
    split at h
    · exact numericEscape_suffix h
    split at h
    · exact numericEscape_suffix h
    · cases h; exact List.suffix_rfl

theorem quoted_suffix {quote : Char} {cs text rest : List Char}
    (h : quoted quote cs = .ok (text, rest)) : rest <:+ cs := by
  fun_induction quoted quote cs generalizing text with
  | case1 => cases h
  | case2 => cases h; exact List.suffix_cons _ _
  | case3 => cases h
  | case4 r decoded r' he _ ih =>
    obtain ⟨tail, ht, _⟩ := Reading.cons_eq_ok.1 h
    exact (ih ht).trans ((escape_suffix he).trans (List.suffix_cons _ _))
  | case5 c r _ _ ih =>
    obtain ⟨tail, ht, _⟩ := Reading.cons_eq_ok.1 h
    exact (ih ht).trans (List.suffix_cons _ _)

theorem identifierTail_suffix {cs text rest : List Char}
    (h : identifierTail cs = .ok (text, rest)) : rest <:+ cs := by
  fun_induction identifierTail cs generalizing text with
  | case1 => cases h; exact List.suffix_rfl
  | case2 c r _ ih =>
    obtain ⟨tail, ht, _⟩ := Reading.cons_eq_ok.1 h
    exact (ih ht).trans (List.suffix_cons _ _)
  | case3 => cases h
  | case4 r decoded r' he _ ih =>
    obtain ⟨tail, ht, _⟩ := Reading.cons_eq_ok.1 h
    exact (ih ht).trans ((escape_suffix he).trans (List.suffix_cons _ _))
  | case5 => cases h; exact List.suffix_rfl

theorem takeSign_suffix (cs : List Char) : (Decimal.takeSign cs).2 <:+ cs := by
  unfold Decimal.takeSign
  split
  · exact List.suffix_cons _ _
  · exact List.suffix_cons _ _
  · exact List.suffix_rfl

theorem afterFraction_suffix (cs : List Char) : afterFraction cs <:+ cs := by
  unfold afterFraction
  split
  · exact (List.dropWhile_suffix _).trans (List.suffix_cons _ _)
  · exact List.suffix_rfl

theorem afterExponent_suffix (cs : List Char) : afterExponent cs <:+ cs := by
  unfold afterExponent
  split
  · exact (List.dropWhile_suffix _).trans ((takeSign_suffix _).trans (List.tail_suffix cs))
  · exact List.suffix_rfl

theorem afterNumber_suffix {cs rest : List Char} (h : afterNumber cs = .ok rest) :
    rest <:+ cs := by
  unfold afterNumber at h
  simp only at h
  split at h
  · rename_i base body hr
    have hbody : body <:+ (Decimal.takeSign cs).2 := by
      unfold Numeral.takeRadix at hr
      split at hr
      · rename_i hcs
        obtain ⟨b, _, hb⟩ := Option.map_eq_some_iff.1 hr
        cases hb
        rw [hcs]
        exact (List.suffix_cons _ _).trans (List.suffix_cons _ _)
      · cases hr
    split at h
    · cases h
    · cases h
      exact (List.dropWhile_suffix _).trans (hbody.trans (takeSign_suffix cs))
  · cases h
    exact (afterExponent_suffix _).trans ((afterFraction_suffix _).trans
      ((List.dropWhile_suffix _).trans (takeSign_suffix cs)))

theorem afterSymbols_suffix (symbols : SymbolSet) (cs : List Char) :
    afterSymbols symbols cs <:+ cs := by
  induction cs with
  | nil => exact List.suffix_rfl
  | cons c cs ih =>
    unfold afterSymbols
    split
    · exact List.suffix_rfl
    · exact ih.trans (List.suffix_cons _ _)

/-- What a token leaves is the end of the text. -/
theorem lexeme_suffix {symbols : SymbolSet} {cs : List Char} {l : Lexeme}
    (h : lexeme symbols cs = .ok l) : l.rest <:+ cs := by
  cases cs with
  | nil => cases h
  | cons c cs =>
    simp only [lexeme] at h
    split at h
    · exact (quoted_suffix (decoded_eq_ok.1 h).2).trans (List.suffix_cons _ _)
    split at h
    · exact (quoted_suffix (decoded_eq_ok.1 h).2).trans (List.suffix_cons _ _)
    split at h
    · cases ha : afterNumber (c :: cs) with
      | error stuck => rw [ha] at h; cases h
      | ok rest => rw [ha] at h; cases h; exact afterNumber_suffix ha
    split at h
    · cases h
      exact (afterSymbols_suffix _ _).trans (List.suffix_cons _ _)
    · have hi := (decoded_eq_ok.1 h).2
      simp only [identifier] at hi
      split at hi
      · exact identifierTail_suffix hi
      · obtain ⟨tail, ht, _⟩ := Reading.cons_eq_ok.1 hi
        exact (identifierTail_suffix ht).trans (List.suffix_cons _ _)

/-! ## Boundaries -/

/-- Whether a text continues no token in front of it that does not end in a point. -/
structure Cuts (z : List Char) : Prop where
  noNumber : startsNumber z = false
  noWord : ∀ c ∈ z.head?, isIdentifierChar c = false ∧ c ≠ '\\'

namespace Cuts

variable {z : List Char}

theorem nil : Cuts [] := ⟨rfl, by simp⟩

theorem separator {c : Char} (h : isSeparator c = true) (cs : List Char) : Cuts (c :: cs) := by
  have hword : isIdentifierChar c = false := by
    by_contra hc
    rw [isSeparator_of_identifier (Bool.not_eq_false _ ▸ hc)] at h
    cases h
  have hdigit : c.isDigit = false := by
    by_contra hd
    rw [identifier_of_digit (Bool.not_eq_false _ ▸ hd)] at hword
    cases hword
  refine ⟨?_, fun d hd => ?_⟩
  · have hu : startsUnsigned (c :: cs) = false := startsUnsigned_eq_false fun d hd => by
      cases hd
      exact ⟨hdigit, by rintro rfl; cases h⟩
    have hplus : c ≠ '+' := by rintro rfl; cases h
    have hminus : c ≠ '-' := by rintro rfl; cases h
    simpa [startsNumber, hplus, hminus] using hu
  · cases hd
    exact ⟨hword, by rintro rfl; cases h⟩

theorem not_decimal (h : Cuts z) : ∀ c ∈ z.head?, c.isDigit = false := by
  intro c hc
  by_contra hd
  have := (h.noWord c hc).1
  rw [identifier_of_digit (Bool.not_eq_false _ ▸ hd)] at this
  cases this

theorem not_digit (h : Cuts z) {base : Nat} : ∀ c ∈ z.head?, isDigitOf base c = false := by
  intro c hc
  by_contra hd
  have := (h.noWord c hc).1
  rw [identifier_of_isDigitOf (Bool.not_eq_false _ ▸ hd)] at this
  cases this

theorem startsDigit_eq (h : Cuts z) : startsDigit z = false := by
  cases z with
  | nil => rfl
  | cons c z => exact h.not_decimal c rfl

theorem startsUnsigned_eq (h : Cuts z) : startsUnsigned z = false := by
  have hn := h.noNumber
  unfold startsNumber at hn
  split at hn
  · exact h.startsDigit_eq
  · exact h.startsDigit_eq
  · exact hn

theorem head_word (h : Cuts z) (a : List Char) :
    (a ++ z).head?.any isIdentifierChar = a.head?.any isIdentifierChar := by
  cases a with
  | nil =>
    cases z with
    | nil => rfl
    | cons c z => exact (h.noWord c rfl).1
  | cons => rfl

end Cuts

variable {z z' : List Char}

theorem startsDigit_cut (h : Cuts z) (a : List Char) :
    startsDigit (a ++ z) = startsDigit a := by
  cases a with
  | nil => exact h.startsDigit_eq
  | cons => rfl

theorem startsUnsigned_cut (h : Cuts z) (a : List Char) :
    startsUnsigned (a ++ z) = startsUnsigned a := by
  cases a with
  | nil => exact h.startsUnsigned_eq
  | cons c a =>
    by_cases hc : c = '.'
    · subst hc
      exact startsDigit_cut h a
    · simp [startsUnsigned, hc, startsDigit]

theorem startsNumber_cut (h : Cuts z) (a : List Char) :
    startsNumber (a ++ z) = startsNumber a := by
  cases a with
  | nil => exact h.noNumber
  | cons c a =>
    by_cases hp : c = '+'
    · subst hp
      exact startsUnsigned_cut h a
    · by_cases hm : c = '-'
      · subst hm
        exact startsUnsigned_cut h a
      · have hc := startsUnsigned_cut h (c :: a)
        simpa [startsNumber, hp, hm] using hc

/-! ## Numerals -/

theorem takeSign_cut {c : Char} {a : List Char} :
    Decimal.takeSign (c :: a ++ z) =
      ((Decimal.takeSign (c :: a)).1, (Decimal.takeSign (c :: a)).2 ++ z) := by
  by_cases hp : c = '+'
  · subst hp; rfl
  · by_cases hm : c = '-'
    · subst hm; rfl
    · simp [Decimal.takeSign, hp, hm]

theorem dropWhile_cut {p : Char → Bool} (h : ∀ c ∈ z.head?, p c = false) (a : List Char) :
    (a ++ z).dropWhile p = a.dropWhile p ++ z := by
  have hz : z.dropWhile p = z := by
    cases z with
    | nil => rfl
    | cons c z => rw [List.dropWhile_cons, h c rfl]; rfl
  rw [List.dropWhile_append, hz]
  split
  · rename_i he
    rw [List.isEmpty_iff.1 he, List.nil_append]
  · rfl

theorem takeRadix_cut (h : Cuts z) {a : List Char} (ha : a ≠ []) :
    Numeral.takeRadix (a ++ z) =
      (Numeral.takeRadix a).map fun (base, body) => (base, body ++ z) := by
  match a, ha with
  | [c], _ =>
    have hradix : ∀ d ∈ z.head?, radixOf? d = none := by
      intro d hd
      by_contra hr
      obtain ⟨base, hr⟩ := Option.ne_none_iff_exists'.1 hr
      have := (h.noWord d hd).1
      rw [identifier_of_radixOf hr] at this
      cases this
    by_cases hc : c = '0'
    · subst hc
      cases z with
      | nil => rfl
      | cons d z => simp [Numeral.takeRadix, hradix d rfl]
    · simp [Numeral.takeRadix, hc]
  | c :: d :: a, _ =>
    by_cases hc : c = '0'
    · subst hc
      simp only [List.cons_append, Numeral.takeRadix, Option.map_map]
      rfl
    · simp [Numeral.takeRadix, hc]

theorem startsDigit_of_unsigned {cs : List Char} (h : startsUnsigned cs = false) :
    startsDigit cs = false := by
  unfold startsUnsigned at h
  split at h
  · rfl
  · exact h

/-- No exponent goes on behind its letter or its sign. -/
theorem Cuts.exponent (h : Cuts z) : startsDigit (Decimal.takeSign z).2 = false := by
  have hn := h.noNumber
  unfold startsNumber at hn
  unfold Decimal.takeSign
  split at hn
  · exact startsDigit_of_unsigned hn
  · exact startsDigit_of_unsigned hn
  · rename_i hplus hminus
    split
    · exact absurd rfl (hminus _)
    · exact absurd rfl (hplus _)
    · exact startsDigit_of_unsigned hn

theorem exponentSign_cut (h : Cuts z) (a : List Char) :
    startsDigit (Decimal.takeSign (a ++ z)).2 = startsDigit (Decimal.takeSign a).2 := by
  cases a with
  | nil => exact h.exponent
  | cons c a => rw [takeSign_cut]; exact startsDigit_cut h _

theorem startsExponent_cut (h : Cuts z) (a : List Char) :
    startsExponent (a ++ z) = startsExponent a := by
  cases a with
  | nil =>
    cases z with
    | nil => rfl
    | cons c z =>
      have hc := (h.noWord c rfl).1
      have he : c ≠ 'e' ∧ c ≠ 'E' := by constructor <;> (rintro rfl; cases hc)
      simp [startsExponent, he]
  | cons c a => simp only [List.cons_append, startsExponent, exponentSign_cut h]

theorem afterExponent_cut (h : Cuts z) (a : List Char) :
    afterExponent (a ++ z) = afterExponent a ++ z := by
  rw [afterExponent, afterExponent, startsExponent_cut h]
  split
  · rename_i he
    match a, he with
    | c :: [], he => simp [startsExponent, startsDigit, Decimal.takeSign] at he
    | c :: d :: a, _ =>
      rw [List.cons_append, List.tail_cons, takeSign_cut]
      exact dropWhile_cut h.not_decimal _
  · rfl

/-- A point goes on from the digits right in front of it. -/
theorem afterFraction_cut (h : Cuts z) {a : List Char} (ha : a ≠ [] ∨ z.head? ≠ some '.') :
    afterFraction (a ++ z) = afterFraction a ++ z := by
  cases a with
  | nil =>
    have hz := ha.resolve_left (by simp)
    cases z with
    | nil => rfl
    | cons c z =>
      have hc : c ≠ '.' := by simpa using hz
      simp [afterFraction, hc]
  | cons c a =>
    by_cases hc : c = '.'
    · subst hc
      exact dropWhile_cut h.not_decimal a
    · simp [afterFraction, hc]

/-- If the numeral in front of `z` ends there, it ends in front of `z'`, too. -/
theorem afterNumber_cut (h : Cuts z) (h' : Cuts z')
    (hpoint : z'.head? = some '.' → z.head? = some '.') {c : Char} {a d : List Char}
    (hs : startsNumber (c :: a) = true) (hr : afterNumber (c :: a ++ z) = .ok (d ++ z)) :
    afterNumber (c :: a ++ z') = .ok (d ++ z') := by
  have hne : (Decimal.takeSign (c :: a)).2 ≠ [] := by
    intro hnil
    have hu := startsNumber_takeSign hs
    rw [hnil] at hu
    cases hu
  simp only [afterNumber, takeSign_cut] at hr ⊢
  generalize (Decimal.takeSign (c :: a)).2 = u at hne hr ⊢
  rw [takeRadix_cut h hne] at hr
  rw [takeRadix_cut h' hne]
  cases hradix : Numeral.takeRadix u with
  | some x =>
    obtain ⟨base, body⟩ := x
    rw [hradix] at hr
    simp only [Option.map_some, dropWhile_cut h.not_digit, dropWhile_cut h'.not_digit,
      List.length_append, Nat.add_right_cancel_iff] at hr ⊢
    rw [h.head_word] at hr
    rw [h'.head_word]
    split at hr
    · cases hr
    · rename_i hcond
      rw [if_neg hcond]
      rw [List.append_cancel_right (Except.ok.inj hr)]
  | none =>
    rw [hradix] at hr
    simp only [Option.map_none, dropWhile_cut h.not_decimal, dropWhile_cut h'.not_decimal,
      Except.ok.injEq] at hr ⊢
    generalize u.dropWhile Char.isDigit = v at hr ⊢
    -- A point behind the last digit would have been read.
    have hv : v ≠ [] ∨ z.head? ≠ some '.' := by
      by_contra hcon
      simp only [not_or, not_not] at hcon
      obtain ⟨rfl, hz⟩ := hcon
      obtain ⟨rest, rfl⟩ := List.head?_eq_some_iff.1 hz
      have h1 := (afterExponent_suffix (afterFraction ('.' :: rest))).length_le
      have h2 := length_dropWhile_le Char.isDigit rest
      rw [List.nil_append] at hr
      rw [hr] at h1
      simp only [afterFraction, List.length_append, List.length_cons] at h1
      omega
    rw [afterFraction_cut h hv, afterExponent_cut h] at hr
    rw [afterFraction_cut h' (hv.imp_right fun hz hz' => hz (hpoint hz')), afterExponent_cut h',
      List.append_cancel_right hr]

/-! ## Escapes, strings and words -/

theorem takeWhile_append_eq {p : Char → Bool} {a w : List Char}
    (h : ((a ++ w).takeWhile p).length ≤ a.length) : (a ++ w).takeWhile p = a.takeWhile p := by
  rw [List.takeWhile_append] at h ⊢
  split at h
  · rename_i hall
    rw [if_pos hall]
    have hw : w.takeWhile p = [] := by
      rw [List.length_append] at h
      exact List.eq_nil_of_length_eq_zero (by omega)
    rw [hw, List.append_nil]
    exact ((List.takeWhile_prefix p).eq_of_length hall).symm
  · rename_i hall
    rw [if_neg hall]

/-- Digits that end in front of `z` also end in front of `z'`. -/
theorem digits_cut (h' : Cuts z') {base limit : Nat} {a : List Char}
    (hlen : (((a ++ z).take limit).takeWhile (isDigitOf base)).length ≤ a.length) :
    ((a ++ z').take limit).takeWhile (isDigitOf base) =
      ((a ++ z).take limit).takeWhile (isDigitOf base) := by
  rw [List.take_append] at hlen ⊢
  rw [List.take_append]
  by_cases hl : limit ≤ a.length
  · rw [Nat.sub_eq_zero_of_le hl]
    rfl
  · rw [List.take_of_length_le (show a.length ≤ limit by omega)] at hlen ⊢
    rw [takeWhile_append_eq hlen]
    refine takeWhile_append_eq ?_
    have hstop : (z'.take (limit - a.length)).takeWhile (isDigitOf base) = [] := by
      cases z' with
      | nil => simp
      | cons c z' =>
        obtain ⟨k, hk⟩ := Nat.exists_eq_succ_of_ne_zero (show limit - a.length ≠ 0 by omega)
        rw [hk, List.take_succ_cons, List.takeWhile_cons, h'.not_digit c rfl]
        rfl
    rw [List.takeWhile_append, hstop]
    split
    · simp
    · exact (List.takeWhile_prefix _).length_le

theorem numericEscape_cut (h' : Cuts z') {leading : List Char} {limit base : Nat}
    {a r : List Char} {c : Char}
    (h : numericEscape leading limit base (a ++ z) = .ok (c, r ++ z)) :
    numericEscape leading limit base (a ++ z') = .ok (c, r ++ z') := by
  simp only [numericEscape] at h ⊢
  split at h
  · cases h
  rename_i hsome
  split at h
  · rename_i d hd
    simp only [Except.ok.injEq, Prod.mk.injEq] at h
    obtain ⟨rfl, hrest⟩ := h
    have hlen : (((a ++ z).take limit).takeWhile (isDigitOf base)).length ≤ a.length := by
      have h1 := congrArg List.length hrest
      have h2 : (((a ++ z).take limit).takeWhile (isDigitOf base)).length ≤ (a ++ z).length :=
        (List.takeWhile_prefix _).length_le.trans (List.length_take_le' _ _)
      simp only [List.length_drop, List.length_append] at h1 h2
      omega
    rw [digits_cut h' hlen, if_neg hsome, hd]
    rw [List.drop_append_of_le_length hlen] at hrest ⊢
    rw [List.append_cancel_right hrest]
  · cases h

theorem escape_cut (h' : Cuts z') {a r : List Char} {c : Char}
    (h : escape (a ++ z) = .ok (c, r ++ z)) : escape (a ++ z') = .ok (c, r ++ z') := by
  cases a with
  | nil =>
    have := escape_length h
    simp only [List.nil_append, List.length_append] at this
    omega
  | cons d a =>
    have hself {x : Char} (hx : (.ok (x, a ++ z) : Reading Char) = .ok (c, r ++ z)) :
        (.ok (x, a ++ z') : Reading Char) = .ok (c, r ++ z') := by
      simp only [Except.ok.injEq, Prod.mk.injEq] at hx ⊢
      exact ⟨hx.1, congrArg (· ++ z') (List.append_cancel_right hx.2)⟩
    have hite {p : Prop} [Decidable p] {x y x' y' : Reading Char}
        (hx : x = .ok (c, r ++ z) → x' = .ok (c, r ++ z'))
        (hy : y = .ok (c, r ++ z) → y' = .ok (c, r ++ z'))
        (hxy : (if p then x else y) = .ok (c, r ++ z)) :
        (if p then x' else y') = .ok (c, r ++ z') := by
      split at hxy
      · rename_i hp; rw [if_pos hp]; exact hx hxy
      · rename_i hp; rw [if_neg hp]; exact hy hxy
    simp only [List.cons_append, escape] at h ⊢
    split at h
    · exact hself h
    · exact hite (numericEscape_cut h') (hite (numericEscape_cut h') (hite (numericEscape_cut h')
        (hite (numericEscape_cut h') (hite (numericEscape_cut h') hself)))) h

/-- What is left behind `a` and before the end of `z`. -/
theorem exists_rest {a rest : List Char} (h : rest <:+ a ++ z) (hlen : z.length ≤ rest.length) :
    ∃ r, rest = r ++ z := by
  obtain ⟨r, hr⟩ := List.suffix_of_suffix_length_le (List.suffix_append a z) h hlen
  exact ⟨r, hr.symm⟩

theorem quoted_cut (h' : Cuts z') {quote : Char} {a d t : List Char}
    (h : quoted quote (a ++ z) = .ok (t, d ++ z)) : quoted quote (a ++ z') = .ok (t, d ++ z') := by
  match a with
  | [] =>
    have := quoted_length h
    simp only [List.nil_append, List.length_append] at this
    omega
  | c :: a =>
    rw [List.cons_append, quoted] at h ⊢
    by_cases hq : c = quote
    · rw [if_pos hq] at h ⊢
      simp only [Except.ok.injEq, Prod.mk.injEq] at h ⊢
      exact ⟨h.1, congrArg (· ++ z') (List.append_cancel_right h.2)⟩
    rw [if_neg hq] at h ⊢
    by_cases hb : c = '\\'
    · rw [if_pos hb] at h ⊢
      split at h
      · cases h
      · rename_i decoded rest he
        obtain ⟨tail, htail, rfl⟩ := Reading.cons_eq_ok.1 h
        have hlen := (quoted_suffix htail).length_le
        rw [List.length_append] at hlen
        obtain ⟨r, rfl⟩ := exists_rest (escape_suffix he) (by omega)
        have hshort : r.length < a.length := by simpa using escape_length he
        rw [escape_cut h' he]
        exact Reading.cons_eq_ok.2 ⟨tail, quoted_cut h' htail, rfl⟩
    · rw [if_neg hb] at h ⊢
      obtain ⟨tail, htail, rfl⟩ := Reading.cons_eq_ok.1 h
      exact Reading.cons_eq_ok.2 ⟨tail, quoted_cut h' htail, rfl⟩
termination_by a.length
decreasing_by all_goals (simp only [List.length_cons]; omega)

theorem identifierTail_cut (h' : Cuts z') {a d t : List Char}
    (h : identifierTail (a ++ z) = .ok (t, d ++ z)) :
    identifierTail (a ++ z') = .ok (t, d ++ z') := by
  match a with
  | [] =>
    have hd : d = [] := by
      have := (identifierTail_suffix h).length_le
      simp only [List.nil_append, List.length_append] at this
      exact List.eq_nil_of_length_eq_zero (by omega)
    subst hd
    -- Nothing was read of `z`, so nothing was read at all.
    have ht : t = [] := by
      cases z with
      | nil => rw [List.append_nil, identifierTail] at h; cases h; rfl
      | cons c z =>
        rw [List.nil_append, identifierTail] at h
        split at h
        · obtain ⟨tail, htail, -⟩ := Reading.cons_eq_ok.1 h
          have := identifierTail_length htail
          simp only [List.length_cons] at this
          omega
        split at h
        · split at h
          · cases h
          · rename_i he
            obtain ⟨tail, htail, -⟩ := Reading.cons_eq_ok.1 h
            have h1 := identifierTail_length htail
            have h2 := escape_length he
            simp only [List.length_cons] at h1
            omega
        · cases h; rfl
    subst ht
    cases z' with
    | nil => rw [List.append_nil, identifierTail]
    | cons c z' =>
      obtain ⟨hc, hb⟩ := h'.noWord c rfl
      rw [List.nil_append, identifierTail, if_neg (by simp [hc]), if_neg hb]
  | c :: a =>
    rw [List.cons_append, identifierTail] at h ⊢
    by_cases hc : isIdentifierChar c = true
    · rw [if_pos hc] at h ⊢
      obtain ⟨tail, htail, rfl⟩ := Reading.cons_eq_ok.1 h
      exact Reading.cons_eq_ok.2 ⟨tail, identifierTail_cut h' htail, rfl⟩
    rw [if_neg hc] at h ⊢
    by_cases hb : c = '\\'
    · rw [if_pos hb] at h ⊢
      split at h
      · cases h
      · rename_i decoded rest he
        obtain ⟨tail, htail, rfl⟩ := Reading.cons_eq_ok.1 h
        have hlen := (identifierTail_suffix htail).length_le
        rw [List.length_append] at hlen
        obtain ⟨r, rfl⟩ := exists_rest (escape_suffix he) (by omega)
        have hshort : r.length < a.length := by simpa using escape_length he
        rw [escape_cut h' he]
        exact Reading.cons_eq_ok.2 ⟨tail, identifierTail_cut h' htail, rfl⟩
    · rw [if_neg hb] at h ⊢
      simp only [Except.ok.injEq, Prod.mk.injEq] at h ⊢
      have hd : c :: a = d := List.append_cancel_right h.2
      exact ⟨h.1, by rw [← hd]; rfl⟩
termination_by a.length
decreasing_by all_goals (simp only [List.length_cons]; omega)

/-! ## Symbols -/

/-- If the symbols in front of `z` end there, they end in front of `z'`, too. -/
theorem afterSymbols_cut {symbols : SymbolSet} (h : Cuts z) (h' : Cuts z')
    (hsym : ∀ c ∈ z'.head?, symbols.contains c = true → z.head? = some c) {a d : List Char}
    (hr : afterSymbols symbols (a ++ z) = d ++ z) :
    afterSymbols symbols (a ++ z') = d ++ z' := by
  induction a with
  | nil =>
    have hd : d = [] := by
      have := afterSymbols_length symbols z
      rw [List.nil_append] at hr
      rw [hr, List.length_append] at this
      exact List.eq_nil_of_length_eq_zero (by omega)
    subst hd
    cases z' with
    | nil => rfl
    | cons c z' =>
      have hc : symbols.contains c = false := by
        by_contra hc
        obtain ⟨z, rfl⟩ := List.head?_eq_some_iff.1 (hsym c rfl (Bool.not_eq_false _ ▸ hc))
        have hlen := afterSymbols_length symbols z
        have hn := h.noNumber
        simp only [List.nil_append, afterSymbols, hn, Bool.not_eq_false _ ▸ hc] at hr
        simp only [Bool.not_true, Bool.or_self, Bool.false_eq_true, if_false] at hr
        rw [hr, List.length_cons] at hlen
        omega
      simp [afterSymbols, hc]
  | cons c a ih =>
    have hs := startsNumber_cut h (c :: a)
    have hs' := startsNumber_cut h' (c :: a)
    simp only [List.cons_append, afterSymbols] at hr hs hs' ⊢
    rw [hs] at hr
    rw [hs']
    split at hr
    · rename_i hc
      rw [if_pos hc]
      have hd : c :: a = d := List.append_cancel_right hr
      rw [← hd]
      rfl
    · rename_i hc
      rw [if_neg hc]
      exact ih hr

/-! ## Tokens -/

/-- Whether tokens that end in front of `z` end in front of `z'`, too: both cut them off, and `z'`
starts like `z` or with a separator. -/
structure CutsAlike (z z' : List Char) : Prop where
  before : Cuts z
  after : Cuts z'
  head : ∀ c ∈ z'.head?, isSeparator c = false → z.head? = some c

/-- Separators cut off every text. -/
theorem CutsAlike.separators {gap : List Char} (hne : gap ≠ [])
    (hgap : ∀ c ∈ gap, isSeparator c = true) (more : List Char) : CutsAlike [] (gap ++ more) := by
  obtain ⟨c, gap, rfl⟩ := List.exists_cons_of_ne_nil hne
  have hc : isSeparator c = true := hgap c List.mem_cons_self
  refine ⟨.nil, .separator hc _, fun d hd hsep => ?_⟩
  cases hd
  rw [hc] at hsep
  cases hsep

theorem taken_append (a d z : List Char) : taken (a ++ z) (d ++ z) = taken a d := by
  rw [taken, taken, List.length_append, List.length_append, Nat.add_sub_add_right,
    List.take_append_of_le_length (Nat.sub_le _ _)]

/-- A token that ends in front of `z` is read in front of `z'`, too. -/
theorem lexeme_cut {symbols : SymbolSet} (hsymbols : symbols.Proper) (h : CutsAlike z z')
    {a d t : List Char} (ha : a ≠ []) {kind : TokenKind}
    (hl : lexeme symbols (a ++ z) = .ok ⟨kind, t, d ++ z⟩) :
    lexeme symbols (a ++ z') = .ok ⟨kind, t, d ++ z'⟩ := by
  obtain ⟨c, a, rfl⟩ := List.exists_cons_of_ne_nil ha
  have hnumber : startsNumber (c :: (a ++ z')) = startsNumber (c :: (a ++ z)) :=
    (startsNumber_cut h.after (c :: a)).trans (startsNumber_cut h.before (c :: a)).symm
  have htaken : taken (c :: (a ++ z')) (d ++ z') = taken (c :: (a ++ z)) (d ++ z) :=
    (taken_append (c :: a) d z').trans (taken_append (c :: a) d z).symm
  simp only [List.cons_append, lexeme, hnumber] at hl ⊢
  by_cases hq : c = '"'
  · rw [if_pos hq] at hl ⊢
    obtain ⟨hk, hr⟩ := decoded_eq_ok.1 hl
    exact decoded_eq_ok.2 ⟨hk, quoted_cut h.after hr⟩
  rw [if_neg hq] at hl ⊢
  by_cases hs : c = '\x27'
  · rw [if_pos hs] at hl ⊢
    obtain ⟨hk, hr⟩ := decoded_eq_ok.1 hl
    exact decoded_eq_ok.2 ⟨hk, quoted_cut h.after hr⟩
  rw [if_neg hs] at hl ⊢
  by_cases hn : startsNumber (c :: (a ++ z)) = true
  · rw [if_pos hn] at hl ⊢
    cases hr : afterNumber (c :: (a ++ z)) with
    | error stuck => rw [hr] at hl; cases hl
    | ok rest =>
      rw [hr] at hl
      simp only [Except.map, Except.ok.injEq, Lexeme.mk.injEq] at hl
      obtain ⟨rfl, rfl, rfl⟩ := hl
      have hpoint : z'.head? = some '.' → z.head? = some '.' := fun hz => h.head '.' hz rfl
      have hs : startsNumber (c :: a) = true := (startsNumber_cut h.before (c :: a)) ▸ hn
      have hr' := afterNumber_cut h.before h.after hpoint hs hr
      rw [List.cons_append] at hr'
      rw [hr', Except.map, htaken]
  rw [if_neg hn] at hl ⊢
  by_cases hsym : symbols.contains c = true
  · rw [if_pos hsym] at hl ⊢
    simp only [Except.ok.injEq, Lexeme.mk.injEq] at hl
    obtain ⟨rfl, rfl, hr⟩ := hl
    have hr' := afterSymbols_cut h.before h.after
      (fun e he hc => h.head e he (hsymbols e hc)) hr
    rw [hr', htaken, hr]
  · rw [if_neg hsym] at hl ⊢
    obtain ⟨hk, hr⟩ := decoded_eq_ok.1 hl
    refine decoded_eq_ok.2 ⟨hk, ?_⟩
    simp only [identifier] at hr ⊢
    by_cases hb : c = '\\'
    · rw [if_pos hb] at hr ⊢
      exact identifierTail_cut (a := c :: a) h.after hr
    · rw [if_neg hb] at hr ⊢
      obtain ⟨tail, ht, htext⟩ := Reading.cons_eq_ok.1 hr
      exact Reading.cons_eq_ok.2 ⟨tail, identifierTail_cut h.after ht, htext⟩

end Lexer

end MotionScript
