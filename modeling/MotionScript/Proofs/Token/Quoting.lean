import MotionScript.Canonical.Quoted
import MotionScript.Token.Lexer
/-!
# Quoting

Reading is the inverse of quoting: a quoted text is read back as itself, whatever follows it, and
so is a bare name in front of a character that cannot continue it.
-/

namespace MotionScript.Lexer

open Canonical Text

/-! ## Escapes -/

theorem toNat_of_isControl {c : Char} (h : isControl c = true) : c.toNat < 160 := by
  simp only [isControl, Bool.or_eq_true, Bool.and_eq_true, decide_eq_true_eq] at h
  omega

/-- Two hexadecimal digits stand for the character with this code. -/
theorem escape_hex {c : Char} {rest : List Char} (h : isControl c = true) :
    escape ('x' :: hexDigit (c.toNat / 16) :: hexDigit (c.toNat % 16) :: rest) = .ok (c, rest) := by
  have hlt := toNat_of_isControl h
  have hdigits : ∀ n < 160, isDigitOf 16 (hexDigit (n / 16)) = true ∧
      isDigitOf 16 (hexDigit (n % 16)) = true ∧
      ofDigitsIn 16 [hexDigit (n / 16), hexDigit (n % 16)] = n := by decide +kernel
  obtain ⟨h1, h2, h3⟩ := hdigits c.toNat hlt
  have hscalar : scalar? c.toNat = some c := by
    have hv : c.toNat.isValidChar := c.valid
    rw [scalar?, dif_pos hv]
    exact congrArg some (Char.ext (UInt32.toNat_inj.1 rfl))
  have hstart : escape ('x' :: hexDigit (c.toNat / 16) :: hexDigit (c.toNat % 16) :: rest) =
      numericEscape [] 2 16 (hexDigit (c.toNat / 16) :: hexDigit (c.toNat % 16) :: rest) := rfl
  rw [hstart, numericEscape]
  simp [h1, h2, h3, hscalar]

theorem escape_zero (rest : List Char) : escape ('0' :: '0' :: '0' :: rest) = .ok ('\x00', rest) :=
  rfl

/-! ## Quoted texts -/

theorem quoted_close (quote : Char) (rest : List Char) :
    quoted quote (quote :: rest) = .ok ([], rest) := by
  rw [quoted, if_pos rfl]

theorem quoted_plain {quote c : Char} (hq : c ≠ quote) (hb : c ≠ '\\') (rest : List Char) :
    quoted quote (c :: rest) = Reading.cons c (quoted quote rest) := by
  rw [quoted, if_neg hq, if_neg hb]

theorem quoted_escape {quote d : Char} {cs rest : List Char} (hq : quote ≠ '\\')
    (h : escape cs = .ok (d, rest)) :
    quoted quote ('\\' :: cs) = Reading.cons d (quoted quote rest) := by
  rw [quoted, if_neg hq.symm, if_pos rfl]
  split
  · rename_i he
    rw [h] at he
    cases he
  · rename_i he
    rw [h] at he
    cases he
    rfl

/-- The control characters with an escape of one letter. -/
def letterControls : List Char :=
  ['\x07', '\x08', '\x1B', '\x0C', '\n', '\r', '\t', '\x0B']

section EscapeChar

variable {quote c : Char}

theorem escapeChar_letter (hq : c ≠ quote) (hc : c ∈ letterControls) :
    ∃ d, escapeChar quote c = ['\\', d] ∧ isControl d = false ∧
      ∀ rest, escape (d :: rest) = .ok (c, rest) := by
  simp only [letterControls, List.mem_cons, List.not_mem_nil, or_false] at hc
  rcases hc with rfl | rfl | rfl | rfl | rfl | rfl | rfl | rfl
  all_goals
    rw [escapeChar, if_neg (by decide), if_neg hq]
    exact ⟨_, rfl, rfl, fun _ => rfl⟩

theorem escapeChar_quote (hq : quote = '"' ∨ quote = '\x27') :
    escapeChar quote quote = ['\\', quote] ∧ isControl quote = false ∧
      ∀ rest, escape (quote :: rest) = .ok (quote, rest) := by
  rcases hq with rfl | rfl <;> exact ⟨rfl, rfl, fun _ => rfl⟩

/-- Any other character is a number if it is a control character, else it is written as it is. -/
theorem escapeChar_other (hb : c ≠ '\\') (hq : c ≠ quote) (hz : c ≠ '\x00')
    (hc : c ∉ letterControls) :
    escapeChar quote c = if isControl c then
        ['\\', 'x', hexDigit (c.toNat / 16), hexDigit (c.toNat % 16)]
      else [c] := by
  simp only [letterControls, List.mem_cons, List.not_mem_nil, or_false, not_or] at hc
  obtain ⟨h1, h2, h3, h4, h5, h6, h7, h8⟩ := hc
  rw [escapeChar, if_neg hb, if_neg hq, if_neg hz, if_neg h1, if_neg h2, if_neg h3, if_neg h4,
    if_neg h5, if_neg h6, if_neg h7, if_neg h8]

theorem not_control_hexDigit {n : Nat} (h : n < 16) : isControl (hexDigit n) = false := by
  have hall : ∀ n < 16, isControl (hexDigit n) = false := by decide +kernel
  exact hall n h

end EscapeChar

/-- A character is written as an escape that stands for it, or as itself. -/
theorem escapeChar_cases {quote : Char} (hq : quote = '"' ∨ quote = '\x27') (c : Char) :
    (∃ cs, escapeChar quote c = '\\' :: cs ∧ (∀ d ∈ cs, isControl d = false) ∧
      ∀ rest, escape (cs ++ rest) = .ok (c, rest)) ∨
    (escapeChar quote c = [c] ∧ c ≠ quote ∧ c ≠ '\\' ∧ isControl c = false) := by
  by_cases hb : c = '\\'
  · subst hb
    exact .inl ⟨['\\'], rfl, by simp [show isControl '\\' = false from rfl], fun _ => rfl⟩
  by_cases hcq : c = quote
  · obtain ⟨hw, hd, hread⟩ := escapeChar_quote hq
    rw [hcq]
    exact .inl ⟨[quote], hw, by simpa using hd, hread⟩
  by_cases hz : c = '\x00'
  · subst hz
    refine .inl ⟨['0', '0', '0'], ?_, by simp [show isControl '0' = false from rfl], escape_zero⟩
    rw [escapeChar, if_neg hb, if_neg hcq, if_pos rfl]
  by_cases hletter : c ∈ letterControls
  · obtain ⟨d, hw, hd, hread⟩ := escapeChar_letter hcq hletter
    exact .inl ⟨[d], hw, by simpa using hd, hread⟩
  have hw := escapeChar_other hb hcq hz hletter
  cases hc : isControl c with
  | false => exact .inr ⟨by rw [hw, hc, if_neg Bool.false_ne_true], hcq, hb, rfl⟩
  | true =>
    rw [hc, if_pos rfl] at hw
    have hlt : c.toNat < 160 := toNat_of_isControl hc
    refine .inl ⟨_, hw, ?_, fun rest => escape_hex hc⟩
    intro d hd
    simp only [List.mem_cons, List.not_mem_nil, or_false] at hd
    rcases hd with rfl | rfl | rfl
    · rfl
    · exact not_control_hexDigit (by omega)
    · exact not_control_hexDigit (Nat.mod_lt _ (by decide))

/-- A written character is read back. -/
theorem quoted_escapeChar {quote : Char} (hq : quote = '"' ∨ quote = '\x27') (c : Char)
    (rest : List Char) :
    quoted quote (escapeChar quote c ++ rest) = Reading.cons c (quoted quote rest) := by
  obtain ⟨cs, hw, -, he⟩ | ⟨hw, h1, h2, -⟩ := escapeChar_cases hq c
  · rw [hw]
    exact quoted_escape (by rcases hq with rfl | rfl <;> decide) (he rest)
  · rw [hw]
    exact quoted_plain h1 h2 rest

theorem quoted_flatMap {quote : Char} (hq : quote = '"' ∨ quote = '\x27') (cs rest : List Char) :
    quoted quote (cs.flatMap (escapeChar quote) ++ quote :: rest) = .ok (cs, rest) := by
  induction cs with
  | nil => exact quoted_close quote rest
  | cons c cs ih =>
    rw [List.flatMap_cons, List.append_assoc, quoted_escapeChar hq, ih]
    rfl

theorem quoteFor_cases (cs : List Char) : quoteFor cs = '"' ∨ quoteFor cs = '\x27' := by
  unfold quoteFor
  split
  · exact .inr rfl
  · exact .inl rfl

/-- A quoted text is one string token with the text. -/
theorem lexeme_quoted (symbols : SymbolSet) (cs rest : List Char) :
    ∃ kind : TokenKind, kind.isString = true ∧
      lexeme symbols (Canonical.quoted cs ++ rest) = .ok ⟨kind, cs, rest⟩ := by
  have hread := quoted_flatMap (quoteFor_cases cs) cs rest
  have htext : Canonical.quoted cs ++ rest =
      quoteFor cs :: (cs.flatMap (escapeChar (quoteFor cs)) ++ quoteFor cs :: rest) := by
    simp [Canonical.quoted]
  rw [htext]
  rcases quoteFor_cases cs with h | h
  · rw [h] at hread ⊢
    exact ⟨.double, rfl, by rw [lexeme, if_pos rfl, hread]; rfl⟩
  · rw [h] at hread ⊢
    exact ⟨.single, rfl, by rw [lexeme, if_neg (by decide), if_pos rfl, hread]; rfl⟩

/-- A written character holds no control character. -/
theorem not_control_escapeChar {quote c d : Char} (hq : quote = '"' ∨ quote = '\x27')
    (h : d ∈ escapeChar quote c) : isControl d = false := by
  obtain ⟨cs, hw, hc, -⟩ | ⟨hw, -, -, hc⟩ := escapeChar_cases hq c
  · rw [hw] at h
    rcases List.mem_cons.1 h with rfl | h
    · rfl
    · exact hc d h
  · rw [hw] at h
    rw [List.mem_singleton.1 h]
    exact hc

/-- No quoted text holds a control character. -/
theorem not_control_quoted {cs : List Char} {c : Char} (h : c ∈ Canonical.quoted cs) :
    isControl c = false := by
  have hq := quoteFor_cases cs
  have hquote : isControl (quoteFor cs) = false := by
    rcases hq with h | h
    · rw [h]; rfl
    · rw [h]; rfl
  simp only [Canonical.quoted, List.mem_cons, List.mem_append, List.mem_flatMap, List.not_mem_nil,
    or_false] at h
  rcases h with rfl | ⟨d, -, hd⟩ | rfl
  · exact hquote
  · exact not_control_escapeChar hq hd
  · exact hquote

/-! ## Bare names -/

/-- A bare name consists of identifier characters. -/
theorem identifierChar_of_isBare {cs : List Char} {c : Char} (h : isBare cs = true) (hc : c ∈ cs) :
    isIdentifierChar c = true := by
  cases cs with
  | nil => cases hc
  | cons d cs =>
    simp only [isBare, Bool.and_eq_true, List.all_eq_true] at h
    rcases List.mem_cons.1 hc with rfl | hc
    · exact h.1.1
    · exact h.2 c hc

/-- Whether no character of an identifier, and no escape, starts the text. -/
def EndsName (cs : List Char) : Prop := ∀ c ∈ cs.head?, isIdentifierChar c = false ∧ c ≠ '\\'

theorem identifierTail_append {cs rest : List Char} (h : ∀ c ∈ cs, isIdentifierChar c = true)
    (hr : EndsName rest) : identifierTail (cs ++ rest) = .ok (cs, rest) := by
  induction cs with
  | nil =>
    rw [List.nil_append]
    cases rest with
    | nil => rw [identifierTail]
    | cons c rest =>
      obtain ⟨h1, h2⟩ := hr c rfl
      rw [identifierTail, if_neg (by simp [h1]), if_neg h2]
  | cons c cs ih =>
    rw [List.cons_append, identifierTail, if_pos (h c List.mem_cons_self),
      ih fun d hd => h d (List.mem_cons_of_mem c hd)]
    rfl

/-- Characters of identifiers are no symbols of the document language and no quotes. -/
theorem document_contains {c : Char} (h : isIdentifierChar c = true) :
    SymbolSet.document.contains c = false ∧ c ≠ '"' ∧ c ≠ '\x27' ∧ c ≠ '\\' := by
  have hall : (['<', '=', '>', '+', '-', '*', ',', '.', '&', '|', '!', '(', ')', '[', ']', ':',
      ';', '{', '}', '/'].all fun d => !isIdentifierChar d) = true := by decide +kernel
  have hne (d : Char) (hd : isIdentifierChar d = false) : c ≠ d := by
    rintro rfl
    rw [h] at hd
    cases hd
  refine ⟨?_, hne _ rfl, hne _ rfl, hne _ rfl⟩
  rw [SymbolSet.document, SymbolSet.contains, List.contains_eq_mem, decide_eq_false_iff_not]
  intro hm
  exact hne c (by simpa using List.all_eq_true.1 hall c hm) rfl

/-- A bare name is one identifier with the text. -/
theorem lexeme_bare {cs rest : List Char} (h : isBare cs = true) (hr : EndsName rest) :
    lexeme .document (cs ++ rest) = .ok ⟨.identifier, cs, rest⟩ := by
  cases cs with
  | nil => cases h
  | cons c cs =>
    simp only [isBare, Bool.and_eq_true, List.all_eq_true, Bool.not_eq_true'] at h
    obtain ⟨⟨hc, hd⟩, hcs⟩ := h
    obtain ⟨hsym, hq1, hq2, hb⟩ := document_contains hc
    have hnum : startsNumber (c :: (cs ++ rest)) = false := by
      have hall (d : Char) (hm : SymbolSet.document.contains d = true) : c ≠ d := by
        rintro rfl
        rw [hsym] at hm
        cases hm
      unfold startsNumber
      split
      · rename_i heq; exact absurd (List.cons.inj heq).1 (hall '+' rfl)
      · rename_i heq; exact absurd (List.cons.inj heq).1 (hall '-' rfl)
      · unfold startsUnsigned
        split
        · rename_i heq; exact absurd (List.cons.inj heq).1 (hall '.' rfl)
        · exact hd
    rw [List.cons_append, lexeme, if_neg hq1, if_neg hq2, if_neg (by simp [hnum]),
      if_neg (by simp only [hsym, Bool.false_eq_true, not_false_eq_true]), identifier, if_neg hb,
      identifierTail_append hcs hr]
    rfl

end MotionScript.Lexer
