import Mathlib.Data.List.Chain
import MotionScript.Proofs.Number.Written
import MotionScript.Proofs.Token.Quoting
import MotionScript.Token.Event
/-!
# Pieces of text

Written text is a list of pieces, each of which is to be read as one token: words, quoted strings,
numerals and single symbols, with or without a space in front. The events of such a text are just
its pieces, whatever runs of symbols are read as one token.
-/

namespace MotionScript

open Text

/-! ## Pieces -/

/-- What is read as one token. -/
inductive Form where
  /-- A bare name. -/
  | word (text : String)
  /-- A text in quotes. -/
  | string (text : String)
  /-- A numeral. -/
  | number (text : List Char)
  | symbol (c : Char)

namespace Form

def chars : Form → List Char
  | word text => text.toList
  | string text => Canonical.quoted text.toList
  | number text => text
  | symbol c => [c]

/-- The text of the token. -/
def text : Form → List Char
  | word text | string text => text.toList
  | number text => text
  | symbol c => [c]

/-- Whether a kind of token is right for the form. -/
def HasKind : Form → TokenKind → Prop
  | word _, kind => kind = .identifier
  | string _, kind => kind.isString = true
  | number _, kind => kind = .number
  | symbol _, kind => kind = .symbol

def Valid : Form → Prop
  | word text => Canonical.isBare text.toList = true
  | symbol c => SymbolSet.document.contains c = true
  | number text => ∃ negative digits, text = signedChars negative digits
  | string _ => True

/-- Whether one form can be read right behind another. A sign or a point would be taken for the
start of a number. -/
def Joins : Form → Form → Prop
  | word _, symbol _ | word _, string _ | string _, _ => True
  | number _, symbol c => c ≠ '.'
  | number _, word text => text = "s"
  | symbol _, word _ | symbol _, string _ => True
  | symbol c, number _ => c = '('
  | symbol c, symbol _ => c ≠ '+' ∧ c ≠ '-' ∧ c ≠ '.'
  | _, _ => False

end Form

structure Piece where
  /-- Whether a space stands in front. -/
  spaced : Bool
  form : Form

namespace Piece

def chars (p : Piece) : List Char := (if p.spaced then [' '] else []) ++ p.form.chars

/-- Whether a piece can be read behind another. -/
def Follows (p q : Piece) : Prop := q.spaced = true ∨ p.form.Joins q.form

/-- Whether an event is a piece that has been read. -/
structure Reads (e : Event) (p : Piece) : Prop where
  kind : p.form.HasKind e.kind
  text : e.text.toList = p.form.text
  /-- A piece behind a space does not start a line. -/
  sameLine : p.spaced = true → e.lineBreak = false

end Piece

/-- Whether each piece of a line is read as one token. -/
structure Readable (ps : List Piece) : Prop where
  valid : ∀ p ∈ ps, p.form.Valid
  chain : ps.IsChain Piece.Follows

namespace Form

theorem chars_ne_nil {f : Form} (h : f.Valid) : f.chars ≠ [] := by
  cases f with
  | word text =>
    intro h'
    simp only [Valid, show text.toList = [] from h', Canonical.isBare] at h
    cases h
  | string text => simp [chars, Canonical.quoted]
  | number text =>
    obtain ⟨negative, p, rfl⟩ := h
    obtain ⟨c, cs, hp, -, -⟩ := p.chars_head
    cases negative <;> simp [chars, signedChars, hp]
  | symbol c => simp [chars]

end Form

/-! ## Spelling -/

/-- A form and the space in front of it. -/
abbrev Atom := List Char × Form

/-- Whether a text consists of spaces and line feeds. -/
def IsGap (cs : List Char) : Prop := ∀ c ∈ cs, c = ' ' ∨ c = '\n'

theorem isGap_nil : IsGap [] := by simp [IsGap]

theorem IsGap.append {cs ds : List Char} (h : IsGap cs) (h' : IsGap ds) : IsGap (cs ++ ds) :=
  List.forall_mem_append.2 ⟨h, h'⟩

/-- The text of atoms in front of `tail`. -/
def spell (tail : List Char) : List Atom → List Char
  | [] => tail
  | (gap, f) :: rest => gap ++ (f.chars ++ spell tail rest)

/-- Whether each atom is read as one token. -/
structure Spelled (atoms : List Atom) : Prop where
  gaps : ∀ a ∈ atoms, IsGap a.1
  valid : ∀ a ∈ atoms, a.2.Valid
  chain : atoms.IsChain fun a b => b.1 ≠ [] ∨ a.2.Joins b.2

theorem Spelled.tail {a : Atom} {atoms : List Atom} (h : Spelled (a :: atoms)) : Spelled atoms :=
  ⟨fun b hb => h.gaps b (List.mem_cons_of_mem a hb),
    fun b hb => h.valid b (List.mem_cons_of_mem a hb), h.chain.tail⟩

/-- What is found right behind an atom: a gap, or an atom that joins it. -/
theorem Spelled.next {a : Atom} {atoms : List Atom} {tail : List Char} (h : Spelled (a :: atoms))
    (ht : IsGap tail) {c : Char} (hc : c ∈ (spell tail atoms).head?) :
    c = ' ' ∨ c = '\n' ∨
      ∃ f rest, atoms = ([], f) :: rest ∧ f.Valid ∧ a.2.Joins f ∧ c ∈ f.chars.head? := by
  cases atoms with
  | nil =>
    have hm : c ∈ tail := List.mem_of_mem_head? hc
    exact (ht c hm).imp_right .inl
  | cons b rest =>
    obtain ⟨gap, f⟩ := b
    have hf : f.Valid := h.valid (gap, f) (by simp)
    cases gap with
    | nil =>
      obtain ⟨d, ds, hd⟩ := List.exists_cons_of_ne_nil (f.chars_ne_nil hf)
      have hj := (List.isChain_cons_cons.1 h.chain).1.resolve_left (by simp)
      simp only [spell, List.nil_append, hd, List.cons_append, List.head?_cons] at hc
      exact .inr (.inr ⟨f, rest, rfl, hf, hj, by rw [hd]; exact hc⟩)
    | cons d ds =>
      obtain rfl : d = c := by simpa [spell] using hc
      exact (h.gaps (d :: ds, f) (by simp) d (by simp)).imp_right .inl

namespace Lexer

/-! ## Numerals -/

/-- Whether nothing at the head of a text can continue a numeral. -/
def EndsNumber (cs : List Char) : Prop :=
  ∀ c ∈ cs.head?, c.isDigit = false ∧ c ≠ '.' ∧ c ≠ 'e' ∧ c ≠ 'E' ∧ radixOf? c = none

theorem startsUnsigned_append (p : Decimal.Positional) (rest : List Char) :
    startsUnsigned (p.chars ++ rest) = true := by
  obtain ⟨c, cs, h, hc, -⟩ := p.chars_head
  rw [h, List.cons_append]
  unfold startsUnsigned
  split
  · rename_i heq
    rw [(List.cons.inj heq).1] at hc
    cases hc
  · exact hc

theorem takeSign_append (negative : Bool) (p : Decimal.Positional) (rest : List Char) :
    Decimal.takeSign (signedChars negative p ++ rest) = (negative, p.chars ++ rest) := by
  cases negative with
  | true => rfl
  | false =>
    obtain ⟨c, cs, h, hc, -⟩ := p.chars_head
    simp only [signedChars, Bool.false_eq_true, if_false, h, List.cons_append]
    unfold Decimal.takeSign
    split <;> simp_all

theorem startsNumber_append (negative : Bool) (p : Decimal.Positional) (rest : List Char) :
    startsNumber (signedChars negative p ++ rest) = true := by
  cases negative with
  | true => exact startsUnsigned_append p rest
  | false =>
    have hu := startsUnsigned_append p rest
    obtain ⟨c, cs, h, hc, -⟩ := p.chars_head
    simp only [signedChars, Bool.false_eq_true, if_false]
    rw [h, List.cons_append] at hu ⊢
    unfold startsNumber
    split
    · rename_i heq
      rw [(List.cons.inj heq).1] at hc
      cases hc
    · rename_i heq
      rw [(List.cons.inj heq).1] at hc
      cases hc
    · exact hu

theorem takeRadix_append {rest : List Char} (p : Decimal.Positional) (h : EndsNumber rest) :
    Numeral.takeRadix (p.chars ++ rest) = none := by
  obtain ⟨c, cs, hp, hc, hcs⟩ := p.chars_head
  rw [hp, List.cons_append]
  unfold Numeral.takeRadix
  split
  · rename_i mark digits heq
    obtain ⟨-, heq⟩ := List.cons.inj heq
    have hmark : radixOf? mark = none := by
      cases cs with
      | nil =>
        rw [List.nil_append] at heq
        exact (h mark (by rw [heq]; rfl)).2.2.2.2
      | cons d ds =>
        obtain ⟨rfl, -⟩ := List.cons.inj heq
        exact radixOf?_eq_none (hcs d rfl)
    rw [hmark]
    rfl
  · rfl

theorem afterExponent_of_ends {rest : List Char} (h : EndsNumber rest) :
    afterExponent rest = rest := by
  unfold afterExponent
  rw [if_neg]
  cases rest with
  | nil => simp [startsExponent]
  | cons c rest =>
    obtain ⟨-, -, he, hE, -⟩ := h c rfl
    simp [startsExponent, he, hE]

theorem afterFraction_digits {rest : List Char} (p : Decimal.Positional) (h : EndsNumber rest) :
    afterFraction ((p.chars ++ rest).dropWhile Char.isDigit) = rest := by
  obtain ⟨whole, fraction, hne, hd⟩ := p
  have hw : ∀ c ∈ whole, c.isDigit = true := fun c hc => hd c (List.mem_append_left _ hc)
  have hf : ∀ c ∈ fraction, c.isDigit = true := fun c hc => hd c (List.mem_append_right _ hc)
  have hrest : rest.dropWhile Char.isDigit = rest := by
    cases rest with
    | nil => rfl
    | cons c rest => rw [List.dropWhile_cons, if_neg (by simp [(h c rfl).1])]
  rw [Decimal.Positional.chars, List.append_assoc, List.dropWhile_append_of_pos hw]
  cases fraction with
  | nil =>
    simp only [List.isEmpty_nil, if_true, List.nil_append, hrest]
    unfold afterFraction
    split
    · exact absurd rfl (h '.' rfl).2.1
    · rfl
  | cons d ds =>
    simp only [List.isEmpty_cons, Bool.false_eq_true, if_false, List.cons_append]
    rw [List.dropWhile_cons, if_neg (by decide), afterFraction, ← List.cons_append,
      List.dropWhile_append_of_pos hf, hrest]

/-- A written number is one number token. -/
theorem lexeme_number {rest : List Char} (negative : Bool) (p : Decimal.Positional)
    (h : EndsNumber rest) :
    lexeme .document (signedChars negative p ++ rest) =
      .ok ⟨.number, signedChars negative p, rest⟩ := by
  have hs := startsNumber_append negative p rest
  have ha : afterNumber (signedChars negative p ++ rest) = .ok rest := by
    simp only [afterNumber, takeSign_append, takeRadix_append p h, afterFraction_digits p h,
      afterExponent_of_ends h]
  have ht : taken (signedChars negative p ++ rest) rest = signedChars negative p := by
    simp [taken]
  have hq : ∀ c ∈ (signedChars negative p ++ rest).head?, c ≠ '"' ∧ c ≠ '\x27' := by
    obtain ⟨d, ds, hp, hd, -⟩ := p.chars_head
    intro c hc
    cases negative with
    | true =>
      obtain rfl : '-' = c := by simpa [signedChars] using hc
      decide
    | false =>
      obtain rfl : d = c := by simpa [signedChars, hp] using hc
      constructor <;> (rintro rfl; cases hd)
  cases hc : signedChars negative p ++ rest with
  | nil => rw [hc] at hs; cases hs
  | cons c cs =>
    rw [hc] at hs ha ht hq
    obtain ⟨h1, h2⟩ := hq c rfl
    rw [lexeme, if_neg h1, if_neg h2, if_pos hs, ha]
    simp only [Except.map, ht]

/-! ## Symbols -/

theorem startsUnsigned_eq_false {cs : List Char} (h : ∀ c ∈ cs.head?, c.isDigit = false ∧ c ≠ '.') :
    startsUnsigned cs = false := by
  cases cs with
  | nil => rfl
  | cons c cs =>
    obtain ⟨h1, h2⟩ := h c rfl
    unfold startsUnsigned
    split
    · rename_i heq; exact absurd (List.cons.inj heq).1 h2
    · exact h1

theorem lexeme_symbol {c : Char} {rest : List Char} (hc : SymbolSet.document.contains c = true)
    (hs : startsNumber (c :: rest) = false) :
    lexeme .document (c :: rest) = .ok ⟨.symbol,
      taken (c :: rest) (afterSymbols .document rest), afterSymbols .document rest⟩ := by
  have h1 : c ≠ '"' := by rintro rfl; cases hc
  have h2 : c ≠ '\x27' := by rintro rfl; cases hc
  rw [lexeme, if_neg h1, if_neg h2, if_neg (by simp [hs]), if_pos hc]

end Lexer

/-! ## What follows an atom -/

namespace Form

theorem symbol_ne {c d : Char} (hc : SymbolSet.document.contains c = true)
    (hd : SymbolSet.document.contains d = false) : c ≠ d := by
  rintro rfl
  rw [hc] at hd
  cases hd

theorem symbol_not_identifier {c : Char} (h : SymbolSet.document.contains c = true) :
    isIdentifierChar c = false := by
  by_contra hc
  have := (Lexer.document_contains (Bool.not_eq_false _ ▸ hc)).1
  rw [h] at this
  cases this

theorem symbol_not_digit {c : Char} (h : SymbolSet.document.contains c = true) :
    c.isDigit = false ∧ radixOf? c = none := by
  have hall : (['<', '=', '>', '+', '-', '*', ',', '.', '&', '|', '!', '(', ')', '[', ']', ':',
      ';', '{', '}', '/'].all fun d => decide (d.isDigit = false ∧ radixOf? d = none)) = true := by
    decide +kernel
  have hm := List.all_eq_true.1 hall c (by simpa [SymbolSet.document, SymbolSet.contains] using h)
  exact of_decide_eq_true hm

/-- A word starts with a character that is no symbol, no quote and no digit. -/
theorem word_head {text : String} (h : (word text).Valid) {c : Char}
    (hc : c ∈ (word text).chars.head?) : isIdentifierChar c = true ∧ c.isDigit = false := by
  simp only [chars] at hc
  simp only [Valid] at h
  cases ht : text.toList with
  | nil => rw [ht] at h; cases h
  | cons d ds =>
    rw [ht] at h hc
    obtain rfl : d = c := by simpa using hc
    simp only [Canonical.isBare, Bool.and_eq_true, Bool.not_eq_true'] at h
    exact h.1

theorem string_head {text : String} {c : Char} (hc : c ∈ (string text).chars.head?) :
    c = '"' ∨ c = '\x27' := by
  obtain rfl : Canonical.quoteFor text.toList = c := by simpa [chars, Canonical.quoted] using hc
  exact Lexer.quoteFor_cases _

end Form

namespace Spelled

variable {gap tail : List Char} {atoms : List Atom}

theorem endsName {text : String} (h : Spelled ((gap, .word text) :: atoms)) (ht : IsGap tail) :
    Lexer.EndsName (spell tail atoms) := by
  intro c hc
  rcases h.next ht hc with rfl | rfl | ⟨f, rest, -, hf, hj, hc⟩
  · exact ⟨rfl, by decide⟩
  · exact ⟨rfl, by decide⟩
  · cases f with
    | symbol d =>
      obtain rfl : d = c := by simpa [Form.chars] using hc
      exact ⟨Form.symbol_not_identifier hf, Form.symbol_ne hf rfl⟩
    | string text =>
      rcases Form.string_head hc with rfl | rfl
      · exact ⟨rfl, by decide⟩
      · exact ⟨rfl, by decide⟩
    | word _ | number _ => exact hj.elim

theorem endsNumber {text : List Char} (h : Spelled ((gap, .number text) :: atoms))
    (ht : IsGap tail) :
    Lexer.EndsNumber (spell tail atoms) := by
  intro c hc
  rcases h.next ht hc with rfl | rfl | ⟨f, rest, -, hf, hj, hc⟩
  · decide
  · decide
  · cases f with
    | symbol d =>
      obtain rfl : d = c := by simpa [Form.chars] using hc
      obtain ⟨h1, h2⟩ := Form.symbol_not_digit hf
      exact ⟨h1, hj, Form.symbol_ne hf rfl, Form.symbol_ne hf rfl, h2⟩
    | word text =>
      obtain rfl : text = "s" := hj
      obtain rfl : 's' = c := by simpa [Form.chars] using hc
      decide
    | string _ | number _ => exact hj.elim

theorem not_startsNumber {c : Char} (h : Spelled ((gap, .symbol c) :: atoms)) (ht : IsGap tail) :
    Lexer.startsNumber (c :: spell tail atoms) = false := by
  have hc : SymbolSet.document.contains c = true := h.valid (gap, .symbol c) (by simp)
  -- Behind a sign or a point, only a space, a word or a string is found.
  have hnext (hpoint : c = '+' ∨ c = '-' ∨ c = '.') :
      ∀ d ∈ (spell tail atoms).head?, d.isDigit = false ∧ d ≠ '.' := by
    intro d hd
    rcases h.next ht hd with rfl | rfl | ⟨f, rest, -, hf, hj, hd⟩
    · decide
    · decide
    · cases f with
      | word text =>
        obtain ⟨h1, h2⟩ := Form.word_head hf hd
        exact ⟨h2, by rintro rfl; cases h1⟩
      | string text =>
        rcases Form.string_head hd with rfl | rfl <;> decide
      | symbol e => exact absurd hj (by rcases hpoint with rfl | rfl | rfl <;> simp [Form.Joins])
      | number _ => exact absurd hj (by rcases hpoint with rfl | rfl | rfl <;> simp [Form.Joins])
  unfold Lexer.startsNumber
  split
  · rename_i heq
    obtain ⟨rfl, rfl⟩ := List.cons.inj heq
    exact Lexer.startsUnsigned_eq_false (hnext (.inl rfl))
  · rename_i heq
    obtain ⟨rfl, rfl⟩ := List.cons.inj heq
    exact Lexer.startsUnsigned_eq_false (hnext (.inr (.inl rfl)))
  · unfold Lexer.startsUnsigned
    split
    · rename_i heq
      obtain ⟨rfl, rfl⟩ := List.cons.inj heq
      have hd := hnext (.inr (.inr rfl))
      unfold Lexer.startsDigit
      split
      · rename_i d ds heq
        exact (hd d (by rw [heq]; rfl)).1
      · rfl
    · exact (Form.symbol_not_digit hc).1

/-- A run of symbols ends in front of everything but a symbol that joins it. -/
theorem endsRun {c : Char} (h : Spelled ((gap, .symbol c) :: atoms)) (ht : IsGap tail)
    (hs : ∀ d rest, atoms ≠ ([], .symbol d) :: rest) :
    Lexer.afterSymbols .document (spell tail atoms) = spell tail atoms := by
  cases hcs : spell tail atoms with
  | nil => rfl
  | cons d ds =>
    have hd : SymbolSet.document.contains d = false ∨ Lexer.startsNumber (d :: ds) = true := by
      rcases h.next ht (c := d) (by rw [hcs]; rfl) with rfl | rfl | ⟨f, rest, hatoms, hf, -, hd⟩
      · exact .inl rfl
      · exact .inl rfl
      · cases f with
        | word text =>
          exact .inl (Lexer.document_contains (Form.word_head hf hd).1).1
        | string text =>
          rcases Form.string_head hd with rfl | rfl <;> exact .inl rfl
        | symbol e => exact absurd hatoms (hs e rest)
        | number text =>
          obtain ⟨n, p, rfl⟩ := hf
          have := Lexer.startsNumber_append n p (spell tail rest)
          rw [hatoms] at hcs
          rw [← hcs]
          exact .inr this
    rw [Lexer.afterSymbols, if_pos]
    rcases hd with hd | hd
    · simp only [hd, Bool.not_false, Bool.true_or]
    · simp only [hd, Bool.or_true]

end Spelled

end MotionScript
