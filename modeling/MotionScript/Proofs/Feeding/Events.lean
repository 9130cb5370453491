import MotionScript.Host.Memory
import MotionScript.Proofs.Feeding.Basic
import MotionScript.Proofs.Token.Chunks
/-!
# Events of pieces

What the grammar asks of an event, answered for the event of a piece.
-/

namespace MotionScript

/-! ## What events are -/

/-- Whether an event has been read as a form. -/
def Event.Is (e : Event) (f : Form) : Prop := Piece.Reads e f.joined

theorem Piece.Reads.is {e : Event} {p : Piece} (h : p.Reads e) : e.Is p.form :=
  ⟨h.kind, h.text, by simp [Form.joined]⟩

namespace Event.Is

variable {e : Event} {t : String} {c : Char}

theorem text_eq {f : Form} (h : e.Is f) : e.text = String.ofList f.text := by
  have ht : e.text.toList = f.text := h.text
  rw [← ht, String.ofList_toList]

/-! ### Words -/

theorem word_kind (h : e.Is (.word t)) : e.kind = .identifier := h.kind

theorem word_text (h : e.Is (.word t)) : e.text = t := by
  rw [h.text_eq, Form.text, String.ofList_toList]

theorem word_isSymbol (h : e.Is (.word t)) (d : Char) : e.isSymbol d = false := by
  rw [Token.isSymbol, h.word_kind]
  rfl

theorem word_isKeyword (h : e.Is (.word t)) (w : String) :
    e.isKeyword w = Text.equalsIgnoringCase t w := by
  rw [Token.isKeyword, h.word_kind, h.word_text]
  rfl

/-! ### Symbols -/

theorem symbol_kind (h : e.Is (.symbol c)) : e.kind = .symbol := h.kind

theorem symbol_text (h : e.Is (.symbol c)) : e.text = c.toString := by
  rw [h.text_eq]
  rfl

theorem symbol_isSymbol (h : e.Is (.symbol c)) (d : Char) : e.isSymbol d = (c == d) := by
  rw [Token.isSymbol, h.symbol_kind, h.symbol_text]
  by_cases hcd : c = d
  · simp [hcd]
  · simp [hcd, ← String.toList_inj, Char.toString]

theorem symbol_isKeyword (h : e.Is (.symbol c)) (w : String) : e.isKeyword w = false := by
  rw [Token.isKeyword, h.symbol_kind]
  rfl

theorem symbol_name? (h : e.Is (.symbol c)) : e.name? = none := by
  rw [Token.name?, h.symbol_kind]
  rfl

theorem symbol_name (h : e.Is (.symbol c)) (expected : String) :
    e.name expected = .error (e.unexpected expected) := by
  rw [Event.name, h.symbol_name?]

theorem symbol_number (h : e.Is (.symbol c)) : e.number = .error (e.unexpected "a number") := by
  have hnumeral : e.numeral? = none := by
    rw [Token.numeral?, h.symbol_kind]
    rfl
  rw [Event.number, Token.single?, hnumeral]
  rfl

/-! ### Strings -/

theorem string_isString (h : e.Is (.string t)) : e.kind.isString = true := h.kind

theorem string_text (h : e.Is (.string t)) : e.text = t := by
  rw [h.text_eq, Form.text, String.ofList_toList]

theorem string_isSymbol (h : e.Is (.string t)) (d : Char) : e.isSymbol d = false := by
  have := h.string_isString
  cases hk : e.kind <;> simp_all [Token.isSymbol, TokenKind.isString]

theorem string_isKeyword (h : e.Is (.string t)) (w : String) : e.isKeyword w = false := by
  have := h.string_isString
  cases hk : e.kind <;> simp_all [Token.isKeyword, TokenKind.isString]

theorem string_isName (h : e.Is (.string t)) : e.kind.isName = true := by
  rw [TokenKind.isName, h.string_isString, Bool.or_true]

theorem string_name? (h : e.Is (.string t)) : e.name? = some t := by
  rw [Token.name?, h.string_isName, h.string_text]
  rfl

theorem string_kind_ne (h : e.Is (.string t)) : (e.kind == .number) = false := by
  have := h.string_isString
  cases hk : e.kind <;> simp_all [TokenKind.isString]

theorem word_name? (h : e.Is (.word t)) : e.name? = some t := by
  rw [Token.name?, h.word_kind, h.word_text]
  rfl

/-! ### Names -/

theorem name_cases (h : e.Is (.name t)) : e.Is (.word t) ∨ e.Is (.string t) := by
  unfold Form.name at h
  split at h
  · exact .inl h
  · exact .inr h

theorem name_name? (h : e.Is (.name t)) : e.name? = some t :=
  h.name_cases.elim word_name? string_name?

theorem name_name (h : e.Is (.name t)) (expected : String) : e.name expected = .ok t := by
  rw [Event.name, h.name_name?]

theorem string_name (h : e.Is (.string t)) (expected : String) : e.name expected = .ok t := by
  rw [Event.name, h.string_name?]

theorem name_isSymbol (h : e.Is (.name t)) (d : Char) : e.isSymbol d = false :=
  h.name_cases.elim (·.word_isSymbol d) (·.string_isSymbol d)

theorem name_kind_ne (h : e.Is (.name t)) : (e.kind == .number) = false := by
  rcases h.name_cases with h | h
  · rw [h.word_kind]; rfl
  · exact h.string_kind_ne

theorem name_text (h : e.Is (.name t)) : e.text = t := h.name_cases.elim word_text string_text

/-! ### Numbers -/

variable {cs : List Char}

theorem number_kind (h : e.Is (.number cs)) : e.kind = .number := h.kind

theorem number_isSymbol (h : e.Is (.number cs)) (d : Char) : e.isSymbol d = false := by
  rw [Token.isSymbol, h.number_kind]
  rfl

theorem number_isKeyword (h : e.Is (.number cs)) (w : String) : e.isKeyword w = false := by
  rw [Token.isKeyword, h.number_kind]
  rfl

theorem number_numeral? (h : e.Is (.number cs)) : e.numeral? = Numeral.read cs := by
  rw [Token.numeral?, h.number_kind, h.text]
  rfl

theorem float_numeral? {f : Format} {x : Binary f} (h : e.Is (.float x)) (hp : 1 ≤ f.precision)
    (hx : x.isFinite = true) : e.numeral?.bind (·.toBinary? f) = some x := by
  obtain ⟨p, ht, hv⟩ := Binary.exists_numeral hp hx
  rw [number_numeral? h, ht, Numeral.read_signedChars]
  simp [Numeral.toBinary?, hv]

theorem float_number {x : Single} (h : e.Is (.float x)) (hx : x.isFinite = true) :
    e.number = .ok x := by
  have hs : e.single? = some x := h.float_numeral? (by decide) hx
  rw [Event.number, hs]

theorem int_integer? {n : Int} (h : e.Is (.int n)) (hl : -2 ^ 63 ≤ n) (hu : n < 2 ^ 63) :
    e.integer? = some n := by
  obtain ⟨p, ht, hv, hf⟩ := exists_numeral_int n
  rw [Token.integer?, number_numeral? h, ht, Numeral.read_signedChars, hv, hf]
  simp only [Option.bind_some, Numeral.integer?, List.isEmpty_nil, true_and, integerBound]
  by_cases hn : n < 0
  · have habs : -(n.natAbs : ℤ) = n := by omega
    rw [decide_eq_true hn, if_pos rfl, habs, if_pos ⟨hl, hu⟩]
  · have habs : (n.natAbs : ℤ) = n := by omega
    rw [decide_eq_false hn, if_neg Bool.false_ne_true, habs, if_pos ⟨hl, hu⟩]

end Event.Is

/-! ## Which form an event has -/

namespace Event

variable {e : Event} {w t : String} {c : Char} {x : Single}

theorem isKeyword_kind (h : e.isKeyword w = true) : e.kind = .identifier := by
  rw [Token.isKeyword, Bool.and_eq_true, beq_iff_eq] at h
  exact h.1

theorem is_word (h : e.kind = .identifier) : e.Is (.word e.text) :=
  ⟨h, rfl, by simp [Form.joined]⟩

theorem isKeyword_is (h : e.isKeyword w = true) : e.Is (.word e.text) := is_word (isKeyword_kind h)

/-- A token that is one word is another one just if the words are equal. -/
theorem isKeyword_eq (h : e.isKeyword w = true) (w' : String) :
    e.isKeyword w' = Text.equalsIgnoringCase w w' := by
  have hw := h
  rw [(isKeyword_is h).word_isKeyword] at hw ⊢
  rw [Text.equalsIgnoringCase, beq_iff_eq] at hw
  rw [Text.equalsIgnoringCase, Text.equalsIgnoringCase, hw]

theorem isSymbol_is (h : e.isSymbol c = true) : e.Is (.symbol c) := by
  rw [Token.isSymbol, Bool.and_eq_true, beq_iff_eq, beq_iff_eq] at h
  refine ⟨h.1, ?_, by simp [Form.joined]⟩
  rw [h.2, Char.toString, String.toList_singleton]
  rfl

theorem name_ok (h : e.name? = some t) (expected : String) : e.name expected = .ok t := by
  rw [Event.name, h]

theorem name_isSymbol (h : e.name? = some t) (c : Char) : e.isSymbol c = false := by
  by_contra hc
  rw [Bool.not_eq_false] at hc
  rw [(isSymbol_is hc).symbol_name?] at h
  cases h

theorem number_ok (h : e.single? = some x) : e.number = .ok x := by
  rw [Event.number, h]

theorem single_kind (h : e.single? = some x) : e.kind = .number := by
  by_contra hk
  have hnone : e.numeral? = none := by
    rw [Token.numeral?, beq_false_of_ne hk, if_neg Bool.false_ne_true]
  rw [Token.single?, hnone] at h
  cases h

theorem single_is (h : e.single? = some x) : e.Is (.number e.text.toList) :=
  ⟨single_kind h, rfl, by simp [Form.joined]⟩

end Event

end MotionScript
