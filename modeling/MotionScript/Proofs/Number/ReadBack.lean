import MotionScript.Proofs.Token.FirstTokens
/-!
# Numbers that are read back

A finite number is written as one number token that stands for it again. What is written for the
infinities, which numerals that overflow stand for, is a name and no numeral.
-/

namespace MotionScript

open Lexer (EndsNumber streamFrom tokenize)

namespace Single

/-- In front of any text that does not go on with it, the text of a finite number is one number token,
and the token stands for the number. -/
theorem tokenize_text {x : Single} (hx : x.isFinite = true) {rest : String}
    (hrest : EndsNumber rest.toList) :
    ∃ t : Token, t.kind = .number ∧ t.text = toString x ∧ t.single? = some x ∧
      tokenize .document (toString x ++ rest) =
        (streamFrom .document rest.toList (byteSize (toString x).toList)
          (Position.walk ⟨0, 0⟩ (toString x).toList)).prepend [t] := by
  obtain ⟨p, htext, hvalue⟩ := Binary.exists_numeral (by decide) hx
  have hchars : (toString x).toList = x.text := String.toList_ofList
  have hlexeme := Lexer.lexeme_number x.negative p hrest
  rw [← htext, ← hchars] at hlexeme
  have hvalid : (Form.float x).Valid := Form.valid_single hx
  refine ⟨⟨.number, toString x, ⟨0, byteSize (toString x).toList⟩, ⟨0, 0⟩⟩, rfl, rfl, ?_,
    Lexer.tokenize_lexeme ?_ ?_ hlexeme⟩
  · have hread := Numeral.read_signedChars x.negative p
    rw [← htext, ← hchars] at hread
    simp only [Token.single?, Token.numeral?, beq_self_eq_true, if_true, hread, Option.bind_some,
      Numeral.toBinary?, hvalue]
  · rw [hchars]
    exact Form.chars_ne_nil hvalid
  · rw [hchars]
    exact Form.not_separator hvalid

/-- The texts of all numbers that are not finite. -/
theorem text_of_not_finite {x : Single} (hx : x.isFinite = false) :
    toString x ∈ ["NaN", "inf", "-inf"] := by
  obtain ⟨negative, magnitude⟩ := x
  have hzero : (⟨negative, magnitude⟩ : Single).isZero = false := by
    refine Bool.eq_false_iff.2 fun hz => ?_
    obtain rfl : magnitude = 0 := by simpa [Binary.isZero] using hz
    cases hx
  simp only [toString, Binary.text, hx, hzero, Bool.false_eq_true, if_false]
  cases (⟨negative, magnitude⟩ : Single).isNaN <;> cases negative <;> decide

/-- The text of a number is one number token that stands for the number exactly if the number is
finite. -/
theorem reads_back_iff (x : Single) :
    (∃ t : Token, tokenize .document (toString x) = ⟨[t], none⟩ ∧ t.kind = .number ∧
      t.single? = some x) ↔ x.isFinite = true := by
  constructor
  · rintro ⟨t, ht, hkind, -⟩
    by_contra hx
    have hnone : ∀ text ∈ ["NaN", "inf", "-inf"],
        ∀ t ∈ (tokenize .document text).tokens, t.kind ≠ .number := by decide +kernel
    refine hnone _ (text_of_not_finite (Bool.not_eq_true _ ▸ hx)) t ?_ hkind
    rw [ht]
    exact List.mem_singleton_self t
  · intro hx
    have hrest : EndsNumber "".toList := by simp [EndsNumber]
    obtain ⟨t, hkind, -, hvalue, ht⟩ := tokenize_text hx hrest
    refine ⟨t, ?_, hkind, hvalue⟩
    rw [String.append_empty] at ht
    rw [ht, String.toList_empty, Lexer.streamFrom_gap (List.forall_mem_nil _)]
    rfl

/-- A numeral that overflows stands for infinity, which is not read back from its text. -/
theorem not_reads_back :
    ¬∀ (source : String) (x : Single),
      (∃ t ∈ (tokenize .document source).tokens, t.kind = .number ∧ t.single? = some x) →
      ∃ t : Token, tokenize .document (toString x) = ⟨[t], none⟩ ∧ t.kind = .number ∧
        t.single? = some x := by
  intro h
  have hinfinity : ∃ t ∈ (tokenize .document "speed 1e39;").tokens, t.kind = .number ∧
      t.single? = some (Binary.infinity false) := by decide +kernel
  obtain ⟨t, ht, hkind, -⟩ := h _ _ hinfinity
  have htokens : ∀ t ∈ (tokenize .document (toString (Binary.infinity false : Single))).tokens,
      t.kind ≠ .number := by decide +kernel
  exact htokens t (by rw [ht]; exact List.mem_singleton_self t) hkind

end Single

end MotionScript
