import MotionScript.Proofs.Token.Chunks
import MotionScript.Proofs.Token.Places
/-!
# Written names as first tokens

Quoted text and written names are read back in front of any text: as one token, over exactly what
was written. They hold no control character.
-/

namespace MotionScript

open Text

namespace Lexer

/-- What is read as one token is the first token of a text that goes on behind it. -/
theorem tokenize_lexeme {symbols : SymbolSet} {written text rest : String} {kind : TokenKind}
    (hne : written.toList ≠ []) (hs : ∀ c ∈ written.toList.head?, isSeparator c = false)
    (hl : lexeme symbols (written.toList ++ rest.toList) = .ok ⟨kind, text.toList, rest.toList⟩) :
    tokenize symbols (written ++ rest) =
      (streamFrom symbols rest.toList (byteSize written.toList)
        (Position.walk ⟨0, 0⟩ written.toList)).prepend
          [⟨kind, text, ⟨0, byteSize written.toList⟩, ⟨0, 0⟩⟩] := by
  have htaken : taken (written.toList ++ rest.toList) rest.toList = written.toList := by
    simp [taken]
  rw [tokenize, String.toList_append]
  cases hw : written.toList with
  | nil => exact absurd hw hne
  | cons c cs =>
    rw [hw] at hs hl htaken
    rw [List.cons_append] at hl htaken ⊢
    have hgap : ∀ d ∈ ([] : List Char), isSeparator d = true := by simp
    have hstream := streamFrom_lexeme hgap (hs c rfl) hl 0 ⟨0, 0⟩
    simp only [htaken, String.ofList_toList] at hstream
    simpa [byteSize, Position.walk, Stream.prepend] using hstream

end Lexer

namespace Canonical

open Lexer (EndsName streamFrom tokenize)

/-- Nothing that is written for a text or a name is a control character. -/
theorem not_control_written (text : String) :
    (∀ c ∈ (string text).toList, isControl c = false) ∧
      ∀ c ∈ (name text).toList, isControl c = false := by
  have hstring : ∀ c ∈ (string text).toList, isControl c = false := by
    intro c hc
    rw [string, String.toList_ofList] at hc
    exact Lexer.not_control_quoted hc
  refine ⟨hstring, ?_⟩
  unfold name
  split
  · rename_i hbare
    intro c hc
    have hseparator := isSeparator_of_identifier (Lexer.identifierChar_of_isBare hbare hc)
    exact (Bool.or_eq_false_iff.1 hseparator).2
  · exact hstring

/-- Quoting is the inverse of reading. In front of any text, what is written for a text is read as
one string token with that text, over exactly what was written, and the rest is read behind it. So is
what is written for a name, as an identifier if the name is bare, in front of a text that does not go
on with it. Neither holds a control character. -/
theorem written_lexes_back (text rest : String) :
    (∃ kind : TokenKind, kind.isString = true ∧
      tokenize .document (string text ++ rest) =
        (streamFrom .document rest.toList (byteSize (string text).toList)
          (Position.walk ⟨0, 0⟩ (string text).toList)).prepend
            [⟨kind, text, ⟨0, byteSize (string text).toList⟩, ⟨0, 0⟩⟩]) ∧
    (EndsName rest.toList → ∃ kind : TokenKind,
      (if isBare text.toList then kind = .identifier else kind.isString = true) ∧
      tokenize .document (name text ++ rest) =
        (streamFrom .document rest.toList (byteSize (name text).toList)
          (Position.walk ⟨0, 0⟩ (name text).toList)).prepend
            [⟨kind, text, ⟨0, byteSize (name text).toList⟩, ⟨0, 0⟩⟩]) ∧
    (∀ c ∈ (string text).toList, isControl c = false) ∧
      ∀ c ∈ (name text).toList, isControl c = false := by
  have hquoted : ∃ kind : TokenKind, kind.isString = true ∧
      tokenize .document (string text ++ rest) =
        (streamFrom .document rest.toList (byteSize (string text).toList)
          (Position.walk ⟨0, 0⟩ (string text).toList)).prepend
            [⟨kind, text, ⟨0, byteSize (string text).toList⟩, ⟨0, 0⟩⟩] := by
    obtain ⟨kind, hkind, hl⟩ := Lexer.lexeme_quoted .document text.toList rest.toList
    have hchars : (string text).toList = quoted text.toList := String.toList_ofList
    refine ⟨kind, hkind, Lexer.tokenize_lexeme ?_ ?_ ?_⟩
    · rw [hchars]
      exact List.cons_ne_nil _ _
    · rw [hchars]
      exact Form.not_separator (Form.valid_string text)
    · rw [hchars]
      exact hl
  refine ⟨hquoted, ?_, not_control_written text⟩
  intro hends
  unfold name
  -- A name is written bare or as any other text.
  cases hbare : isBare text.toList with
  | false => exact hquoted
  | true =>
    refine ⟨.identifier, rfl, Lexer.tokenize_lexeme ?_ ?_ ?_⟩
    · intro hnil
      rw [if_pos rfl] at hnil
      rw [hnil] at hbare
      cases hbare
    · exact Form.not_separator ((Form.valid_word text).2 hbare)
    · exact Lexer.lexeme_bare hbare hends

end Canonical

end MotionScript
