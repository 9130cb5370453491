import MotionScript.Proofs.RuleStack.Course
/-!
# Clean unwinding

Whatever hooks do, rules leave the stack in the reverse order in which they came, each exactly once,
and a reading fails with the first of the failures that its notes tell of.
-/

namespace MotionScript.Hooks

variable {ρ γ σ : Type} (h : Hooks ρ γ σ)

/-- The notes about the rules of a stack that are detached at the end, top first. -/
def unwinding : List (Numbered ρ) → σ → Notes ρ
  | [], _ => []
  | top :: parents, s =>
    .detach top.number top.rule (h.onDetach top.rule s).1 ::
      unwinding parents (h.onDetach top.rule s).2

theorem unwinding_detached (stack : List (Numbered ρ)) (s : σ) :
    (h.unwinding stack s).map Note.detached? = stack.map fun r => some r.number := by
  induction stack generalizing s with
  | nil => rfl
  | cons top parents ih => simp only [unwinding, List.map_cons, Note.detached?, ih]

/-- Regular notes are still regular once the stack has been unwound. -/
theorem regular_unwinding {notes : Notes ρ} (stack : List (Numbered ρ)) (s : σ)
    (hr : notes.Regular) (hs : notes.stack = stack) :
    Notes.Regular (notes ++ h.unwinding stack s) ∧
      Notes.stack (notes ++ h.unwinding stack s) = [] := by
  induction stack generalizing notes s with
  | nil => simpa [unwinding] using ⟨hr, hs⟩
  | cons top parents ih =>
    rw [unwinding, List.append_cons]
    exact ih _ (hr.concat (by simp [Notes.Follows, hs])) (by simp [hs, Note.next])

/-- Unwinding notes that every rule left is detached, and the first failure counts. -/
theorem unwind_notes (stack : List (Numbered ρ)) (s : Noted ρ σ) (p : Position)
    (failure : Option Failure) :
    (h.notedGrammar.unwind stack s p failure).2.notes = s.notes ++ h.unwinding stack s.session ∧
      (h.notedGrammar.unwind stack s p failure).1 = (failure.toList ++
        ((h.unwinding stack s.session).filterMap Note.error?).map (Failure.located · p)).head? := by
  induction stack generalizing s failure with
  | nil =>
    refine ⟨(List.append_nil _).symm, ?_⟩
    cases failure <;> rfl
  | cons top parents ih =>
    have hdetach : h.notedGrammar.onDetach top s = ((h.onDetach top.rule s.session).1,
        ⟨(h.onDetach top.rule s.session).2,
          s.notes ++ [.detach top.number top.rule (h.onDetach top.rule s.session).1]⟩) := rfl
    simp only [Grammar.unwind, unwinding, hdetach]
    generalize h.onDetach top.rule s.session = detached
    obtain ⟨result, t⟩ := detached
    -- The rest of the stack, once it is known which failure comes first.
    have rest (first : Option Failure)
        (hfirst : first = (failure.toList ++ failureAt p result).head?) :
        let out := h.notedGrammar.unwind parents
          ⟨t, s.notes ++ [.detach top.number top.rule result]⟩ p first
        let notes := .detach top.number top.rule result :: h.unwinding parents t
        out.2.notes = s.notes ++ notes ∧
          out.1 =
            (failure.toList ++ (notes.filterMap Note.error?).map (Failure.located · p)).head? := by
      obtain ⟨hnotes, hfailure⟩ := ih ⟨t, s.notes ++ [.detach top.number top.rule result]⟩ first
      refine ⟨by rw [hnotes, List.append_assoc]; rfl, ?_⟩
      rw [hfailure, hfirst]
      cases failure <;> rcases result with d | ⟨⟩ <;> rfl
    cases failure <;> rcases result with d | ⟨⟩ <;> exact rest _ rfl

/-- The session after unwinding. -/
theorem unwind_session (stack : List (Numbered ρ)) (s : Noted ρ σ) (p : Position)
    (failure : Option Failure) :
    (h.notedGrammar.unwind stack s p failure).2.session =
      stack.foldl (fun s r => (h.onDetach r.rule s).2) s.session := by
  induction stack generalizing s failure with
  | nil => rfl
  | cons top parents ih => exact ih _ _

section

variable (symbols : SymbolSet) (root : ρ) (text : String) (s : σ)

/-- The run of a reading, noted down. -/
def notedRun : Grammar.Run (Numbered ρ) (Noted ρ σ) :=
  h.notedGrammar.run (.new root) (Lexer.tokenize symbols text) ⟨s, []⟩

/-- The notes of a whole reading are those of its run and those of unwinding. -/
theorem parse_notes :
    (h.notedGrammar.parse symbols (.new root) text ⟨s, []⟩).2.notes =
      (h.notedRun symbols root text s).session.notes ++
        h.unwinding (h.notedRun symbols root text s).stack
          (h.notedRun symbols root text s).session.session :=
  (h.unwind_notes _ _ _ _).1

/-- A reading fails with the first failure in time. -/
theorem parse_failure :
    (h.grammar.parse symbols root text s).1 =
      ((h.notedRun symbols root text s).session.notes.faults ++
        (Lexer.tokenize symbols text).failure.toList ++
        ((h.unwinding (h.notedRun symbols root text s).stack
          (h.notedRun symbols root text s).session.session).filterMap Note.error?).map
            (Failure.located · (h.notedRun symbols root text s).session.notes.position)).head? := by
  obtain ⟨-, hp, -, hfailure⟩ := h.run_course root (Lexer.tokenize symbols text) s
  rw [← (parse_noted symbols root text s).1]
  simp only [Grammar.parse, notedRun]
  rw [(h.unwind_notes _ _ _ _).2, hfailure, hp]
  cases (Notes.faults _ ++ _ : List Failure) <;> rfl

/-- The rule stack unwinds cleanly, whatever the hooks of its rules do. Every reading can be noted
down, which changes nothing about it. Its notes say that every rule that was attached has been
detached exactly once, and only the top rule at any time. Only the last call before unwinding can
fail, and unwinding detaches the rules that are left. The reading fails exactly if a hook, the lexer
or a check of the rule stack failed, with the first of these failures in time. -/
theorem unwinds_cleanly :
    let run := h.notedRun symbols root text s
    let reading := run.session.notes
    let unwinding := h.unwinding run.stack run.session.session
    let outcome := h.notedGrammar.parse symbols (.new root) text ⟨s, []⟩
    (outcome.1 = (h.grammar.parse symbols root text s).1 ∧
      outcome.2.session = (h.grammar.parse symbols root text s).2) ∧
    outcome.2.notes = reading ++ unwinding ∧ outcome.2.notes.Clean ∧
    reading.stack = run.stack ∧ Notes.faults reading.dropLast = [] ∧
    (h.grammar.parse symbols root text s).1 = (reading.faults ++
      (Lexer.tokenize symbols text).failure.toList ++
      (unwinding.filterMap Note.error?).map (Failure.located · reading.position)).head? := by
  obtain ⟨hm, -, hpast, -⟩ := h.run_course root (Lexer.tokenize symbols text) s
  have hnotes := h.parse_notes symbols root text s
  obtain ⟨hregular, hempty⟩ := h.regular_unwinding _ _ hm.course.regular hm.stack
  exact ⟨parse_noted _ _ _ _, hnotes, hnotes ▸ hregular.clean hempty, hm.stack, hpast,
    h.parse_failure symbols root text s⟩

end

end MotionScript.Hooks
