import MotionScript.RuleStack
/-!
# Notes about hooks

Rules of any kind can be run so that every call of a hook is noted down, with the number of the rule
that was called: rules are numbered as they are attached. The notes change nothing about a reading,
and the stack at any moment can be seen from the notes up to it.
-/

namespace MotionScript

/-- Rules `ρ` by their hooks. A hook that fails may have asked for a change before. -/
structure Hooks (ρ γ σ : Type) where
  context : ρ → Option γ
  onAttach : Option γ → ρ → σ → Answer ρ σ Unit
  onToken : Event → ρ → σ → Answer ρ σ Unit × Control ρ
  onDetach : ρ → σ → Except Diagnostic Unit × σ

/-- A rule with its number. -/
structure Numbered (ρ : Type) where
  number : Nat
  rule : ρ

/-- A rule that has not been attached yet. -/
def Numbered.new {ρ : Type} (rule : ρ) : Numbered ρ := ⟨0, rule⟩

def Change.map {ρ ρ' : Type} (f : ρ → ρ') : Change ρ → Change ρ'
  | attach rule forward => attach (f rule) forward
  | detach forward => detach forward

/-- Whether a change hands the token on. -/
def Change.forwards {ρ : Type} : Change ρ → Bool
  | attach _ forward | detach forward => forward

/-- What is noted about the call of a hook. -/
inductive Note (ρ : Type) where
  /-- `asked` is the rule that was to be attached, `rule` what its hook made of it. -/
  | attach (number : Nat) (asked rule : ρ) (result : Except Diagnostic Unit)
  /-- The rule as its hook left it, and the change it asked for. -/
  | token (number : Nat) (e : Event) (rule : ρ) (change : Control ρ)
    (result : Except Diagnostic Unit)
  | detach (number : Nat) (rule : ρ) (result : Except Diagnostic Unit)

namespace Note

variable {ρ : Type}

def number : Note ρ → Nat
  | attach n _ _ _ | token n _ _ _ _ | detach n _ _ => n

def attached? : Note ρ → Option Nat
  | attach n _ _ _ => some n
  | _ => none

def detached? : Note ρ → Option Nat
  | detach n _ _ => some n
  | _ => none

def event? : Note ρ → Option Event
  | token _ e _ _ _ => some e
  | _ => none

def result : Note ρ → Except Diagnostic Unit
  | attach _ _ _ r | token _ _ _ _ r | detach _ _ r => r

/-- The failure of the hook. -/
def error? (note : Note ρ) : Option Diagnostic :=
  match note.result with
  | .error d => some d
  | .ok () => none

/-- The stack after the call of a hook. -/
def next (stack : List (Numbered ρ)) : Note ρ → List (Numbered ρ)
  | attach n _ rule _ => ⟨n, rule⟩ :: stack
  | token n _ rule _ _ => ⟨n, rule⟩ :: stack.tail
  | detach _ _ _ => stack.tail

end Note

abbrev Notes (ρ : Type) := List (Note ρ)

namespace Notes

variable {ρ : Type}

/-- The numbers of the rules that were attached, in order. -/
def attached (notes : Notes ρ) : List Nat := notes.filterMap Note.attached?

/-- The numbers of the rules that were detached, in order. -/
def detached (notes : Notes ρ) : List Nat := notes.filterMap Note.detached?

/-- The stack after the calls that are noted. -/
def stack (notes : Notes ρ) : List (Numbered ρ) := notes.foldl Note.next []

@[simp]
theorem attached_concat (notes : Notes ρ) (note : Note ρ) :
    attached (notes ++ [note]) = attached notes ++ note.attached?.toList := by
  cases h : note.attached? <;> simp [attached, h]

@[simp]
theorem detached_concat (notes : Notes ρ) (note : Note ρ) :
    detached (notes ++ [note]) = detached notes ++ note.detached?.toList := by
  cases h : note.detached? <;> simp [detached, h]

@[simp]
theorem stack_concat (notes : Notes ρ) (note : Note ρ) :
    stack (notes ++ [note]) = note.next (stack notes) := by
  simp [stack]

end Notes

/-- A session and what has been noted so far. -/
structure Noted (ρ σ : Type) where
  session : σ
  notes : Notes ρ

namespace Hooks

variable {ρ γ σ : Type} (h : Hooks ρ γ σ)

/-- Hooks as the rule stack calls them: what a hook asked for counts only if it does not fail. -/
def grammar : Grammar ρ γ σ where
  context := h.context
  onAttach := h.onAttach
  onToken e rule s :=
    let (a, change) := h.onToken e rule s
    ⟨a.subject, a.session, a.result.map fun _ => change⟩
  onDetach := h.onDetach

/-- The same hooks, but every call is noted down. -/
def noted : Hooks (Numbered ρ) γ (Noted ρ σ) where
  context r := h.context r.rule
  onAttach outer r s :=
    let a := h.onAttach outer r.rule s.session
    let n := s.notes.attached.length
    ⟨⟨n, a.subject⟩, ⟨a.session, s.notes ++ [.attach n r.rule a.subject a.result]⟩, a.result⟩
  onToken e r s :=
    let (a, change) := h.onToken e r.rule s.session
    (⟨⟨r.number, a.subject⟩, ⟨a.session, s.notes ++ [.token r.number e a.subject change a.result]⟩,
      a.result⟩, change.map (Change.map Numbered.new))
  onDetach r s :=
    let (result, t) := h.onDetach r.rule s.session
    (result, ⟨t, s.notes ++ [.detach r.number r.rule result]⟩)

end Hooks

/-- The hooks of a grammar. -/
def Grammar.hooks {ρ γ σ : Type} (g : Grammar ρ γ σ) : Hooks ρ γ σ where
  context := g.context
  onAttach := g.onAttach
  onToken e rule s :=
    let a := g.onToken e rule s
    (⟨a.subject, a.session, a.result.map fun _ => ()⟩, a.result.toOption.getD none)
  onDetach := g.onDetach

@[simp]
theorem Grammar.hooks_grammar {ρ γ σ : Type} (g : Grammar ρ γ σ) : g.hooks.grammar = g := by
  obtain ⟨context, onAttach, onToken, onDetach⟩ := g
  simp only [hooks, Hooks.grammar, Grammar.mk.injEq, true_and, and_true]
  funext e rule s
  rcases onToken e rule s with ⟨subject, session, _ | control⟩ <;> rfl

/-! ## Turns -/

namespace Grammar

variable {ρ γ σ : Type} (g : Grammar ρ γ σ)

/-- The diagnostic for a root that asks to be detached. -/
def rootDetached (e : Event) : Diagnostic :=
  ((Diagnostic.error "the root rule cannot be detached").withCode .invalidStackChange).withLabel
    e.span "while handling this token"

/-- The diagnostic for a token that is handed on too often. -/
def handedTooOften (e : Event) : Diagnostic :=
  ((Diagnostic.error "token was handed between rules too many times").withCode
    .invalidStackChange).withLabel e.span "this token"

/-- The turn of one rule: what it leaves behind and whether the token goes on to the top rule. -/
def turn (e : Event) (top : ρ) (parents : List ρ) (s : σ) : Answer (List ρ) σ Unit × Bool :=
  let a := g.onToken e top s
  match a.result with
  | .error d => (⟨a.subject :: parents, a.session, .error d⟩, false)
  | .ok none => (⟨a.subject :: parents, a.session, .ok ()⟩, false)
  | .ok (some (.attach rule forward)) =>
    let b := g.push rule (a.subject :: parents) a.session
    (b, forward && b.result.isOk)
  | .ok (some (.detach forward)) =>
    if parents.isEmpty then (⟨a.subject :: parents, a.session, .error (rootDetached e)⟩, false)
    else
      let (result, s) := g.onDetach a.subject a.session
      (⟨parents, s, result⟩, forward && result.isOk)

variable {g} {e : Event} {top r : ρ} {parents : List ρ} {s t : σ}

/-- An event is dispatched turn by turn. -/
theorem dispatch_succ (e : Event) (fuel : Nat) (top : ρ) (parents : List ρ) (s : σ) :
    g.dispatch e (fuel + 1) (top :: parents) s =
      if (g.turn e top parents s).2 then
        g.dispatch e fuel (g.turn e top parents s).1.subject (g.turn e top parents s).1.session
      else (g.turn e top parents s).1 := by
  simp only [dispatch, turn]
  rcases (g.onToken e top s).result with d | _ | ⟨rule, forward⟩ | forward
  · rfl
  · rfl
  · cases hb : (g.push rule ((g.onToken e top s).subject :: parents)
      (g.onToken e top s).session).result <;> cases forward <;>
      simp [hb, Except.isOk, Except.toBool]
  · cases parents.isEmpty with
    | true => rfl
    | false =>
      rcases hd : g.onDetach (g.onToken e top s).subject (g.onToken e top s).session
        with ⟨d | u, t⟩ <;> cases forward <;> simp [hd, Except.isOk, Except.toBool]

theorem turn_error {d : Diagnostic} (h : g.onToken e top s = ⟨r, t, .error d⟩) :
    g.turn e top parents s = (⟨r :: parents, t, .error d⟩, false) := by
  simp only [turn, h]

theorem turn_stay (h : g.onToken e top s = ⟨r, t, .ok none⟩) :
    g.turn e top parents s = (⟨r :: parents, t, .ok ()⟩, false) := by
  simp only [turn, h]

theorem turn_attach {rule : ρ} {forward : Bool}
    (h : g.onToken e top s = ⟨r, t, .ok (some (.attach rule forward))⟩) :
    g.turn e top parents s =
      (g.push rule (r :: parents) t, forward && (g.push rule (r :: parents) t).result.isOk) := by
  simp only [turn, h]

theorem turn_root {forward : Bool} (h : g.onToken e top s = ⟨r, t, .ok (some (.detach forward))⟩) :
    g.turn e top [] s = (⟨[r], t, .error (rootDetached e)⟩, false) := by
  simp only [turn, h, List.isEmpty_nil, if_true]

theorem turn_detach {forward : Bool} (hp : parents ≠ [])
    (h : g.onToken e top s = ⟨r, t, .ok (some (.detach forward))⟩) :
    g.turn e top parents s =
      (⟨parents, (g.onDetach r t).2, (g.onDetach r t).1⟩, forward && (g.onDetach r t).1.isOk) := by
  simp only [turn, h, List.isEmpty_iff, hp, if_false]

end Grammar

/-! ## Noting changes nothing -/

namespace Hooks

variable {ρ γ σ : Type} (h : Hooks ρ γ σ)

/-- The grammar whose calls are noted. -/
abbrev notedGrammar : Grammar (Numbered ρ) γ (Noted ρ σ) := h.noted.grammar

/-- Whether an answer is one of the plain grammar once numbers and notes are left out. -/
structure Erases (a : Answer (List (Numbered ρ)) (Noted ρ σ) Unit) (b : Answer (List ρ) σ Unit) :
    Prop where
  subject : a.subject.map (·.rule) = b.subject
  session : a.session.session = b.session
  result : a.result = b.result

variable {h}

theorem erases_push (r : Numbered ρ) (stack : List (Numbered ρ)) (s : Noted ρ σ) :
    Erases (h.notedGrammar.push r stack s)
      (h.grammar.push r.rule (stack.map (·.rule)) s.session) := by
  cases stack <;> exact ⟨rfl, rfl, rfl⟩

variable {e : Event} {rule r : ρ} {t : σ} {change : Control ρ} {result : Except Diagnostic Unit}

theorem grammar_onToken {s : σ} (ht : h.onToken e rule s = (⟨r, t, result⟩, change)) :
    h.grammar.onToken e rule s = ⟨r, t, result.map fun _ => change⟩ := by
  simp only [grammar, ht]

theorem noted_onToken (n : Nat) (s : Noted ρ σ)
    (ht : h.onToken e rule s.session = (⟨r, t, result⟩, change)) :
    h.notedGrammar.onToken e ⟨n, rule⟩ s =
      ⟨⟨n, r⟩, ⟨t, s.notes ++ [.token n e r change result]⟩,
        result.map fun _ => change.map (Change.map Numbered.new)⟩ := by
  simp only [notedGrammar, grammar, noted, ht]

theorem noted_push (asked : ρ) (below : Numbered ρ) (stack : List (Numbered ρ)) (s : Noted ρ σ) :
    let a := h.onAttach (h.context below.rule) asked s.session
    h.notedGrammar.push (.new asked) (below :: stack) s =
      ⟨⟨s.notes.attached.length, a.subject⟩ :: below :: stack,
        ⟨a.session, s.notes ++ [.attach s.notes.attached.length asked a.subject a.result]⟩,
        a.result⟩ := rfl

/-- The turns of a rule with and without notes. -/
theorem erases_turn (e : Event) (top : Numbered ρ) (parents : List (Numbered ρ)) (s : Noted ρ σ) :
    Erases (h.notedGrammar.turn e top parents s).1
        (h.grammar.turn e top.rule (parents.map (·.rule)) s.session).1 ∧
      (h.notedGrammar.turn e top parents s).2 =
        (h.grammar.turn e top.rule (parents.map (·.rule)) s.session).2 := by
  obtain ⟨n, rule⟩ := top
  rcases ht : h.onToken e rule s.session with ⟨⟨r, t, result⟩, change⟩
  have hn := noted_onToken n s ht
  have hp := grammar_onToken ht
  rcases result with d | ⟨⟩
  · rw [Grammar.turn_error hn, Grammar.turn_error hp]
    exact ⟨⟨rfl, rfl, rfl⟩, rfl⟩
  rcases change with _ | ⟨asked, forward⟩ | forward
  · rw [Grammar.turn_stay hn, Grammar.turn_stay hp]
    exact ⟨⟨rfl, rfl, rfl⟩, rfl⟩
  · rw [Grammar.turn_attach hn, Grammar.turn_attach hp]
    exact ⟨⟨rfl, rfl, rfl⟩, rfl⟩
  · cases parents with
    | nil =>
      rw [Grammar.turn_root hn, List.map_nil, Grammar.turn_root hp]
      exact ⟨⟨rfl, rfl, rfl⟩, rfl⟩
    | cons parent parents =>
      rw [Grammar.turn_detach (by simp) hn, Grammar.turn_detach (by simp) hp]
      exact ⟨⟨rfl, rfl, rfl⟩, rfl⟩

theorem erases_dispatch (e : Event) (fuel : Nat) (stack : List (Numbered ρ)) (s : Noted ρ σ) :
    Erases (h.notedGrammar.dispatch e fuel stack s)
      (h.grammar.dispatch e fuel (stack.map (·.rule)) s.session) := by
  induction fuel generalizing stack s with
  | zero => exact ⟨rfl, rfl, rfl⟩
  | succ fuel ih =>
    cases stack with
    | nil => exact ⟨rfl, rfl, rfl⟩
    | cons top parents =>
      obtain ⟨⟨h1, h2, h3⟩, hforward⟩ := erases_turn (h := h) e top parents s
      rw [List.map_cons, Grammar.dispatch_succ, Grammar.dispatch_succ, ← hforward, ← h1, ← h2]
      split
      · exact ih _ _
      · exact ⟨h1, h2, h3⟩

/-- Whether a run is one of the plain grammar once numbers and notes are left out. -/
structure ErasesRun (a : Grammar.Run (Numbered ρ) (Noted ρ σ)) (b : Grammar.Run ρ σ) : Prop where
  stack : a.stack.map (·.rule) = b.stack
  session : a.session.session = b.session
  position : a.position = b.position
  failure : a.failure = b.failure

theorem erases_feed (events : List Event) {a : Grammar.Run (Numbered ρ) (Noted ρ σ)}
    {b : Grammar.Run ρ σ} (hab : ErasesRun a b) :
    ErasesRun (h.notedGrammar.feed events a) (h.grammar.feed events b) := by
  induction events generalizing a b with
  | nil => exact hab
  | cons e events ih =>
    obtain ⟨h1, h2, h3⟩ := erases_dispatch (h := h) e Grammar.maxForwards a.stack a.session
    rw [hab.stack, hab.session] at h1 h2 h3
    simp only [Grammar.feed, h3]
    split
    · exact ih ⟨h1, h2, rfl, rfl⟩
    · exact ⟨h1, h2, rfl, rfl⟩

theorem erases_run (root : ρ) (stream : Lexer.Stream) (s : σ) :
    ErasesRun (h.notedGrammar.run (.new root) stream ⟨s, []⟩) (h.grammar.run root stream s) := by
  obtain ⟨h1, h2, h3⟩ := erases_push (h := h) (.new root) [] ⟨s, []⟩
  simp only [Numbered.new, List.map_nil] at h1 h2 h3 ⊢
  simp only [Grammar.run, h3]
  split
  · exact ⟨h1, h2, rfl, rfl⟩
  · obtain ⟨k1, k2, k3, k4⟩ := erases_feed (h := h) (Event.ofTokens stream.tokens)
      (a := ⟨_, _, ⟨0, 0⟩, none⟩) (b := ⟨_, _, ⟨0, 0⟩, none⟩) ⟨h1, h2, rfl, rfl⟩
    exact ⟨k1, k2, k3, by rw [k4]⟩

theorem erases_unwind (stack : List (Numbered ρ)) (s : Noted ρ σ) (p : Position)
    (failure : Option Failure) :
    (h.notedGrammar.unwind stack s p failure).1 =
        (h.grammar.unwind (stack.map (·.rule)) s.session p failure).1 ∧
      (h.notedGrammar.unwind stack s p failure).2.session =
        (h.grammar.unwind (stack.map (·.rule)) s.session p failure).2 := by
  induction stack generalizing s failure with
  | nil => exact ⟨rfl, rfl⟩
  | cons r stack ih => exact ih _ _

/-- Noting down the calls of hooks changes neither the outcome of a reading nor the session. -/
theorem parse_noted (symbols : SymbolSet) (root : ρ) (text : String) (s : σ) :
    (h.notedGrammar.parse symbols (.new root) text ⟨s, []⟩).1 =
        (h.grammar.parse symbols root text s).1 ∧
      (h.notedGrammar.parse symbols (.new root) text ⟨s, []⟩).2.session =
        (h.grammar.parse symbols root text s).2 := by
  obtain ⟨h1, h2, h3, h4⟩ := erases_run (h := h) root (Lexer.tokenize symbols text) s
  simp only [Grammar.parse]
  rw [← h1, ← h2, ← h3, ← h4]
  exact erases_unwind _ _ _ _

end Hooks

end MotionScript
