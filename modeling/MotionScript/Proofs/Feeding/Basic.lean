import MotionScript.Proofs.Linking.Ledger
import MotionScript.Proofs.Token.Pieces
/-!
# Feeding events

What an event makes of the stack and the session, by what the rule on top asks for, and what a list
of events does one after another.
-/

namespace MotionScript

variable {η : Type} [Host η]

/-! ## Single events -/

/-- Whether an event leads from one stack and session to others; `j` is what it adds to the
journal. -/
structure Takes (e : Event) (stack : List Frame) (s : Session η) (stack' : List Frame)
    (s' : Session η) (j : Journal) : Prop where
  dispatch : (Grammar.document η).dispatch e Grammar.maxForwards stack s = ⟨stack', s', .ok ()⟩
  journal : ((Grammar.document η).dispatchCalls e Grammar.maxForwards stack s).flatMap
    Grammar.Call.entries = j

namespace Takes

variable {e : Event} {top top' : Frame} {rest : List Frame} {s s' s'' : Session η}

theorem stay (h : top.react e s = .ok (top', s', none)) :
    Takes e (top :: rest) s (top' :: rest) s' (Grammar.Call.token e top s).entries := by
  constructor
  · simp [Grammar.dispatch, Grammar.maxForwards, Grammar.document, Frame.onToken, h]
  · simp [Grammar.dispatchCalls, Grammar.maxForwards, Grammar.document, Frame.onToken, h]

/-- A rule is attached and waits for the next event. -/
theorem attach {f g : Frame} (h : top.react e s = .ok (top', s', some (.attach f false)))
    (ha : f.onAttach top'.context s' = ⟨g, s'', .ok ()⟩) :
    Takes e (top :: rest) s (g :: top' :: rest) s'' (Grammar.Call.token e top s).entries := by
  constructor
  · simp [Grammar.dispatch, Grammar.maxForwards, Grammar.document, Frame.onToken, h, Grammar.push,
      ha]
  · simp [Grammar.dispatchCalls, Grammar.maxForwards, Grammar.document, Frame.onToken, h,
      Grammar.push, ha, Grammar.Call.entries]

/-- A rule is attached and handles the event itself. -/
theorem forward {f g g' : Frame} {s₁ s₂ : Session η}
    (h : top.react e s = .ok (top', s₁, some (.attach f true)))
    (ha : f.onAttach top'.context s₁ = ⟨g, s₂, .ok ()⟩) (hg : g.react e s₂ = .ok (g', s', none)) :
    Takes e (top :: rest) s (g' :: top' :: rest) s'
      ((Grammar.Call.token e top s).entries ++ (Grammar.Call.token e g s₂).entries) := by
  constructor
  · simp [Grammar.dispatch, Grammar.maxForwards, Grammar.document, Frame.onToken, h, Grammar.push,
      ha, hg]
  · simp [Grammar.dispatchCalls, Grammar.maxForwards, Grammar.document, Frame.onToken, h,
      Grammar.push, ha, hg, Grammar.Call.entries]

/-- A rule ends. -/
theorem detach {below : Frame} (h : top.react e s = .ok (top', s', some (.detach false))) :
    Takes e (top :: below :: rest) s (below :: rest) (top'.close s')
      ((Grammar.Call.token e top s).entries ++ (Grammar.Call.detach top' s').entries) := by
  constructor
  · simp [Grammar.dispatch, Grammar.maxForwards, Grammar.document, Frame.onToken, h]
  · simp [Grammar.dispatchCalls, Grammar.maxForwards, Grammar.document, Frame.onToken, h]

end Takes

/-! ## Lists of events -/

/-- Whether events lead from one stack and session to others. -/
inductive Feeds : List Event → List Frame → Session η → List Frame → Session η → Journal → Prop
  | nil (stack : List Frame) (s : Session η) : Feeds [] stack s stack s []
  | cons {e : Event} {es : List Event} {stack stack' stack'' : List Frame} {s s' s'' : Session η}
    {j j' : Journal} (h : Takes e stack s stack' s' j) (hs : Feeds es stack' s' stack'' s'' j') :
    Feeds (e :: es) stack s stack'' s'' (j ++ j')

namespace Feeds

variable {es es' : List Event} {stack stack' stack'' : List Frame} {s s' s'' : Session η}
  {j j' : Journal}

theorem append (h : Feeds es stack s stack' s' j) (h' : Feeds es' stack' s' stack'' s'' j') :
    Feeds (es ++ es') stack s stack'' s'' (j ++ j') := by
  induction h with
  | nil => exact h'
  | cons ht hs ih =>
    rw [List.cons_append, List.append_assoc]
    exact .cons ht (ih h')

theorem feed (h : Feeds es stack s stack' s' j) (p : Position) :
    (∃ p', (Grammar.document η).feed es ⟨stack, s, p, none⟩ = ⟨stack', s', p', none⟩) ∧
      ((Grammar.document η).feedCalls es stack s).flatMap Grammar.Call.entries = j := by
  induction h generalizing p with
  | nil => exact ⟨⟨p, rfl⟩, rfl⟩
  | @cons e es stack stack₁ stack₂ s s₁ s₂ j j' ht hs ih =>
    obtain ⟨⟨p', hp⟩, hj⟩ := ih e.position
    constructor
    · exact ⟨p', by simp only [Grammar.feed, ht.dispatch, hp]⟩
    · simp only [Grammar.feedCalls, ht.dispatch, List.flatMap_append, ht.journal, hj]

end Feeds

end MotionScript
