import MotionScript.Proofs.Steps.Motions
import MotionScript.Proofs.Steps.Records
import MotionScript.Proofs.Steps.Statements
/-!
# Steps of rules

All that the rule on top of the stack can do with a token: a step of its own kind, and the document
begins a layer or a parameter.
-/

namespace MotionScript.Frame

variable {η : Type} [Host η]

/-- What a rule does with a token. -/
inductive Move (e : Event) (s : Session η) : Frame → Frame → Session η → Control Frame → Prop where
  | layer : Move e s .document .document s (some (.attach (.machine (.unnamed false none)) false))
  | declaration : Move e s .document .document s (some (.attach (.parameter .kind) true))
  | parameter {r r' : ParameterRule} {s' : Session η} {control : Control Frame}
    (h : ParameterRule.Move e s r r' s' control) : Move e s (.parameter r) (.parameter r') s' control
  | machine {r r' : MachineRule} {s' : Session η} {control : Control Frame}
    (h : MachineRule.Move e s r r' s' control) : Move e s (.machine r) (.machine r') s' control
  | state {r r' : StateRule} {s' : Session η} {control : Control Frame}
    (h : StateRule.Move e s r r' s' control) : Move e s (.state r) (.state r') s' control
  | transition {r r' : TransitionRule} {s' : Session η} {control : Control Frame}
    (h : r.react e s = .ok (r', s', control)) : Move e s (.transition r) (.transition r') s' control
  | motion {r r' : MotionRule} {s' : Session η} {control : Control Frame}
    (h : MotionRule.Move e s r r' s' control) : Move e s (.motion r) (.motion r') s' control
  | record {r r' : RecordRule} {s' : Session η} {control : Control Frame}
    (h : RecordRule.Move e s r r' s' control) : Move e s (.record r) (.record r') s' control

theorem react_move {e : Event} {s s' : Session η} {f f' : Frame} {control : Control Frame}
    (h : f.react e s = .ok (f', s', control)) : Move e s f f' s' control := by
  cases f with
  | document =>
    simp only [react, reactDocument] at h
    split at h
    · cases h
      exact .layer
    · split at h <;> cases h
      exact .declaration
  | _ =>
    obtain ⟨⟨r', s'', control'⟩, hr, h⟩ := except_map_ok.1 h
    cases h
    first
      | exact .parameter (ParameterRule.react_move hr)
      | exact .machine (MachineRule.react_move hr)
      | exact .state (StateRule.react_move hr)
      | exact .transition hr
      | exact .motion (MotionRule.react_move hr)
      | exact .record (RecordRule.react_move hr)

end MotionScript.Frame
