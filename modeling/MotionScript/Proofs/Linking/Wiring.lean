import MotionScript.Proofs.Steps.Motions
import MotionScript.Proofs.Steps.Records
/-!
# Wiring

What linking reads and writes: the transitions of a graph, the lists they are in, the nodes known by
path, the transitions that wait and the warnings about dropped ones. Most hooks of the grammar leave
the wiring alone.
-/

namespace MotionScript

/-- The ids in the list that a home stands for. -/
def Controller.transitionIds (c : Controller) : Home → List TransitionId
  | .entry m => (c.machine m).entryTransitions
  | .any m => (c.machine m).anyTransitions
  | .state s => (c.state s).transitions

/-- The transitions in the list that a home stands for. -/
def Controller.transitionsOf (c : Controller) (home : Home) : List Transition :=
  (c.transitionIds home).map c.transition

structure Wiring where
  transitions : Array Transition
  /-- The entry and any-state lists. -/
  machines : Array (List TransitionId × List TransitionId)
  states : Array (List TransitionId)
  layers : Nat
  symbols : Array SymbolTable
  pending : List Pending
  dropped : List Diagnostic

/-- The code of the warning for a dropped transition. -/
def Diagnostic.isDrop (d : Diagnostic) : Bool := d.code == some .unresolvedDestination

namespace Session

variable {η : Type}

def wiring (s : Session η) : Wiring where
  transitions := s.controller.transitions
  machines := s.controller.machines.map fun m => (m.entryTransitions, m.anyTransitions)
  states := s.controller.states.map (·.transitions)
  layers := s.controller.layers.size
  symbols := s.symbols
  pending := s.pending
  dropped := s.warnings.filter Diagnostic.isDrop

end Session

theorem map_modify {α β : Type} (xs : Array α) (i : Nat) (f : α → α) (g : α → β)
    (h : ∀ x, g (f x) = g x) : (xs.modify i f).map g = xs.map g := by
  apply Array.ext
  · simp
  · intro j hj _
    simp only [Array.getElem_map, Array.getElem_modify]
    split <;> simp [h]

/-! ## Changes of the graph -/

namespace Controller

variable {η : Type} (s : Session η)

@[simp]
theorem wiring_modifyLayer (i : Nat) (f : Layer → Layer) :
    (s.modify (·.modifyLayer i f)).wiring = s.wiring := by
  simp [Session.wiring, Session.modify, modifyLayer]

@[simp]
theorem wiring_modifyMotion (i : MotionId) (f : Motion → Motion) :
    (s.modify (·.modifyMotion i f)).wiring = s.wiring := rfl

@[simp]
theorem wiring_modifyRecord (i : RecordId) (f : Record → Record) :
    (s.modify (·.modifyRecord i f)).wiring = s.wiring := rfl

theorem wiring_modifyState (c : Controller) (i : StateId) (f : State → State)
    (h : ∀ st, (f st).transitions = st.transitions) :
    ({ s with controller := c.modifyState i f } : Session η).wiring =
      ({ s with controller := c } : Session η).wiring := by
  simp [Session.wiring, modifyState, map_modify _ _ _ _ h]

theorem wiring_modifyMachine (c : Controller) (i : MachineId) (f : Machine → Machine)
    (h : ∀ m, (f m).entryTransitions = m.entryTransitions ∧
      (f m).anyTransitions = m.anyTransitions) :
    ({ s with controller := c.modifyMachine i f } : Session η).wiring =
      ({ s with controller := c } : Session η).wiring := by
  have hf := map_modify c.machines i.index f
    (fun m => (m.entryTransitions, m.anyTransitions)) (by simp [h])
  simp [Session.wiring, modifyMachine, hf]

end Controller

/-! ## Services of the session -/

namespace Session

variable {η : Type} [Host η] (s : Session η)

@[simp]
theorem wiring_persist (hint : List String) (object : ObjectRef) (name : String) :
    (s.persist hint object name).wiring = s.wiring := rfl

theorem wiring_warn (d : Diagnostic) (h : d.isDrop = false) :
    (s.warn d).wiring = s.wiring := by
  simp [warn, wiring, h]

@[simp]
theorem wiring_resolve (reference : String) (kind : AssetKind) :
    (s.resolve reference kind).2.wiring = s.wiring := rfl

end Session

/-! ## Rules that leave the wiring alone -/

variable {η : Type} [Host η]

theorem ParameterRule.wiring_declare (s : Session η) (d : Declaration) :
    (declare s d).wiring = s.wiring := by
  unfold declare
  split
  · rfl
  · split
    · rename_i c hc
      simp only [Controller.addParameter?] at hc
      split at hc
      · cases hc
      · cases hc; rfl
    · exact s.wiring_warn _ rfl

/-- A parameter declaration is detached without handing a token on. -/
theorem ParameterRule.Move.quiet {e : Event} {s s' : Session η} {r r' : ParameterRule}
    {control : Control Frame} (h : Move e s r r' s' control) :
    s'.wiring = s.wiring ∧ (control = none ∨ control = some (.detach false)) := by
  cases h with
  | unnamed => exact ⟨rfl, .inr rfl⟩
  | declare => exact ⟨wiring_declare s _, .inr rfl⟩
  | _ => exact ⟨rfl, .inl rfl⟩

/-! ## Motions -/

namespace MotionRule

omit [Host η] in
theorem wiring_place (r : MotionRule) (s : Session η) :
    (s.modify r.place).wiring = s.wiring := by
  unfold place
  split
  · rfl
  · exact Controller.wiring_modifyState s _ _ _ fun _ => rfl
  · exact Controller.wiring_modifyMotion s _ _

omit [Host η] in
@[simp]
theorem wiring_modifyTree (r : MotionRule) (s : Session η) (f : BlendTree → BlendTree) :
    (r.modifyTree s f).wiring = s.wiring := by
  unfold modifyTree
  split <;> simp

@[simp]
theorem wiring_clip (r : MotionRule) (s : Session η) (reference : String) :
    (r.clip s reference).2.wiring = s.wiring := by
  have hr := s.wiring_resolve reference .animationClip
  unfold clip
  split <;> (rename_i h; rw [h] at hr; exact hr)

@[simp]
theorem wiring_openTree (r : MotionRule) (s : Session η) (name : String) :
    (r.openTree s name).2.wiring = s.wiring := rfl

/-- A motion attaches only its children. -/
theorem Move.quiet {e : Event} {s s' : Session η} {r r' : MotionRule} {control : Control Frame}
    (h : Move e s r r' s' control) :
    s'.wiring = s.wiring ∧ (control = none ∨ (∃ forward, control = some (.detach forward)) ∨
      ∃ tree key, control = some (.attach (.motion (.child tree key)) false)) := by
  cases h with
  | expect | modify | closeTree => exact ⟨rfl, .inl rfl⟩
  | clip reference => exact ⟨wiring_clip r s reference, .inl rfl⟩
  | openTree name => exact ⟨wiring_openTree r s name, .inl rfl⟩
  | tree => exact ⟨wiring_modifyTree r s _, .inl rfl⟩
  | child key => exact ⟨rfl, .inr (.inr ⟨_, key, rfl⟩)⟩
  | detach forward => exact ⟨rfl, .inr (.inl ⟨forward, rfl⟩)⟩

end MotionRule

/-! ## Records -/

theorem OpenRecord.Change.wiring {s s' : Session η} {id : RecordId} (h : Change s id s') :
    s'.wiring = s.wiring := by
  cases h with
  | same | value => rfl
  | missing reference | object r hr reference => exact s.wiring_resolve reference .object

namespace RecordRule

theorem wiring_attach (s : Session η) (scope : Scope) (record : Record) :
    (attach s scope record).2.wiring = s.wiring := by
  unfold attach
  simp only [Session.wiring_persist]
  split
  · exact Controller.wiring_modifyState s (s.controller.addRecord record).2 _ _ fun _ => rfl
  · exact Controller.wiring_modifyMachine s (s.controller.addRecord record).2 _ _
      fun _ => ⟨rfl, rfl⟩

/-- A record is detached without handing a token on. -/
theorem Move.quiet {e : Event} {s s' : Session η} {r r' : RecordRule} {control : Control Frame}
    (h : Move e s r r' s' control) :
    s'.wiring = s.wiring ∧ (control = none ∨ control = some (.detach false)) := by
  cases h with
  | typeName => exact ⟨rfl, .inl rfl⟩
  | openBody => exact ⟨wiring_attach s _ _, .inl rfl⟩
  | body x x' hchange => exact ⟨hchange.wiring, .inl rfl⟩
  | stop => exact ⟨rfl, .inr rfl⟩

end RecordRule

end MotionScript
