import MotionScript.Proofs.Linking.Turn
import MotionScript.Proofs.RuleStack.Calls
/-!
# The shape of the stack

Which rule may lie on which, and what the scopes they hold have to do with each other. In every
reading the machines on the stack are nested in each other and belong to the last layer.
-/

namespace MotionScript

variable {η : Type} [Host η]

/-- Whether a rule may lie on the rule below it. -/
inductive Frame.Fits : Frame → Option Frame → Prop where
  | document : Fits .document none
  | parameter (r : ParameterRule) : Fits (.parameter r) (some .document)
  | layerName (outer : Option Scope) : Fits (.machine (.unnamed false outer)) (some .document)
  | machineName (m : OpenMachine) (x : MachineExpect) :
    Fits (.machine (.unnamed true (some m.scope))) (some (.machine (.named m x)))
  | layer (m : OpenMachine) (x : MachineExpect) (hp : m.parent = none) :
    Fits (.machine (.named m x)) (some .document)
  | machine (m outer : OpenMachine) (x y : MachineExpect)
    (hp : m.parent = some outer.scope.machine) (hl : m.scope.layer = outer.scope.layer)
    (hi : outer.scope.machine.index < m.scope.machine.index) :
    Fits (.machine (.named m x)) (some (.machine (.named outer y)))
  | stateName (m : OpenMachine) (x : MachineExpect) :
    Fits (.state (.unnamed (some m.scope))) (some (.machine (.named m x)))
  | state (scope : Scope) (id : StateId) (m : OpenMachine) (x : StateExpect) (y : MachineExpect)
    (hs : scope.state = some id) (hl : scope.layer = m.scope.layer)
    (hm : scope.machine = m.scope.machine) :
    Fits (.state (.named scope id x)) (some (.machine (.named m y)))
  | transition (r : TransitionRule) (m : OpenMachine) (x : MachineExpect)
    (hs : r.scope = some m.scope) : Fits (.transition r) (some (.machine (.named m x)))
  | stateTransition (r : TransitionRule) (scope : Scope) (id : StateId) (x : StateExpect)
    (hs : r.scope = some scope) : Fits (.transition r) (some (.state (.named scope id x)))
  | motion (r : MotionRule) (scope : Scope) (id : StateId) (x : StateExpect) :
    Fits (.motion r) (some (.state (.named scope id x)))
  | child (r parent : MotionRule) : Fits (.motion r) (some (.motion parent))
  | record (r : RecordRule) (m : OpenMachine) (x : MachineExpect) :
    Fits (.record r) (some (.machine (.named m x)))
  | stateRecord (r : RecordRule) (scope : Scope) (id : StateId) (x : StateExpect) :
    Fits (.record r) (some (.state (.named scope id x)))

/-- A node that is declared in a machine is declared on top of the rule of this machine. -/
theorem Frame.Fits.below_name {f : Frame} {below : Option Frame} {scope : Scope} (h : f.Fits below)
    (hf : f = .machine (.unnamed true (some scope)) ∨ f = .state (.unnamed (some scope))) :
    ∃ m x, below = some (.machine (.named m x)) ∧ scope = m.scope := by
  rcases hf with rfl | rfl <;>
  · cases h
    exact ⟨_, _, rfl, rfl⟩

/-- Whether every rule of a stack may lie on the one below it. -/
def Stacked : List Frame → Prop
  | [] => True
  | f :: rest => f.Fits rest.head? ∧ Stacked rest

/-- The machine that a rule has declared. -/
def Frame.openMachine? : Frame → Option OpenMachine
  | .machine (.named m _) => some m
  | _ => none

/-- The state that a rule has declared. -/
def Frame.openState? : Frame → Option StateId
  | .state (.named _ id _) => some id
  | _ => none

/-- The machines on a stack, innermost first. -/
def openMachines (stack : List Frame) : List OpenMachine := stack.filterMap Frame.openMachine?

/-- Whether what a rule refers to exists, and its layer is the last one. -/
def Frame.Within (w : Wiring) : Frame → Prop
  | .machine (.named m _) =>
    m.scope.machine.index < w.machines.size ∧ m.scope.layer + 1 = w.layers ∧ m.scope.state = none
  | .state (.named _ id _) => id.index < w.states.size
  | _ => True

/-- The invariant of all readings that concerns the stack. -/
structure Sound (stack : List Frame) (w : Wiring) : Prop where
  stacked : Stacked stack
  within : ∀ f ∈ stack, f.Within w
  symbols : w.symbols.size = w.layers

/-! ## Turns keep the shape -/

theorem Frame.Fits.keeps {f f' : Frame} {below : Option Frame} (h : f.Fits below)
    (hk : f.Keeps f') : f'.Fits below := by
  cases hk with
  | same => exact h
  | parameter | motion | record => cases h <;> constructor
  | machine m m' x x' hs hp =>
    cases h with
    | layer _ _ h => exact .layer _ _ (hp.trans h)
    | machine _ outer _ y h hl hi =>
      exact .machine _ outer _ y (hp.trans h) (hs ▸ hl) (hs ▸ hi)
  | state scope id x x' =>
    cases h with
    | state _ _ m _ y h hl hm => exact .state _ _ m _ y h hl hm
  | transition r r' hs =>
    cases h with
    | transition _ m x h => exact .transition _ m x (hs.trans h)
    | stateTransition _ scope id x h => exact .stateTransition _ scope id x (hs.trans h)

theorem Frame.Within.keeps {f f' : Frame} {w : Wiring} (h : f.Within w) (hk : f.Keeps f') :
    f'.Within w := by
  cases hk with
  | machine m m' x x' hs hp => simpa only [Frame.Within, hs] using h
  | _ => exact h

/-- What a rule asks for can be attached to it. -/
theorem Frame.Asks.attach {f g : Frame} {below : Option Frame} {forward : Bool} (s : Session η)
    (h : f.Asks (some (.attach g forward))) (hf : f.Fits below) :
    ∃ g', g.onAttach f.context s = ⟨g', s, .ok ()⟩ ∧ g'.Fits (some f) ∧
      g'.openMachine? = none ∧ g'.openState? = none ∧ ∀ w, g'.Within w := by
  cases h with
  | layer => exact ⟨_, rfl, .layerName _, rfl, rfl, fun _ => trivial⟩
  | parameter => exact ⟨_, rfl, .parameter _, rfl, rfl, fun _ => trivial⟩
  | state m x => exact ⟨_, rfl, .stateName m x, rfl, rfl, fun _ => trivial⟩
  | machine m x => exact ⟨_, rfl, .machineName m x, rfl, rfl, fun _ => trivial⟩
  | machineTransition m x => exact ⟨_, rfl, .transition _ m x rfl, rfl, rfl, fun _ => trivial⟩
  | machineRecord m x => exact ⟨_, rfl, .record _ m x, rfl, rfl, fun _ => trivial⟩
  | motion scope id x =>
    cases hf with
    | state _ _ m _ y hs =>
      refine ⟨.motion { MotionRule.root with scope := some scope, slot := .state id }, ?_,
        .motion _ scope id x, rfl, rfl, fun _ => trivial⟩
      simp [Frame.onAttach, MotionRule.onAttach, MotionRule.root, Frame.context, hs]
  | stateTransition scope id x =>
    exact ⟨_, rfl, .stateTransition _ scope id x rfl, rfl, rfl, fun _ => trivial⟩
  | stateRecord scope id x => exact ⟨_, rfl, .stateRecord _ scope id x, rfl, rfl, fun _ => trivial⟩
  | child r tree key =>
    exact ⟨_, rfl, .child _ r, rfl, rfl, fun _ => trivial⟩

namespace Wiring

@[simp]
theorem register_machines (w : Wiring) (layer : Nat) (path : Path) (node : NodeRef) :
    (w.register layer path node).machines = w.machines := by
  unfold register; split <;> rfl

@[simp]
theorem register_states (w : Wiring) (layer : Nat) (path : Path) (node : NodeRef) :
    (w.register layer path node).states = w.states := by
  unfold register; split <;> rfl

@[simp]
theorem register_layers (w : Wiring) (layer : Nat) (path : Path) (node : NodeRef) :
    (w.register layer path node).layers = w.layers := by
  unfold register; split <;> rfl

@[simp]
theorem register_transitions (w : Wiring) (layer : Nat) (path : Path) (node : NodeRef) :
    (w.register layer path node).transitions = w.transitions := by
  unfold register; split <;> rfl

@[simp]
theorem register_pending (w : Wiring) (layer : Nat) (path : Path) (node : NodeRef) :
    (w.register layer path node).pending = w.pending := by
  unfold register; split <;> rfl

@[simp]
theorem register_dropped (w : Wiring) (layer : Nat) (path : Path) (node : NodeRef) :
    (w.register layer path node).dropped = w.dropped := by
  unfold register; split <;> rfl

@[simp]
theorem register_symbols_size (w : Wiring) (layer : Nat) (path : Path) (node : NodeRef) :
    (w.register layer path node).symbols.size = w.symbols.size := by
  unfold register; split <;> simp

end Wiring

theorem Frame.Within.mono {f : Frame} {w w' : Wiring} (h : f.Within w)
    (hm : w.machines.size ≤ w'.machines.size) (hs : w.states.size ≤ w'.states.size)
    (hl : w'.layers = w.layers) : f.Within w' := by
  cases f with
  | machine r =>
    cases r with
    | unnamed => trivial
    | named m x => exact ⟨Nat.lt_of_lt_of_le h.1 hm, by rw [hl]; exact h.2.1, h.2.2⟩
  | state r =>
    cases r with
    | unnamed => trivial
    | named scope id x => exact Nat.lt_of_lt_of_le h hs
  | _ => trivial

omit [Host η] in
theorem Session.size_machines (s : Session η) :
    s.wiring.machines.size = s.controller.machines.size := by simp [Session.wiring]

omit [Host η] in
theorem Session.size_states (s : Session η) :
    s.wiring.states.size = s.controller.states.size := by simp [Session.wiring]

/-- No machine lies below a rule that lies on the document. -/
theorem Stacked.of_document {parents : List Frame} (h : Stacked parents)
    (hd : parents.head? = some .document) : parents = [.document] := by
  match parents with
  | f :: rest =>
    cases hd
    obtain ⟨hf, -⟩ := h
    cases rest with
    | nil => rfl
    | cons g rest => cases hf

omit [Host η] in
/-- A turn leaves a sound stack, whatever happens to the rule on top of it afterwards. -/
theorem Sound.turn {e : Event} {s s' : Session η} {f f' : Frame} {parents : List Frame}
    {control : Control Frame} (h : Sound (f :: parents) s.wiring)
    (ht : Turn e s s' f f' control) : Sound (f' :: parents) s'.wiring := by
  obtain ⟨⟨hfit, hstack⟩, hwithin, hsym⟩ := h
  have htop := hwithin f List.mem_cons_self
  have hrest := fun g hg => hwithin g (List.mem_cons_of_mem f hg)
  cases ht with
  | quiet hw hk ha hd hq =>
    rw [hw]
    refine ⟨⟨hfit.keeps hk, hstack⟩, ?_, hsym⟩
    intro g hg
    rcases List.mem_cons.1 hg with rfl | hg
    · exact htop.keeps hk
    · exact hrest g hg
  | layer outer name hn hw =>
    have hp : parents = [.document] := by
      refine hstack.of_document ?_
      generalize parents.head? = below at hfit
      cases hfit; rfl
    subst hp
    refine ⟨⟨.layer _ _ rfl, hstack⟩, ?_, ?_⟩
    · intro g hg
      simp only [List.mem_cons, List.not_mem_nil, or_false] at hg
      rcases hg with rfl | rfl
      · refine ⟨?_, ?_, rfl⟩ <;> rw [hw]
        · simp [Wiring.addLayer, Wiring.addMachine, Session.wiring]
        · simp [Wiring.addLayer, Wiring.addMachine, Session.wiring]
      · trivial
    · simp [hw, Wiring.addLayer, Wiring.addMachine, hsym]
  | machine scope name hn hw =>
    have hgrow : ∀ g ∈ parents, g.Within s'.wiring := fun g hg =>
      (hrest g hg).mono (by simp [hw, Wiring.addMachine]) (by simp [hw, Wiring.addMachine])
        (by simp [hw, Wiring.addMachine])
    obtain ⟨m, x, hbelow, rfl⟩ := hfit.below_name (.inl rfl)
    obtain ⟨rest, rfl⟩ := List.head?_eq_some_iff.1 hbelow
    obtain ⟨hm, hl, hs⟩ := hrest _ List.mem_cons_self
    rw [s.size_machines] at hm
    refine ⟨⟨.machine _ m _ x rfl rfl hm, hstack⟩, List.forall_mem_cons.2 ⟨?_, hgrow⟩, ?_⟩
    · refine ⟨?_, ?_, rfl⟩ <;> rw [hw]
      · simp [Wiring.addMachine, s.size_machines]
      · simpa [Wiring.addMachine] using hl
    · simp [hw, Wiring.addMachine, hsym]
  | state scope name hn hw =>
    have hgrow : ∀ g ∈ parents, g.Within s'.wiring := fun g hg =>
      (hrest g hg).mono (by simp [hw, Wiring.addState]) (by simp [hw, Wiring.addState])
        (by simp [hw, Wiring.addState])
    obtain ⟨m, x, hbelow, rfl⟩ := hfit.below_name (.inr rfl)
    obtain ⟨rest, rfl⟩ := List.head?_eq_some_iff.1 hbelow
    refine ⟨⟨.state _ _ m _ x rfl rfl rfl, hstack⟩, List.forall_mem_cons.2 ⟨?_, hgrow⟩, ?_⟩
    · show _ < _
      rw [hw]
      simp [Wiring.addState, s.size_states]
    · simp [hw, Wiring.addState, hsym]
  | statement r r' hs hw =>
    have hw' : s'.wiring.machines = s.wiring.machines ∧ s'.wiring.states = s.wiring.states ∧
        s'.wiring.layers = s.wiring.layers ∧ s'.wiring.symbols = s.wiring.symbols := by
      rw [hw]; exact ⟨rfl, rfl, rfl, rfl⟩
    obtain ⟨h1, h2, h3, h4⟩ := hw'
    refine ⟨⟨hfit.keeps (.transition _ _ hs), hstack⟩, ?_, by rw [h3, h4]; exact hsym⟩
    intro g hg
    rcases List.mem_cons.1 hg with rfl | hg
    · trivial
    · exact (hrest g hg).mono (Nat.le_of_eq (by rw [h1])) (Nat.le_of_eq (by rw [h2])) h3

end MotionScript
