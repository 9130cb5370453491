import MotionScript.Proofs.Linking.Wiring
import MotionScript.Proofs.Steps.Rules
/-!
# Turns of the grammar

What a rule can do with a token, as far as linking is concerned: declare a node, queue the
transitions of a statement, or nothing. Together with the shape of the stack this is all that the
proofs about linking know of the rules.
-/

namespace MotionScript

variable {η : Type} [Host η]

/-! ## Statements -/

namespace TransitionRule

/-- The statement that a token ends, if it ends one. -/
def ended? (e : Event) : Nat → TransitionRule → Option TransitionRule
  | 0, _ => none
  | fuel + 1, r =>
    if r.ends e then if r.bracket then none else some r
    else
      match r.look e with
      | .ok l => if l.again then ended? e fuel l.rule else none
      | .error _ => none

/-- The rule once it knows where its statement starts. -/
def begun (r : TransitionRule) (e : Event) : TransitionRule :=
  { r with start := some (r.start.getD (e.span, e.position)) }

/-- The transitions that a token queues. -/
def queuedBy (r : TransitionRule) (c : Controller) (e : Event) : List Pending :=
  match ended? e maxLooks (r.begun e) with
  | some q =>
    match q.scope with
    | some scope => q.queued c scope (q.start.getD (e.span, e.position))
    | none => []
  | none => []

@[simp]
theorem expecting_scope (r : TransitionRule) (x : TransitionExpect) :
    (r.expecting x).scope = r.scope := rfl

theorem ended?_leads {e : Event} {fuel : Nat} {r q : TransitionRule}
    (h : ended? e fuel r = some q) : Leads e r q ∧ q.ends e = true := by
  induction fuel generalizing r with
  | zero => cases h
  | succ fuel ih =>
    simp only [ended?] at h
    split at h
    · split at h <;> cases h
      exact ⟨.refl _, ‹_›⟩
    · split at h
      · rename_i l hl
        split at h
        · exact (ih h).imp_left (.look hl)
        · cases h
      · cases h

omit [Host η] in
/-- A statement goes on, or it ends and its transitions are queued. -/
theorem lookAgain_ok {e : Event} {s s' : Session η} {r r' : TransitionRule} {fuel : Nat}
    {control : Control Frame} (h : lookAgain e s fuel r = .ok (r', s', control)) :
    Leads e r r' ∧ ((ended? e fuel r = none ∧ s' = s ∧ control = none) ∨
      ∃ scope, ended? e fuel r = some r' ∧ r'.scope = some scope ∧
        s' = { s with
          pending := s.pending ++
            r'.queued s.controller scope (r'.start.getD (e.span, e.position)) } ∧
        control = some (.detach false)) := by
  induction fuel generalizing r with
  | zero => cases h; exact ⟨.refl _, .inl ⟨rfl, rfl, rfl⟩⟩
  | succ fuel ih =>
    simp only [lookAgain, ended?] at h ⊢
    split at h
    · rename_i hends
      unfold finish at h
      rw [if_pos hends]
      split at h
      · cases h
      · rename_i hb
        split at h
        · cases h
        · rename_i scope hs
          cases h
          exact ⟨.refl _, .inr ⟨scope, by simp [hb], hs, rfl, rfl⟩⟩
    · rename_i hends
      obtain ⟨l, hl, h⟩ := except_bind_ok.1 h
      rw [if_neg hends, hl]
      simp only
      split at h
      · rename_i hagain
        rw [if_pos hagain]
        exact (ih h).imp_left (.look hl)
      · rename_i hagain
        cases h
        rw [if_neg hagain]
        exact ⟨.look hl (.refl _), .inl ⟨rfl, rfl, rfl⟩⟩

omit [Host η] in
theorem react_ok {e : Event} {s s' : Session η} {r r' : TransitionRule}
    {control : Control Frame} (h : r.react e s = .ok (r', s', control)) :
    Leads e (r.begun e) r' ∧
      s' = { s with pending := s.pending ++ r.queuedBy s.controller e } ∧
      ((r.queuedBy s.controller e = [] ∧ control = none) ∨
        control = some (.detach false) ∧ e.isSymbol ';' = true) := by
  unfold react at h
  obtain ⟨hleads, ⟨h1, rfl, h3⟩ | ⟨scope, h1, h2, rfl, h5⟩⟩ := lookAgain_ok h
  · have hq : r.queuedBy s'.controller e = [] := by simp only [queuedBy, begun, h1]
    rw [hq, List.append_nil]
    exact ⟨hleads, rfl, .inl ⟨rfl, h3⟩⟩
  · have hq : r.queuedBy s.controller e =
        r'.queued s.controller scope (r'.start.getD (e.span, e.position)) := by
      simp only [queuedBy, begun, h1, h2]
    rw [hq]
    exact ⟨hleads, rfl, .inr ⟨h5, (Bool.and_eq_true_iff.1 (ended?_leads h1).2).2⟩⟩

/-- Queued transitions belong to the scope of their statement. -/
theorem mem_queuedBy {r : TransitionRule} {c : Controller} {e : Event} {p : Pending}
    (h : p ∈ r.queuedBy c e) : ∃ scope any, r.scope = some scope ∧ p.home = home scope any ∧
      p.owner = scope.machine ∧ p.layer = scope.layer := by
  unfold queuedBy at h
  split at h
  · rename_i q hq
    split at h
    · rename_i scope hs
      obtain ⟨conditions, -, rfl⟩ := List.mem_map.1 h
      exact ⟨scope, q.any, (ended?_leads hq).1.keeps.1.symm.trans hs, rfl, rfl, rfl⟩
    · cases h
  · cases h

end TransitionRule

/-! ## Declarations -/

namespace Wiring

/-- The node of a layer with a path. -/
def node? (w : Wiring) (layer : Nat) (path : Path) : Option NodeRef :=
  (w.symbols.getD layer []).lookup path

/-- Makes a node known unless its path is taken. -/
def register (w : Wiring) (layer : Nat) (path : Path) (node : NodeRef) : Wiring :=
  if (w.node? layer path).isSome then w
  else { w with symbols := w.symbols.modify layer (· ++ [(path, node)]) }

def addMachine (w : Wiring) : Wiring := { w with machines := w.machines.push ([], []) }

def addState (w : Wiring) : Wiring := { w with states := w.states.push [] }

def addLayer (w : Wiring) : Wiring :=
  { w with layers := w.layers + 1, symbols := w.symbols.push [] }

def queue (w : Wiring) (groups : List Pending) : Wiring :=
  { w with pending := w.pending ++ groups }

end Wiring

theorem Session.wiring_register (s : Session η) (layer : Nat) (path : Path) (node : NodeRef)
    (e : Event) : (s.register layer path node e).wiring = s.wiring.register layer path node := by
  have hn : s.wiring.node? layer path = s.lookup? layer path := rfl
  unfold Session.register Wiring.register
  rw [hn]
  split
  · exact s.wiring_warn _ rfl
  · rfl

/-- The node that a token declares below a rule, with its layer and its path. -/
def Frame.declared? (e : Event) (s : Session η) : Frame → Option (Nat × Path × NodeRef)
  | .machine (.unnamed false _) =>
    e.name?.map fun name =>
      (s.controller.layers.size, ⟨[name]⟩, .machine ⟨s.controller.machines.size⟩)
  | .machine (.unnamed true (some scope)) =>
    e.name?.map fun name =>
      (scope.layer, scope.path.join name, .machine ⟨s.controller.machines.size⟩)
  | .state (.unnamed (some scope)) =>
    e.name?.map fun name =>
      (scope.layer, scope.path.join name, .state ⟨s.controller.states.size⟩)
  | _ => none

namespace MachineRule

theorem wiring_declareLayer (e : Event) (name : String) (s : Session η) :
    (declareLayer e name s).2.wiring = s.wiring.addMachine.addLayer.register
      s.controller.layers.size ⟨[name]⟩ (.machine ⟨s.controller.machines.size⟩) := by
  simp only [declareLayer, Session.wiring_persist, Session.wiring_register]
  simp [Session.wiring, Wiring.addMachine, Wiring.addLayer, Controller.addMachine,
    Controller.addLayer]

theorem wiring_declareNested (scope : Scope) (e : Event) (name : String) (s : Session η) :
    (declareNested scope e name s).2.wiring = s.wiring.addMachine.register
      scope.layer (scope.path.join name) (.machine ⟨s.controller.machines.size⟩) := by
  simp only [declareNested, Session.wiring_persist, Session.wiring_register]
  rw [Controller.wiring_modifyMachine]
  · simp [Session.wiring, Wiring.addMachine, Controller.addMachine]
  · exact fun _ => ⟨rfl, rfl⟩

end MachineRule

/-! ## Turns -/

/-- Whether a rule is still the same rule, in the same place. -/
inductive Frame.Keeps : Frame → Frame → Prop where
  | same (f : Frame) : Keeps f f
  | parameter (r r' : ParameterRule) : Keeps (.parameter r) (.parameter r')
  | machine (m m' : OpenMachine) (x x' : MachineExpect) (hs : m'.scope = m.scope)
    (hp : m'.parent = m.parent) : Keeps (.machine (.named m x)) (.machine (.named m' x'))
  | state (scope : Scope) (id : StateId) (x x' : StateExpect) :
    Keeps (.state (.named scope id x)) (.state (.named scope id x'))
  | transition (r r' : TransitionRule) (hs : r'.scope = r.scope) :
    Keeps (.transition r) (.transition r')
  | motion (r r' : MotionRule) : Keeps (.motion r) (.motion r')
  | record (r r' : RecordRule) : Keeps (.record r) (.record r')

/-- The changes of the stack that a rule asks for. -/
inductive Frame.Asks : Frame → Control Frame → Prop where
  | stay (f : Frame) : Asks f none
  | layer : Asks .document (some (.attach (.machine (.unnamed false none)) false))
  | parameter : Asks .document (some (.attach (.parameter .kind) true))
  | parameterEnd (r : ParameterRule) : Asks (.parameter r) (some (.detach false))
  | machineEnd (m : OpenMachine) (x : MachineExpect) :
    Asks (.machine (.named m x)) (some (.detach false))
  | state (m : OpenMachine) (x : MachineExpect) :
    Asks (.machine (.named m x)) (some (.attach (.state (.unnamed none)) false))
  | machine (m : OpenMachine) (x : MachineExpect) :
    Asks (.machine (.named m x)) (some (.attach (.machine (.unnamed true none)) false))
  | machineTransition (m : OpenMachine) (x : MachineExpect) :
    Asks (.machine (.named m x)) (some (.attach (.transition {}) true))
  | machineRecord (m : OpenMachine) (x : MachineExpect) :
    Asks (.machine (.named m x)) (some (.attach (.record (.typeName none none "")) true))
  | stateEnd (scope : Scope) (id : StateId) (x : StateExpect) :
    Asks (.state (.named scope id x)) (some (.detach false))
  | motion (scope : Scope) (id : StateId) (x : StateExpect) :
    Asks (.state (.named scope id x)) (some (.attach (.motion .root) true))
  | stateTransition (scope : Scope) (id : StateId) (x : StateExpect) :
    Asks (.state (.named scope id x)) (some (.attach (.transition {}) true))
  | stateRecord (scope : Scope) (id : StateId) (x : StateExpect) :
    Asks (.state (.named scope id x)) (some (.attach (.record (.typeName none none "")) true))
  | transitionEnd (r : TransitionRule) : Asks (.transition r) (some (.detach false))
  | child (r : MotionRule) (tree : MotionId) (key : ChildKey) :
    Asks (.motion r) (some (.attach (.motion (.child tree key)) false))
  | motionEnd (r : MotionRule) (forward : Bool) : Asks (.motion r) (some (.detach forward))
  | recordEnd (r : RecordRule) : Asks (.record r) (some (.detach false))

/-- What a rule makes of a token. -/
inductive Turn (e : Event) (s s' : Session η) : Frame → Frame → Control Frame → Prop where
  | quiet {f f' : Frame} {control : Control Frame} (hw : s'.wiring = s.wiring)
    (hk : f.Keeps f') (ha : f'.Asks control) (hd : f.declared? e s = none)
    (hq : ∀ r, f = .transition r → r.queuedBy s.controller e = []) : Turn e s s' f f' control
  | layer (outer : Option Scope) (name : String) (hn : e.name? = some name)
    (hw : s'.wiring = s.wiring.addMachine.addLayer.register s.controller.layers.size ⟨[name]⟩
      (.machine ⟨s.controller.machines.size⟩)) :
    Turn e s s' (.machine (.unnamed false outer))
      (.machine (.named ⟨⟨[name], s.controller.layers.size, ⟨s.controller.machines.size⟩, none,
        ⟨[name]⟩⟩, none, none⟩ .openBrace)) none
  | machine (scope : Scope) (name : String) (hn : e.name? = some name)
    (hw : s'.wiring = s.wiring.addMachine.register scope.layer (scope.path.join name)
      (.machine ⟨s.controller.machines.size⟩)) :
    Turn e s s' (.machine (.unnamed true (some scope)))
      (.machine (.named ⟨⟨scope.hint ++ [name], scope.layer, ⟨s.controller.machines.size⟩, none,
        scope.path.join name⟩, some scope.machine, none⟩ .openBrace)) none
  | state (scope : Scope) (name : String) (hn : e.name? = some name)
    (hw : s'.wiring = s.wiring.addState.register scope.layer (scope.path.join name)
      (.state ⟨s.controller.states.size⟩)) :
    Turn e s s' (.state (.unnamed (some scope)))
      (.state (.named
        { scope with state := some ⟨s.controller.states.size⟩, hint := scope.hint ++ [name] }
        ⟨s.controller.states.size⟩ .openBrace)) none
  | statement (r r' : TransitionRule) (hs : r'.scope = r.scope)
    (hw : s'.wiring = s.wiring.queue (r.queuedBy s.controller e)) :
    Turn e s s' (.transition r) (.transition r') (some (.detach false))

omit [Host η] in
theorem Turn.asks {e : Event} {s s' : Session η} {f f' : Frame} {control : Control Frame}
    (h : Turn e s s' f f' control) : f'.Asks control := by
  cases h with
  | quiet hw hk ha hd hq => exact ha
  | layer | machine | state => exact .stay _
  | statement r r' hs hw => exact .transitionEnd r'

theorem MachineRule.Move.turn {e : Event} {s s' : Session η} {r r' : MachineRule}
    {control : Control Frame} (h : Move e s r r' s' control) :
    Turn e s s' (.machine r) (.machine r') control := by
  have keeps (m : OpenMachine) (x x' : MachineExpect) :
      (Frame.machine (.named m x)).Keeps (.machine (.named m x')) := .machine m m x x' rfl rfl
  cases h with
  | layer outer hn => exact .layer outer _ hn (wiring_declareLayer e _ s)
  | nested scope hn => exact .machine scope _ hn (wiring_declareNested scope e _ s)
  | go m x x' => exact .quiet rfl (keeps m x x') (.stay _) rfl (by simp)
  | option m x => exact .quiet (by simp) (keeps m x _) (.stay _) rfl (by simp)
  | mask m reference => exact .quiet (by simp) (keeps m _ _) (.stay _) rfl (by simp)
  | sync m => exact .quiet rfl (keeps m _ _) (.stay _) rfl (by simp)
  | default m => exact .quiet rfl (.machine _ _ _ _ rfl rfl) (.stay _) rfl (by simp)
  | close m => exact .quiet rfl (keeps m _ _) (.machineEnd ..) rfl (by simp)
  | state m => exact .quiet rfl (keeps m _ _) (.state ..) rfl (by simp)
  | machine m => exact .quiet rfl (keeps m _ _) (.machine ..) rfl (by simp)
  | statement m => exact .quiet rfl (keeps m _ _) (.machineTransition ..) rfl (by simp)
  | record m => exact .quiet rfl (keeps m _ _) (.machineRecord ..) rfl (by simp)

namespace StateRule

theorem wiring_declare {scope : Scope} {e : Event} {name : String} {s s' : Session η}
    {r : StateRule} (h : declare (some scope) e name s = .ok (r, s')) :
    s'.wiring = s.wiring.addState.register scope.layer (scope.path.join name)
      (.state ⟨s.controller.states.size⟩) ∧
    r = .named { scope with
        state := some ⟨s.controller.states.size⟩, hint := scope.hint ++ [name] }
      ⟨s.controller.states.size⟩ .openBrace := by
  simp only [declare] at h
  cases h
  refine ⟨?_, rfl⟩
  simp only [Session.wiring_persist, Session.wiring_register]
  rw [Controller.wiring_modifyMachine]
  · simp [Session.wiring, Wiring.addState, Controller.addState]
  · exact fun _ => ⟨rfl, rfl⟩

theorem Move.turn {e : Event} {s s' : Session η} {r r' : StateRule} {control : Control Frame}
    (h : Move e s r r' s' control) :
    Turn e s s' (.state r) (.state r') control := by
  cases h with
  | declare scope hn hd =>
    obtain ⟨hw, rfl⟩ := wiring_declare hd
    exact .state scope _ hn hw
  | go => exact .quiet rfl (.state ..) (.stay _) rfl (by simp)
  | set scope id x x' hf =>
    exact .quiet (Controller.wiring_modifyState s _ id _ fun st => (hf st).1) (.state ..) (.stay _)
      rfl (by simp)
  | close => exact .quiet rfl (.state ..) (.stateEnd ..) rfl (by simp)
  | motion => exact .quiet rfl (.state ..) (.motion ..) rfl (by simp)
  | statement => exact .quiet rfl (.state ..) (.stateTransition ..) rfl (by simp)
  | record => exact .quiet rfl (.state ..) (.stateRecord ..) rfl (by simp)

end StateRule

/-- Every step of a rule is one of the turns. -/
theorem Frame.react_turn {e : Event} {s s' : Session η} {f f' : Frame} {control : Control Frame}
    (h : f.react e s = .ok (f', s', control)) : Turn e s s' f f' control := by
  cases react_move h with
  | layer => exact .quiet rfl (.same _) .layer rfl (by simp)
  | declaration => exact .quiet rfl (.same _) .parameter rfl (by simp)
  | parameter h =>
    obtain ⟨hw, rfl | rfl⟩ := h.quiet
    · exact .quiet hw (.parameter ..) (.stay _) rfl (by simp)
    · exact .quiet hw (.parameter ..) (.parameterEnd _) rfl (by simp)
  | machine h => exact h.turn
  | state h => exact h.turn
  | @transition r r' _ _ h =>
    obtain ⟨hleads, rfl, ⟨hq, rfl⟩ | ⟨rfl, -⟩⟩ := TransitionRule.react_ok h
    · refine .quiet (by rw [hq, List.append_nil]) (.transition _ _ hleads.keeps.1) (.stay _) rfl ?_
      rintro _ ⟨⟩; exact hq
    · exact .statement r r' hleads.keeps.1 rfl
  | motion h =>
    obtain ⟨hw, rfl | ⟨forward, rfl⟩ | ⟨tree, key, rfl⟩⟩ := h.quiet
    · exact .quiet hw (.motion ..) (.stay _) rfl (by simp)
    · exact .quiet hw (.motion ..) (.motionEnd ..) rfl (by simp)
    · exact .quiet hw (.motion ..) (.child ..) rfl (by simp)
  | record h =>
    obtain ⟨hw, rfl | rfl⟩ := h.quiet
    · exact .quiet hw (.record ..) (.stay _) rfl (by simp)
    · exact .quiet hw (.record ..) (.recordEnd _) rfl (by simp)

end MotionScript
