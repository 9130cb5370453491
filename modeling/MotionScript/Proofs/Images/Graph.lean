import MotionScript.Graph.Controller
/-!
# Graphs that follow graphs

A graph is put behind another one: its nodes keep what they are, and all indices are moved up by the
number of nodes in front. Whatever is done to the graph can as well be done to what it has become.
-/

namespace MotionScript

/-! ## Indices -/

/-- How many layers and nodes of each kind are in front of a graph. -/
structure Offsets where
  layers : Nat := 0
  machines : Nat := 0
  states : Nat := 0
  transitions : Nat := 0
  motions : Nat := 0
  records : Nat := 0

namespace Offsets

variable (o : Offsets)

def machineId (id : MachineId) : MachineId := ⟨o.machines + id.index⟩

def stateId (id : StateId) : StateId := ⟨o.states + id.index⟩

def transitionId (id : TransitionId) : TransitionId := ⟨o.transitions + id.index⟩

def motionId (id : MotionId) : MotionId := ⟨o.motions + id.index⟩

def recordId (id : RecordId) : RecordId := ⟨o.records + id.index⟩

def node : NodeRef → NodeRef
  | .state id => .state (o.stateId id)
  | .machine id => .machine (o.machineId id)

def destination : Destination → Destination
  | .state id => .state (o.stateId id)
  | .machine id => .machine (o.machineId id)
  | .exit => .exit

theorem machineId_injective : Function.Injective o.machineId := by
  rintro ⟨i⟩ ⟨j⟩ h
  simp only [machineId, MachineId.mk.injEq] at h ⊢
  omega

/-! ## Nodes -/

def transition (t : Transition) : Transition :=
  { t with destination := o.destination t.destination }

def slot (m : ChildMotion) : ChildMotion := { m with motion := m.motion.map o.motionId }

def tree (t : BlendTree) : BlendTree := { t with children := t.children.map o.slot }

def motion : Motion → Motion
  | .clip asset => .clip asset
  | .tree t => .tree (o.tree t)

def state (s : State) : State :=
  { s with
    motion := s.motion.map o.motionId
    records := s.records.map o.recordId
    transitions := s.transitions.map o.transitionId }

def machine (m : Machine) : Machine :=
  { m with
    states := m.states.map fun x => ⟨o.stateId x.node, x.position⟩
    machines := m.machines.map fun x => ⟨o.machineId x.node, x.position⟩
    defaultState := m.defaultState.map o.stateId
    entryTransitions := m.entryTransitions.map o.transitionId
    anyTransitions := m.anyTransitions.map o.transitionId
    records := m.records.map o.recordId }

def layer (l : Layer) : Layer :=
  { l with machine := o.machineId l.machine, synced := l.synced.map (o.layers + ·) }

end Offsets

namespace Controller

def offsets (c : Controller) : Offsets where
  layers := c.layers.size
  machines := c.machines.size
  states := c.states.size
  transitions := c.transitions.size
  motions := c.motions.size
  records := c.records.size

/-- A graph with the layers and nodes of another one behind its own. The parameters are those of the
other one. -/
def followedBy (front c : Controller) : Controller :=
  { c with
    name := front.name
    layers := front.layers ++ c.layers.map front.offsets.layer
    machines := front.machines ++ c.machines.map front.offsets.machine
    states := front.states ++ c.states.map front.offsets.state
    transitions := front.transitions ++ c.transitions.map front.offsets.transition
    motions := front.motions ++ c.motions.map front.offsets.motion
    records := front.records ++ c.records }

end Controller

/-! ## Lists of nodes -/

section Arrays

variable {α β : Type} (xs : Array β) (ys : Array α) (f : α → β)

theorem append_map_modify {f : α → β} {g : α → α} {g' : β → β} (h : ∀ y, f (g y) = g' (f y))
    (i : Nat) : (xs ++ ys.map f).modify (xs.size + i) g' = xs ++ (ys.modify i g).map f := by
  refine Array.ext_getElem? fun j => ?_
  rw [Array.getElem?_modify, Array.getElem?_append, Array.getElem?_append]
  by_cases hj : j < xs.size
  · rw [if_pos hj, if_pos hj, if_neg (by omega)]
  · rw [if_neg hj, if_neg hj, Array.getElem?_map, Array.getElem?_map, Array.getElem?_modify]
    by_cases hij : i = j - xs.size
    · rw [if_pos (by omega), if_pos hij]
      cases ys[j - xs.size]? <;> simp [h]
    · rw [if_neg (by omega), if_neg hij]

theorem append_map_getD (d : α) (i : Nat) :
    (xs ++ ys.map f).getD (xs.size + i) (f d) = f (ys.getD i d) := by
  rw [Array.getD_eq_getD_getElem?, Array.getD_eq_getD_getElem?, Array.getElem?_append,
    if_neg (by omega), Array.getElem?_map, Nat.add_sub_cancel_left]
  cases ys[i]? <;> rfl

end Arrays

/-! ## Changes of a graph -/

namespace Controller

variable (front c : Controller)

theorem followedBy_state (id : StateId) :
    (front.followedBy c).state (front.offsets.stateId id) = front.offsets.state (c.state id) :=
  append_map_getD front.states c.states front.offsets.state default id.index

theorem followedBy_record (id : RecordId) :
    (front.followedBy c).record (front.offsets.recordId id) = c.record id := by
  have h := append_map_getD front.records c.records (fun r => r) default id.index
  rwa [Array.map_id'] at h

theorem followedBy_addLayer (l : Layer) :
    (front.followedBy c).addLayer (front.offsets.layer l) =
      (front.offsets.layers + (c.addLayer l).1, front.followedBy (c.addLayer l).2) := by
  simp [addLayer, followedBy, offsets, Array.push_append]

theorem followedBy_addMachine (m : Machine) :
    (front.followedBy c).addMachine (front.offsets.machine m) =
      (front.offsets.machineId (c.addMachine m).1, front.followedBy (c.addMachine m).2) := by
  simp [addMachine, followedBy, offsets, Offsets.machineId, Array.push_append]

theorem followedBy_addState (s : State) :
    (front.followedBy c).addState (front.offsets.state s) =
      (front.offsets.stateId (c.addState s).1, front.followedBy (c.addState s).2) := by
  simp [addState, followedBy, offsets, Offsets.stateId, Array.push_append]

theorem followedBy_addTransition (t : Transition) :
    (front.followedBy c).addTransition (front.offsets.transition t) =
      (front.offsets.transitionId (c.addTransition t).1,
        front.followedBy (c.addTransition t).2) := by
  simp [addTransition, followedBy, offsets, Offsets.transitionId, Array.push_append]

theorem followedBy_addMotion (m : Motion) :
    (front.followedBy c).addMotion (front.offsets.motion m) =
      (front.offsets.motionId (c.addMotion m).1, front.followedBy (c.addMotion m).2) := by
  simp [addMotion, followedBy, offsets, Offsets.motionId, Array.push_append]

theorem followedBy_addRecord (r : Record) :
    (front.followedBy c).addRecord r =
      (front.offsets.recordId (c.addRecord r).1, front.followedBy (c.addRecord r).2) := by
  simp [addRecord, followedBy, offsets, Offsets.recordId, Array.push_append]

variable {front c}

theorem followedBy_modifyLayer {g g' : Layer → Layer}
    (h : ∀ l, front.offsets.layer (g l) = g' (front.offsets.layer l)) (i : Nat) :
    (front.followedBy c).modifyLayer (front.offsets.layers + i) g' =
      front.followedBy (c.modifyLayer i g) := by
  simp only [modifyLayer, followedBy]
  rw [show front.offsets.layers = front.layers.size from rfl, append_map_modify _ _ h]

theorem followedBy_modifyMachine {g g' : Machine → Machine}
    (h : ∀ m, front.offsets.machine (g m) = g' (front.offsets.machine m)) (id : MachineId) :
    (front.followedBy c).modifyMachine (front.offsets.machineId id) g' =
      front.followedBy (c.modifyMachine id g) := by
  simp only [modifyMachine, followedBy, Offsets.machineId]
  rw [show front.offsets.machines = front.machines.size from rfl, append_map_modify _ _ h]

theorem followedBy_modifyState {g g' : State → State}
    (h : ∀ s, front.offsets.state (g s) = g' (front.offsets.state s)) (id : StateId) :
    (front.followedBy c).modifyState (front.offsets.stateId id) g' =
      front.followedBy (c.modifyState id g) := by
  simp only [modifyState, followedBy, Offsets.stateId]
  rw [show front.offsets.states = front.states.size from rfl, append_map_modify _ _ h]

theorem followedBy_modifyMotion {g g' : Motion → Motion}
    (h : ∀ m, front.offsets.motion (g m) = g' (front.offsets.motion m)) (id : MotionId) :
    (front.followedBy c).modifyMotion (front.offsets.motionId id) g' =
      front.followedBy (c.modifyMotion id g) := by
  simp only [modifyMotion, followedBy, Offsets.motionId]
  rw [show front.offsets.motions = front.motions.size from rfl, append_map_modify _ _ h]

theorem followedBy_modifyRecord {g : Record → Record} (id : RecordId) :
    (front.followedBy c).modifyRecord (front.offsets.recordId id) g =
      front.followedBy (c.modifyRecord id g) := by
  have h := append_map_modify front.records c.records (f := fun r => r) (g := g) (fun _ => rfl)
    id.index
  rw [Array.map_id', Array.map_id'] at h
  simp only [modifyRecord, followedBy, Offsets.recordId]
  rw [show front.offsets.records = front.records.size from rfl, h]

end Controller

/-! ## Nothing in front -/

namespace Offsets

theorem machineId_nothing : machineId {} = id := funext fun _ => by simp [machineId]

theorem stateId_nothing : stateId {} = id := funext fun _ => by simp [stateId]

theorem transitionId_nothing : transitionId {} = id := funext fun _ => by simp [transitionId]

theorem motionId_nothing : motionId {} = id := funext fun _ => by simp [motionId]

theorem recordId_nothing : recordId {} = id := funext fun _ => by simp [recordId]

theorem layer_nothing : layer {} = id :=
  funext fun l => by simp [layer, machineId_nothing]

theorem machine_nothing : machine {} = id :=
  funext fun m => by
    simp [machine, machineId_nothing, stateId_nothing, transitionId_nothing, recordId_nothing]

theorem state_nothing : state {} = id :=
  funext fun s => by simp [state, motionId_nothing, transitionId_nothing, recordId_nothing]

theorem transition_nothing : transition {} = id :=
  funext fun t => by
    obtain ⟨destination, _⟩ := t
    cases destination <;>
      simp [transition, destination, machineId_nothing, stateId_nothing]

theorem motion_nothing : motion {} = id := by
  have hs : slot {} = id := funext fun m => by simp [slot, motionId_nothing]
  exact funext fun m => by cases m <;> simp [motion, tree, hs]

end Offsets

/-- Behind nothing a graph stays as it is, but for its name. -/
theorem Controller.followedBy_nothing (name : String) (c : Controller) :
    followedBy { name } c = { c with name } := by
  simp [followedBy, show ({ name } : Controller).offsets = {} from rfl, Offsets.layer_nothing,
    Offsets.machine_nothing, Offsets.state_nothing, Offsets.transition_nothing,
    Offsets.motion_nothing]

theorem Controller.followedBy_named {c : Controller} {name : String} (h : c.name = name) :
    followedBy { name } c = c := by
  subst h
  exact followedBy_nothing c.name c

/-- A graph followed by nothing stays as it is. -/
theorem Controller.followedBy_empty {c : Controller} (h : c.parameters = []) (name : String) :
    c.followedBy { name } = c := by
  obtain ⟨name', parameters, layers, machines, states, transitions, motions, records⟩ := c
  obtain rfl : parameters = [] := h
  simp [followedBy]

end MotionScript
