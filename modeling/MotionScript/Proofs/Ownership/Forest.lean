import Mathlib.Data.List.Perm.Subperm
import Mathlib.Data.List.Nodup
import MotionScript.Graph.Reachable
/-!
# Who holds whom

The nodes of a well-formed controller form a forest: every machine is the root of a layer or a child
of one machine, every other node is in one list of one node. Children come after their parents.
-/

namespace MotionScript

/-! ## Nodes in lists -/

namespace Machine

def children (m : Machine) : List MachineId := m.machines.map (·.node)

def members (m : Machine) : List StateId := m.states.map (·.node)

/-- The entry transitions and the any-state transitions. -/
def listed (m : Machine) : List TransitionId := m.entryTransitions ++ m.anyTransitions

end Machine

namespace Controller

/-- The root machines of the layers. -/
def rootMachines (c : Controller) : List MachineId := c.layers.toList.map (·.machine)

def childMachines (c : Controller) : List MachineId := c.machines.toList.flatMap Machine.children

def childStates (c : Controller) : List StateId := c.machines.toList.flatMap Machine.members

/-- The transitions in all lists, one list after the other. -/
def listedTransitions (c : Controller) : List TransitionId :=
  c.machines.toList.flatMap Machine.listed ++ c.states.toList.flatMap State.transitions

def listedRecords (c : Controller) : List RecordId :=
  c.machines.toList.flatMap Machine.records ++ c.states.toList.flatMap State.records

/-- The motions of the states and in the slots of blend trees. -/
def placedMotions (c : Controller) : List MotionId :=
  c.states.toList.flatMap (·.motion.toList) ++ c.motions.toList.flatMap Motion.childMotions

/-- The transitions in the lists of a node. -/
def transitionsAt (c : Controller) : NodeRef → List TransitionId
  | .machine id => (c.machine id).listed
  | .state id => (c.state id).transitions

/-- The nodes of a layer: its root machine and all that is nested in it. -/
inductive InLayer (c : Controller) (layer : Nat) : NodeRef → Prop where
  | root {l : Layer} (h : c.layers[layer]? = some l) : InLayer c layer (.machine l.machine)
  | machine {outer inner : MachineId} (h : InLayer c layer (.machine outer))
    (hi : inner ∈ (c.machine outer).children) : InLayer c layer (.machine inner)
  | state {outer : MachineId} {id : StateId} (h : InLayer c layer (.machine outer))
    (hi : id ∈ (c.machine outer).members) : InLayer c layer (.state id)

/-- Whether a node of a layer has a path: the name of the layer, the names of the machines around the
node and its own name. -/
inductive HasPath (c : Controller) (layer : Nat) : NodeRef → Path → Prop where
  | root {l : Layer} (h : c.layers[layer]? = some l) :
    HasPath c layer (.machine l.machine) ⟨[l.name]⟩
  | machine {outer inner : MachineId} {path : Path} (h : HasPath c layer (.machine outer) path)
    (hi : inner ∈ (c.machine outer).children) :
    HasPath c layer (.machine inner) (path.join (c.machine inner).name)
  | state {outer : MachineId} {id : StateId} {path : Path}
    (h : HasPath c layer (.machine outer) path) (hi : id ∈ (c.machine outer).members) :
    HasPath c layer (.state id) (path.join (c.state id).name)

/-- Whether a destination is exit or a node of a layer. -/
def LeadsInto (c : Controller) (layer : Nat) : Destination → Prop
  | .exit => True
  | .state id => c.InLayer layer (.state id)
  | .machine id => c.InLayer layer (.machine id)

/-- Whether there is a node. -/
def Has (c : Controller) : NodeRef → Prop
  | .machine id => id.index < c.machines.size
  | .state id => id.index < c.states.size

/-! ## Well-formed controllers -/

/-- Whether layers, machines and states form a forest: every machine is the root of one layer or a
child of one machine, if any, and every state is a child of one machine, if any. -/
structure Forest (c : Controller) : Prop where
  machines : (c.rootMachines ++ c.childMachines).Nodup
  states : c.childStates.Nodup
  machines_lt : ∀ id ∈ c.rootMachines ++ c.childMachines, id.index < c.machines.size

/-- What nodes may refer to. -/
structure Coherent (c : Controller) : Prop where
  /-- Machines come before those nested in them. -/
  machine_lt : ∀ outer, ∀ inner ∈ (c.machine outer).children, outer.index < inner.index
  /-- Blend trees come before the motions in their slots. -/
  motion_lt : ∀ tree, ∀ child ∈ Motion.childMotions (c.motion tree), tree.index < child.index
  defaults_lt : ∀ m ∈ c.machines, ∀ id, m.defaultState = some id → id.index < c.states.size
  synced_lt : ∀ l ∈ c.layers, ∀ i, l.synced = some i → i < c.layers.size
  /-- Transitions stay in the layer of the node whose list holds them. -/
  destinations : ∀ node, ∀ id ∈ c.transitionsAt node, ∃ layer,
    c.InLayer layer node ∧ c.LeadsInto layer (c.transition id).destination
  parameters : (c.parameters.map (·.name)).Nodup
  named : ∀ p ∈ c.parameters, p.name ≠ ""

structure WellFormed (c : Controller) : Prop extends Coherent c where
  /-- Every machine is the root of one layer or a child of one machine. -/
  machines : (c.rootMachines ++ c.childMachines).Perm
    ((List.range c.machines.size).map MachineId.mk)
  /-- Every state is a child of one machine. -/
  states : c.childStates.Perm ((List.range c.states.size).map StateId.mk)
  /-- Every transition is in one list. -/
  transitions : c.listedTransitions.Perm ((List.range c.transitions.size).map TransitionId.mk)
  /-- Every record is in one list. -/
  records : c.listedRecords.Perm ((List.range c.records.size).map RecordId.mk)
  /-- No motion is used twice. -/
  motions : c.placedMotions.Nodup
  motions_lt : ∀ id ∈ c.placedMotions, id.index < c.motions.size

/-! ## Lookups -/

section Arrays

variable {α β : Type} [Inhabited α] {xs : Array α} {g : α → List β} {i j : Nat} {b : β}

theorem lt_size_of_mem (hg : g default = []) (hb : b ∈ g (xs.getD i default)) : i < xs.size := by
  by_contra hout
  rw [Array.getD_eq_getD_getElem?, Array.getElem?_eq_none (Nat.le_of_not_lt hout),
    Option.getD_none, hg] at hb
  cases hb

theorem mem_flatMap_of_mem (hg : g default = []) (hb : b ∈ g (xs.getD i default)) :
    b ∈ xs.toList.flatMap g := by
  have hi := lt_size_of_mem hg hb
  exact List.mem_flatMap.2 ⟨xs[i], Array.mem_def.1 (Array.getElem_mem hi), by simpa [hi] using hb⟩

theorem exists_of_mem_flatMap (hb : b ∈ xs.toList.flatMap g) :
    ∃ i < xs.size, b ∈ g (xs.getD i default) := by
  obtain ⟨x, hx, hb⟩ := List.mem_flatMap.1 hb
  obtain ⟨i, hi, rfl⟩ := Array.mem_iff_getElem.1 (Array.mem_def.2 hx)
  exact ⟨i, hi, by simpa [hi] using hb⟩

/-- An element of lists without repetitions is in one of them only. -/
theorem owner_unique (h : (xs.toList.flatMap g).Nodup) (hg : g default = [])
    (hi : b ∈ g (xs.getD i default)) (hj : b ∈ g (xs.getD j default)) : i = j := by
  have apart {k l : Nat} (hkl : k < l) (hk : b ∈ g (xs.getD k default))
      (hl : b ∈ g (xs.getD l default)) : False := by
    have hks := lt_size_of_mem hg hk
    have hls := lt_size_of_mem hg hl
    have hdisjoint := List.pairwise_iff_getElem.1 (List.nodup_flatMap.1 h).2 k l
      (by simpa using hks) (by simpa using hls) hkl
    exact hdisjoint (by simpa [hks] using hk) (by simpa [hls] using hl)
  rcases Nat.lt_trichotomy i j with hlt | heq | hgt
  · exact (apart hlt hi hj).elim
  · exact heq
  · exact (apart hgt hj hi).elim

end Arrays

theorem mem_childMachines {c : Controller} {outer inner : MachineId}
    (h : inner ∈ (c.machine outer).children) : inner ∈ c.childMachines :=
  mem_flatMap_of_mem rfl h

theorem mem_childStates {c : Controller} {outer : MachineId} {id : StateId}
    (h : id ∈ (c.machine outer).members) : id ∈ c.childStates :=
  mem_flatMap_of_mem rfl h

theorem mem_listedTransitions {c : Controller} {node : NodeRef} {id : TransitionId}
    (h : id ∈ c.transitionsAt node) : id ∈ c.listedTransitions := by
  cases node with
  | machine m => exact List.mem_append_left _ (mem_flatMap_of_mem rfl h)
  | state st => exact List.mem_append_right _ (mem_flatMap_of_mem rfl h)

theorem mem_ids {ι : Type} {mk : Nat → ι} {index : ι → Nat} (hmk : ∀ id, mk (index id) = id)
    (hindex : ∀ i, index (mk i) = i) {size : Nat} {id : ι} :
    id ∈ (List.range size).map mk ↔ index id < size := by
  simp only [List.mem_map, List.mem_range]
  constructor
  · rintro ⟨i, hi, rfl⟩
    rwa [hindex]
  · exact fun h => ⟨_, h, hmk id⟩

namespace WellFormed

variable {c : Controller}

theorem machine_mem (h : c.WellFormed) {id : MachineId} :
    id ∈ c.rootMachines ++ c.childMachines ↔ id.index < c.machines.size :=
  h.machines.mem_iff.trans (mem_ids (fun _ => rfl) (fun _ => rfl))

theorem state_mem (h : c.WellFormed) {id : StateId} :
    id ∈ c.childStates ↔ id.index < c.states.size :=
  h.states.mem_iff.trans (mem_ids (fun _ => rfl) (fun _ => rfl))

theorem transition_mem (h : c.WellFormed) {id : TransitionId} :
    id ∈ c.listedTransitions ↔ id.index < c.transitions.size :=
  h.transitions.mem_iff.trans (mem_ids (fun _ => rfl) (fun _ => rfl))

/-- The nodes of layers are nodes. -/
theorem has (h : c.WellFormed) {layer : Nat} {node : NodeRef} (hn : c.InLayer layer node) :
    c.Has node := by
  cases hn with
  | root hl =>
    refine h.machine_mem.1 (List.mem_append_left _ (List.mem_map.2 ⟨_, ?_, rfl⟩))
    exact Array.mem_def.1 (Array.mem_of_getElem? hl)
  | machine _ hi => exact h.machine_mem.1 (List.mem_append_right _ (mem_childMachines hi))
  | state _ hi => exact h.state_mem.1 (mem_childStates hi)

/-! ## Layers -/

/-- Every machine is in a layer. -/
theorem machine_inLayer (h : c.WellFormed) {id : MachineId} (hid : id.index < c.machines.size) :
    ∃ layer, c.InLayer layer (.machine id) := by
  induction hn : id.index using Nat.strongRecOn generalizing id with
  | _ n ih =>
    rcases List.mem_append.1 (h.machine_mem.2 hid) with hroot | hchild
    · obtain ⟨l, hl, rfl⟩ := List.mem_map.1 hroot
      obtain ⟨layer, hl⟩ := Array.mem_iff_getElem?.1 (Array.mem_def.2 hl)
      exact ⟨layer, .root hl⟩
    · obtain ⟨i, hi, hinner⟩ := exists_of_mem_flatMap hchild
      have hlt := h.machine_lt ⟨i⟩ id hinner
      have ho : (⟨i⟩ : MachineId).index < c.machines.size := hi
      obtain ⟨layer, houter⟩ := ih i (hn ▸ hlt) ho rfl
      exact ⟨layer, houter.machine hinner⟩

/-- Every node is in a layer. -/
theorem inLayer (h : c.WellFormed) {node : NodeRef} (hn : c.Has node) :
    ∃ layer, c.InLayer layer node := by
  cases node with
  | machine id => exact h.machine_inLayer hn
  | state id =>
    obtain ⟨i, hi, hmem⟩ := exists_of_mem_flatMap (h.state_mem.2 hn)
    have ho : (⟨i⟩ : MachineId).index < c.machines.size := hi
    obtain ⟨layer, houter⟩ := h.machine_inLayer ho
    exact ⟨layer, houter.state hmem⟩

theorem forest (h : c.WellFormed) : c.Forest where
  machines := h.machines.nodup_iff.2 (List.nodup_range.map fun _ _ => congrArg MachineId.index)
  states := h.states.nodup_iff.2 (List.nodup_range.map fun _ _ => congrArg StateId.index)
  machines_lt _ hid := h.machine_mem.1 hid

end WellFormed

/-! ### Paths in a forest -/

variable {c : Controller}

theorem HasPath.inLayer {layer : Nat} {node : NodeRef} {path : Path}
    (h : c.HasPath layer node path) : c.InLayer layer node := by
  induction h with
  | root hl => exact .root hl
  | machine _ hi ih => exact ih.machine hi
  | state _ hi ih => exact ih.state hi

theorem InLayer.exists_path {layer : Nat} {node : NodeRef} (h : c.InLayer layer node) :
    ∃ path, c.HasPath layer node path := by
  induction h with
  | root hl => exact ⟨_, .root hl⟩
  | machine _ hi ih => exact ih.elim fun _ ho => ⟨_, ho.machine hi⟩
  | state _ hi ih => exact ih.elim fun _ ho => ⟨_, ho.state hi⟩

/-- No node is in two layers, or has two paths. -/
theorem Forest.path_unique (h : c.Forest) {a b : Nat} {node : NodeRef} {p q : Path}
    (ha : c.HasPath a node p) (hb : c.HasPath b node q) : a = b ∧ p = q := by
  have root {i : Nat} {l : Layer} (hl : c.layers[i]? = some l) :
      c.rootMachines[i]? = some l.machine := by simp [rootMachines, hl]
  -- A root machine is not nested in another machine.
  have apart {i : Nat} {l : Layer} {outer : MachineId} (hl : c.layers[i]? = some l)
      (hi : l.machine ∈ (c.machine outer).children) : False :=
    List.disjoint_of_nodup_append h.machines (List.mem_of_getElem? (root hl))
      (mem_childMachines hi)
  induction ha generalizing q with
  | @root l hl =>
    generalize hn : NodeRef.machine l.machine = node at hb
    cases hb with
    | @root l' hl' =>
      have hlt := (List.getElem?_eq_some_iff.1 (root hl)).1
      obtain rfl : a = b := by
        refine (List.getElem?_inj hlt h.machines.of_append_left).1 ?_
        rw [root hl, root hl', NodeRef.machine.inj hn]
      obtain rfl : l = l' := Option.some.inj (hl.symm.trans hl')
      exact ⟨rfl, rfl⟩
    | machine _ hi => exact (apart hl (NodeRef.machine.inj hn ▸ hi)).elim
    | state => cases hn
  | @machine outer inner path ho hi ih =>
    generalize hn : NodeRef.machine inner = node at hb
    cases hb with
    | root hl => exact (apart hl (NodeRef.machine.inj hn ▸ hi)).elim
    | @machine outer' _ path' ho' hi' =>
      cases hn
      obtain rfl : outer = outer' := congrArg MachineId.mk
        (owner_unique h.machines.of_append_right rfl hi hi')
      exact (ih ho').imp_right (congrArg (Path.join · _))
    | state => cases hn
  | @state outer id path ho hi ih =>
    generalize hn : NodeRef.state id = node at hb
    cases hb with
    | root | machine => cases hn
    | @state outer' _ path' ho' hi' =>
      cases hn
      obtain rfl : outer = outer' := congrArg MachineId.mk (owner_unique h.states rfl hi hi')
      exact (ih ho').imp_right (congrArg (Path.join · _))

/-- No node is in two layers. -/
theorem WellFormed.layer_unique (h : c.WellFormed) {a b : Nat} {node : NodeRef}
    (ha : c.InLayer a node) (hb : c.InLayer b node) : a = b := by
  obtain ⟨p, ha⟩ := ha.exists_path
  obtain ⟨q, hb⟩ := hb.exists_path
  exact (h.forest.path_unique ha hb).1

end Controller

end MotionScript
