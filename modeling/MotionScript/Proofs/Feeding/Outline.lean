import MotionScript.Proofs.Feeding.Knowledge
/-!
# Outlines

The part of a session that linking transitions leaves alone: the graph without its transitions, the
nodes known by path, the layers to be synchronised, and the other warnings.
-/

namespace MotionScript

/-! ## Graphs without transitions -/

def Machine.unlinked (m : Machine) : Machine :=
  { m with entryTransitions := [], anyTransitions := [] }

def State.unlinked (s : State) : State := { s with transitions := [] }

def Controller.unlinked (c : Controller) : Controller :=
  { c with
    transitions := #[]
    machines := c.machines.map Machine.unlinked
    states := c.states.map State.unlinked }

structure Outline where
  controller : Controller
  symbols : Array SymbolTable
  syncs : List (Nat × String)
  warnings : List Diagnostic

def Session.outline {η : Type} (s : Session η) : Outline where
  controller := s.controller.unlinked
  symbols := s.symbols
  syncs := s.syncs.map fun (layer, use) => (layer, use.name)
  warnings := s.warnings.filter (!·.isDrop)

def Outline.lookup? (o : Outline) (layer : Nat) (path : Path) : Option NodeRef :=
  (o.symbols.getD layer []).lookup path

theorem map_modify_comm {α β : Type} {f : α → α} {g : α → β} {h : β → β} (xs : Array α) (i : Nat)
    (hf : ∀ x, g (f x) = h (g x)) : (xs.modify i f).map g = (xs.map g).modify i h := by
  apply Array.ext
  · simp
  · intro j hj _
    simp only [Array.getElem_map, Array.getElem_modify]
    split <;> simp [hf]

namespace Controller

variable (c : Controller)

theorem unlinked_modifyMachine {f : Machine → Machine} (id : MachineId)
    (h : ∀ m, (f m).unlinked = f m.unlinked) :
    (c.modifyMachine id f).unlinked = c.unlinked.modifyMachine id f := by
  simp only [unlinked, modifyMachine]
  rw [map_modify_comm _ _ h]

theorem unlinked_modifyState {f : State → State} (id : StateId)
    (h : ∀ s, (f s).unlinked = f s.unlinked) :
    (c.modifyState id f).unlinked = c.unlinked.modifyState id f := by
  simp only [unlinked, modifyState]
  rw [map_modify_comm _ _ h]

theorem unlinked_addMachine (m : Machine) :
    (c.addMachine m).2.unlinked = (c.unlinked.addMachine m.unlinked).2 := by
  simp [unlinked, addMachine]

theorem unlinked_addState (s : State) :
    (c.addState s).2.unlinked = (c.unlinked.addState s.unlinked).2 := by
  simp [unlinked, addState]

@[simp]
theorem size_unlinked_machines : c.unlinked.machines.size = c.machines.size := Array.size_map

@[simp]
theorem size_unlinked_states : c.unlinked.states.size = c.states.size := Array.size_map

/-- Adding a linked transition is not seen in the outline. -/
theorem unlinked_attach (t : Transition) (home : Home) (id : TransitionId) :
    ((c.addTransition t).2.attach home id).unlinked = c.unlinked := by
  cases home with
  | entry m | any m =>
    simp only [attach, addTransition, modifyMachine, unlinked, mk.injEq, true_and, and_true]
    exact map_modify _ _ _ _ fun _ => rfl
  | state s =>
    simp only [attach, addTransition, modifyState, unlinked, mk.injEq, true_and, and_true]
    exact map_modify _ _ _ _ fun _ => rfl

end Controller

namespace Session

variable {η : Type} [Host η] (s : Session η)

omit [Host η] in
theorem outline_modify {f : Controller → Controller}
    (h : (f s.controller).unlinked = f s.controller.unlinked) :
    (s.modify f).outline = { s.outline with controller := f s.outline.controller } := by
  simp only [outline, modify, h]

@[simp]
theorem outline_persist (hint : List String) (object : ObjectRef) (name : String) :
    (s.persist hint object name).outline = s.outline := rfl

theorem outline_warn_drop {d : Diagnostic} (h : d.isDrop = true) :
    (s.warn d).outline = s.outline := by
  simp [outline, warn, h]

omit [Host η] in
theorem lookup?_outline (layer : Nat) (path : Path) :
    s.lookup? layer path = s.outline.lookup? layer path := rfl

/-- A node with a new path is registered. -/
theorem outline_register {layer : Nat} {path : Path} (node : NodeRef) (e : Event)
    (h : s.outline.lookup? layer path = none) :
    (s.register layer path node e).outline =
      { s.outline with symbols := s.outline.symbols.modify layer (· ++ [(path, node)]) } := by
  rw [register, lookup?_outline, h]
  rfl

/-! ## Linking -/

theorem outline_linkTo (p : Pending) (d : Destination) : (s.linkTo p d).outline = s.outline := by
  simp only [linkTo, outline_persist]
  simp only [outline, Controller.unlinked_attach]

theorem outline_link (parent : Option MachineId) (p : Pending) :
    (s.link parent p).outline = s.outline := by
  unfold link
  split
  · exact s.outline_linkTo p _
  · exact s.outline_warn_drop (s.dropWarning_place p _).1
  · rfl
  · exact s.outline_warn_drop (s.dropWarning_place p _).1

theorem outline_linkScope (scope : MachineId) (parent : Option MachineId) :
    (s.linkScope scope parent).outline = s.outline := by
  have hfold (ps : List Pending) (s : Session η) :
      (ps.foldl (link parent) s).outline = s.outline := by
    induction ps generalizing s with
    | nil => rfl
    | cons p ps ih => rw [List.foldl_cons, ih, outline_link]
  simp only [linkScope]
  exact hfold _ _

/-- The default state of a machine is found by its path. -/
theorem outline_linkDefault {scope : MachineId} {layer : Nat} {path : Path} {use : NameUse}
    {id : StateId} (h : s.outline.lookup? layer (path.join use.name) = some (.state id)) :
    (s.linkDefault scope layer path use).outline =
      { s.outline with
        controller := s.outline.controller.modifyMachine scope fun m =>
          { m with defaultState := some id } } := by
  simp only [linkDefault, lookup?_outline, h]
  exact s.outline_modify (s.controller.unlinked_modifyMachine scope fun _ => rfl)

theorem outline_linkSync {layer index : Nat} {use : NameUse}
    (h : s.outline.controller.layers.findIdx? (·.name = use.name) = some index) :
    (s.linkSync layer use).outline =
      { s.outline with
        controller := s.outline.controller.modifyLayer layer fun l =>
          { l with synced := some index } } := by
  have h' : s.controller.layers.findIdx? (·.name = use.name) = some index := h
  simp only [linkSync, h']
  exact s.outline_modify rfl

end Session

/-! ## Assets -/

/-- A reference that a host is known to find is found as it is. -/
theorem Session.exists_resolve {η : Type} [Host η] {κ : Knowledge} {s : Session η}
    {reference : String} {kind : AssetKind} (hs : κ.Holds s.host) (hr : κ.finds reference kind) :
    ∃ s', s.resolve reference kind = (some ⟨reference, kind⟩, s') ∧ s'.outline = s.outline ∧
      s'.controller = s.controller := by
  refine ⟨{ s with host := (Host.resolve s.host reference kind).2 }, ?_, rfl, rfl⟩
  simp only [resolve, hs.resolve hr]

end MotionScript
