import MotionScript.Proofs.Graph.Motions
import MotionScript.Proofs.Ownership.Forest
/-!
# Controllers as trees

When machines of two controllers are the same tree. The nodes of the one are then counterparts of the
nodes of the other: they are found in the same places.
-/

namespace MotionScript

/-! ## The same states -/

/-- A state without what it refers to. -/
def State.settings (s : State) : State := { s with motion := none, records := [], transitions := [] }

/-- Whether states of two controllers are equal, their transitions aside. -/
structure SameState (c c' : Controller) (s s' : State) : Prop where
  settings : (s'.settings == s.settings) = true
  motion : SameMotion c c' s.motion s'.motion
  records : s'.records.map c'.record = s.records.map c.record

/-- What holds of two lists in each place. -/
theorem forall₂_getElem? {α β : Type} {R : α → β → Prop} {xs : List α} {ys : List β}
    (h : List.Forall₂ R xs ys) {i : Nat} {x : α} {y : β} (hx : xs[i]? = some x)
    (hy : ys[i]? = some y) : R x y := by
  obtain ⟨hi, rfl⟩ := List.getElem?_eq_some_iff.1 hx
  obtain ⟨hi', rfl⟩ := List.getElem?_eq_some_iff.1 hy
  exact h.get hi hi'

namespace Controller

/-! ## Matching trees -/

/-- Whether machines of two controllers are trees of the same shape. `P` holds of machines in the same
place, and `Q` of states in the same place in a machine. -/
inductive Matches (c c' : Controller) (P : MachineId → MachineId → Prop)
    (Q : MachineId → StateId → StateId → Prop) : MachineId → MachineId → Prop where
  | node {m m' : MachineId} (own : P m m')
    (states : List.Forall₂ (fun a b => Q m' a.node b.node) (c.machine m).states
      (c'.machine m').states)
    (machines : List.Forall₂ (fun a b => Matches c c' P Q a.node b.node) (c.machine m).machines
      (c'.machine m').machines) : Matches c c' P Q m m'

/-- Whether nodes of two controllers are in the same place in a layer. -/
inductive Counterpart (c c' : Controller) (layer : Nat) : NodeRef → NodeRef → Prop where
  | root {l l' : Layer} (h : c.layers[layer]? = some l) (h' : c'.layers[layer]? = some l') :
    Counterpart c c' layer (.machine l.machine) (.machine l'.machine)
  | machine {m m' : MachineId} {i : Nat} {x x' : Placed MachineId}
    (h : Counterpart c c' layer (.machine m) (.machine m'))
    (hx : (c.machine m).machines[i]? = some x) (hx' : (c'.machine m').machines[i]? = some x') :
    Counterpart c c' layer (.machine x.node) (.machine x'.node)
  | state {m m' : MachineId} {i : Nat} {x x' : Placed StateId}
    (h : Counterpart c c' layer (.machine m) (.machine m'))
    (hx : (c.machine m).states[i]? = some x) (hx' : (c'.machine m').states[i]? = some x') :
    Counterpart c c' layer (.state x.node) (.state x'.node)

variable {c c' : Controller} {P : MachineId → MachineId → Prop}
  {Q : MachineId → StateId → StateId → Prop} {layer : Nat}

theorem Matches.own {m m' : MachineId} (h : Matches c c' P Q m m') : P m m' := by
  cases h with
  | node own _ _ => exact own

/-- What matches at the root matches at all counterparts. -/
theorem Counterpart.matches {n n' : NodeRef} (h : Counterpart c c' layer n n')
    (hroot : ∀ l l', c.layers[layer]? = some l → c'.layers[layer]? = some l' →
      Matches c c' P Q l.machine l'.machine) :
    match n, n' with
    | .machine m, .machine m' => Matches c c' P Q m m'
    | .state s, .state s' => ∃ m m', Counterpart c c' layer (.machine m) (.machine m') ∧
        s ∈ (c.machine m).members ∧ s' ∈ (c'.machine m').members ∧ Q m' s s'
    | _, _ => False := by
  induction h with
  | root h h' => exact hroot _ _ h h'
  | @machine m m' i x x' h hx hx' ih =>
    cases ih with
    | node _ _ machines =>
      exact forall₂_getElem? machines hx hx'
  | @state m m' i x x' h hx hx' ih =>
    cases ih with
    | node _ states _ =>
      refine ⟨m, m', h, List.mem_map.2 ⟨x, List.mem_of_getElem? hx, rfl⟩,
        List.mem_map.2 ⟨x', List.mem_of_getElem? hx', rfl⟩, ?_⟩
      exact forall₂_getElem? states hx hx'

end Controller

end MotionScript
