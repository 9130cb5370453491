import Mathlib.Algebra.GroupWithZero.Nat
import Mathlib.Data.List.Nodup
import MotionScript.Proofs.Graph.Equality
import MotionScript.Proofs.Layout.Machines
/-!
# Layout of unplaced machines

Every child of a machine is a body of its layout, so a layout gives each of them a place. Machines
are laid out one after another, and the layout of one is the same as in the graph before all of
them.
-/

namespace MotionScript

/-! ## One machine -/

/-- How many children of a machine are at another place in a machine with the same children.
Coordinates are compared as numbers, so one that is not a number differs from all. -/
def Machine.moved (before after : Machine) : Nat :=
  (before.states.zip after.states).countP (fun (p, q) => p.position != q.position) +
    (before.machines.zip after.machines).countP (fun (p, q) => p.position != q.position)

theorem position_beq_self {p q : Option (Vec2 Single)} (h : (p == q) = true) : (p == p) = true := by
  cases p with
  | none => rfl
  | some u =>
    cases q with
    | none => cases h
    | some v =>
      have hxy : ((u.x == v.x) && (u.y == v.y)) = true := h
      rw [Bool.and_eq_true] at hxy
      show ((u.x == u.x) && (u.y == u.y)) = true
      rw [PartialEquivBEq.trans hxy.1 (PartialEquivBEq.symm hxy.1),
        PartialEquivBEq.trans hxy.2 (PartialEquivBEq.symm hxy.2)]
      rfl

namespace Layout

variable {l : Layout} {α : Type} {node : α → LayoutNode}

/-- A child with a body is moved to its body, or is there already. -/
theorem settle_cases {placed : Placed α} (h : node placed.node ∈ l.nodes) :
    (∃ position, (placed.position != some position) = true ∧
        l.settle node placed = ({ placed with position := some position }, true)) ∨
      placed.position.isSome = true ∧ (placed.position == placed.position) = true ∧
        l.settle node placed = (placed, false) := by
  obtain ⟨position, hposition⟩ := Option.isSome_iff_exists.1 (isSome_rounded?.2 h)
  unfold settle
  simp only [hposition, Option.isSome_some, Bool.true_and]
  by_cases hsame : (placed.position == some position) = true
  · have hsome : placed.position.isSome = true := by
      cases hplaced : placed.position with
      | none => rw [hplaced] at hsame; cases hsame
      | some _ => rfl
    simp [bne, hsame, hsome, position_beq_self hsame]
  · exact .inl ⟨position, by simp [bne, hsame], by simp [bne, hsame]⟩

theorem isSome_settle {placed : Placed α} (h : node placed.node ∈ l.nodes) :
    (l.settle node placed).1.position.isSome = true := by
  obtain ⟨position, -, hsettle⟩ | ⟨hsome, -, hsettle⟩ := settle_cases h
  · rw [hsettle]
    rfl
  · rw [hsettle]
    exact hsome

theorem settle_moved {placed : Placed α} (h : node placed.node ∈ l.nodes) :
    (l.settle node placed).2 = (placed.position != (l.settle node placed).1.position) := by
  obtain ⟨position, hmoved, hsettle⟩ | ⟨-, hself, hsettle⟩ := settle_cases h
  · rw [hsettle, hmoved]
  · rw [hsettle, bne, hself]
    rfl

theorem settle_of_beq {placed : Placed α} (h : node placed.node ∈ l.nodes)
    (hsame : (placed.position != (l.settle node placed).1.position) = false) :
    (l.settle node placed).1 = placed := by
  obtain ⟨position, hmoved, hsettle⟩ | ⟨-, -, hsettle⟩ := settle_cases h
  · rw [hsettle] at hsame
    rw [hmoved] at hsame
    cases hsame
  · rw [hsettle]

/-- The children that were moved are those at another place. -/
theorem countP_settle {placed : List (Placed α)} (h : ∀ p ∈ placed, node p.node ∈ l.nodes) :
    (placed.map (l.settle node)).countP (·.2) =
      (placed.zip ((placed.map (l.settle node)).map (·.1))).countP
        fun (p, q) => p.position != q.position := by
  induction placed with
  | nil => rfl
  | cons p placed ih =>
    rw [List.forall_mem_cons] at h
    simp only [List.map_cons, List.zip_cons_cons, List.countP_cons, settle_moved h.1, ih h.2]

/-- Children at the same place were not touched. -/
theorem settle_kept {placed : List (Placed α)} (h : ∀ p ∈ placed, node p.node ∈ l.nodes) :
    ∀ pq ∈ placed.zip ((placed.map (l.settle node)).map (·.1)),
      (pq.1.position != pq.2.position) = false → pq.2 = pq.1 := by
  induction placed with
  | nil => simp
  | cons p placed ih =>
    rw [List.forall_mem_cons] at h
    simp only [List.map_cons, List.zip_cons_cons, List.forall_mem_cons]
    exact ⟨settle_of_beq h.1, ih h.2⟩

/-- A layout with a body for each child of a machine. -/
def Covers (l : Layout) (m : Machine) : Prop :=
  (∀ p ∈ m.states, .state p.node ∈ l.nodes) ∧ ∀ p ∈ m.machines, .machine p.node ∈ l.nodes

variable {m : Machine}

theorem hasUnplaced_apply (h : l.Covers m) : (l.apply m).2.hasUnplaced = false := by
  have hplaced {α : Type} {node : α → LayoutNode} {placed : List (Placed α)}
      (h : ∀ p ∈ placed, node p.node ∈ l.nodes) :
      ((placed.map (l.settle node)).map (·.1)).any (·.position.isNone) = false := by
    rw [List.any_eq_false]
    intro q hq
    rw [List.map_map] at hq
    obtain ⟨p, hp, rfl⟩ := List.mem_map.1 hq
    simpa using Option.isSome_iff_ne_none.1 (isSome_settle (h p hp))
  simp only [apply, Machine.hasUnplaced, hplaced h.1, hplaced h.2, Bool.or_self]

theorem apply_moved (h : l.Covers m) : (l.apply m).1 = m.moved (l.apply m).2 := by
  simp only [apply, Machine.moved, countP_settle h.1, countP_settle h.2]

theorem apply_kept (h : l.Covers m) :
    (∀ pq ∈ m.states.zip (l.apply m).2.states,
        (pq.1.position != pq.2.position) = false → pq.2 = pq.1) ∧
      ∀ pq ∈ m.machines.zip (l.apply m).2.machines,
        (pq.1.position != pq.2.position) = false → pq.2 = pq.1 :=
  ⟨settle_kept h.1, settle_kept h.2⟩

/-- The layout of a machine covers it. -/
theorem covers_ofMachine (c : Controller) (id : MachineId) (settings : LayoutSettings) :
    (ofMachine c id settings).Covers (c.machine id) := by
  have hchild {slot : LayoutNode × Option (Vec2 Single)} (hslot : slot ∈ children (c.machine id)) :
      slot.1 ∈ (ofMachine c id settings).nodes := by
    rw [mem_nodes_ofMachine, startingPoints, List.map_append, List.mem_append]
    refine .inr ?_
    obtain ⟨i, hi, rfl⟩ := List.mem_iff_getElem.1 hslot
    simp only [List.map_map, List.mem_map]
    exact ⟨((children (c.machine id))[i], i), List.mk_mem_zipIdx_iff_getElem?.2 (by simp [hi]), rfl⟩
  constructor
  · intro p hp
    exact hchild (List.mem_append_left _ (List.mem_map_of_mem hp))
  · intro p hp
    exact hchild (List.mem_append_right _ (List.mem_map_of_mem hp))

end Layout

namespace Controller

variable (c : Controller) (settings : LayoutSettings)

theorem solved_covers (id : MachineId) : (c.solved id settings).2.Covers (c.machine id) := by
  have h := Layout.covers_ofMachine c id settings
  unfold Layout.Covers solved at *
  rwa [Layout.nodes_iterate]

theorem hasUnplaced_laidOut (id : MachineId) : (c.laidOut id settings).2.hasUnplaced = false :=
  Layout.hasUnplaced_apply (c.solved_covers settings id)

theorem laidOut_moved (id : MachineId) :
    (c.laidOut id settings).1 = (c.machine id).moved (c.laidOut id settings).2 :=
  Layout.apply_moved (c.solved_covers settings id)

theorem laidOut_kept (id : MachineId) :
    (∀ pq ∈ (c.machine id).states.zip (c.laidOut id settings).2.states,
        (pq.1.position != pq.2.position) = false → pq.2 = pq.1) ∧
      ∀ pq ∈ (c.machine id).machines.zip (c.laidOut id settings).2.machines,
        (pq.1.position != pq.2.position) = false → pq.2 = pq.1 :=
  Layout.apply_kept (c.solved_covers settings id)

/-! ## Machines one after another -/

theorem foldl_layoutMachine (ids : List MachineId) (written : Nat) :
    ids.foldl (fun (written, c) id =>
      let (report, c) := c.layoutMachine id settings
      (written + report.written, c)) (written, c) =
    (written + (c.layoutEach settings ids).1, (c.layoutEach settings ids).2) := by
  induction ids generalizing written c with
  | nil => rfl
  | cons id ids ih =>
    rw [List.foldl_cons, layoutEach, List.foldl_cons]
    simp only [ih, Nat.zero_add, Nat.add_assoc]

theorem layoutEach_cons (id : MachineId) (ids : List MachineId) :
    c.layoutEach settings (id :: ids) =
      ((c.laidOut id settings).1 + ((c.layoutMachine id settings).2.layoutEach settings ids).1,
        ((c.layoutMachine id settings).2.layoutEach settings ids).2) := by
  have hfold := foldl_layoutMachine (c.layoutMachine id settings).2 settings ids
    (c.layoutMachine id settings).1.written
  rw [layoutEach, List.foldl_cons]
  simp only [Nat.zero_add]
  exact hfold

theorem layoutEach_withoutPositions (ids : List MachineId) :
    (c.layoutEach settings ids).2.withoutPositions = c.withoutPositions := by
  induction ids generalizing c with
  | nil => rfl
  | cons id ids ih => rw [layoutEach_cons, ih, layoutMachine_withoutPositions]

theorem machine_layoutEach_of_notMem {ids : List MachineId} {id : MachineId} (h : id ∉ ids) :
    (c.layoutEach settings ids).2.machine id = c.machine id := by
  induction ids generalizing c with
  | nil => rfl
  | cons other ids ih =>
    rw [List.mem_cons, not_or] at h
    rw [layoutEach_cons, ih _ h.2, machine_layoutMachine_of_ne _ _ _ h.1]

/-- Each machine is laid out as in the graph before all layouts. -/
theorem machine_layoutEach {ids : List MachineId} (hids : ids.Nodup) {id : MachineId} (h : id ∈ ids)
    (hid : id.index < c.machines.size) :
    (c.layoutEach settings ids).2.machine id = (c.laidOut id settings).2 := by
  induction ids generalizing c with
  | nil => cases h
  | cons other ids ih =>
    rw [List.nodup_cons] at hids
    rw [layoutEach_cons]
    by_cases heq : id = other
    · subst heq
      rw [machine_layoutEach_of_notMem _ _ hids.1, machine_layoutMachine _ _ _ hid]
    · have hmem : id ∈ ids := (List.mem_cons.1 h).resolve_left heq
      rw [ih _ hids.2 hmem (by simpa [layoutMachine_eq, modifyMachine] using hid),
        laidOut_congr (c.machine_layoutMachine_of_ne _ _ heq)
          (c.layoutMachine_withoutPositions _ _)]

theorem layoutEach_written {ids : List MachineId} (hids : ids.Nodup) :
    (c.layoutEach settings ids).1 = (ids.map fun id => (c.laidOut id settings).1).sum := by
  induction ids generalizing c with
  | nil => rfl
  | cons other ids ih =>
    rw [List.nodup_cons] at hids
    have hrest : ids.map (fun id => ((c.layoutMachine other settings).2.laidOut id settings).1) =
        ids.map fun id => (c.laidOut id settings).1 := by
      refine List.map_congr_left fun id hid => ?_
      have hne : id ≠ other := fun heq => hids.1 (heq ▸ hid)
      rw [laidOut_congr (c.machine_layoutMachine_of_ne _ _ hne)
        (c.layoutMachine_withoutPositions _ _)]
    rw [layoutEach_cons, ih _ hids.2, hrest, List.map_cons, List.sum_cons]

/-! ## Unplaced machines -/

/-- The machines with a child that has no position. -/
def unplacedIds : List MachineId := c.machineIds.filter fun id => (c.machine id).hasUnplaced

theorem nodup_machineIds : c.machineIds.Nodup :=
  List.nodup_range.map fun _ _ h => congrArg MachineId.index h

theorem nodup_unplacedIds : c.unplacedIds.Nodup := c.nodup_machineIds.filter _

variable {c} in
theorem mem_unplacedIds {id : MachineId} :
    id ∈ c.unplacedIds ↔ (c.machine id).hasUnplaced = true := by
  rw [unplacedIds, List.mem_filter]
  refine ⟨And.right, fun h => ⟨?_, h⟩⟩
  -- an id of no machine stands for a machine without children
  by_cases hid : id.index < c.machines.size
  · exact List.mem_map.2 ⟨id.index, List.mem_range.2 hid, rfl⟩
  · have hmachine : c.machine id = default := by
      simp [machine, Array.getD_eq_getD_getElem?, Array.getElem?_eq_none (Nat.le_of_not_lt hid)]
    rw [hmachine] at h
    cases h

theorem machine_layoutUnplaced {id : MachineId} (h : (c.machine id).hasUnplaced = true) :
    ((c.layoutUnplaced settings).2.machine id) = (c.laidOut id settings).2 := by
  have hid := mem_unplacedIds.2 h
  refine c.machine_layoutEach settings c.nodup_unplacedIds hid ?_
  obtain ⟨i, hi, rfl⟩ := List.mem_map.1 (List.mem_filter.1 hid).1
  exact List.mem_range.1 hi

theorem machine_layoutUnplaced_of_placed {id : MachineId}
    (h : (c.machine id).hasUnplaced = false) :
    (c.layoutUnplaced settings).2.machine id = c.machine id := by
  refine c.machine_layoutEach_of_notMem settings fun hid => ?_
  rw [mem_unplacedIds.1 hid] at h
  cases h

theorem hasUnplaced_layoutUnplaced (id : MachineId) :
    ((c.layoutUnplaced settings).2.machine id).hasUnplaced = false := by
  cases h : (c.machine id).hasUnplaced with
  | true => rw [c.machine_layoutUnplaced settings h, hasUnplaced_laidOut]
  | false => rw [c.machine_layoutUnplaced_of_placed settings h, h]

theorem layoutUnplaced_written : (c.layoutUnplaced settings).1 =
    (c.unplacedIds.map fun id =>
      (c.machine id).moved ((c.layoutUnplaced settings).2.machine id)).sum := by
  have hwritten := c.layoutEach_written settings c.nodup_unplacedIds
  refine hwritten.trans (congrArg List.sum (List.map_congr_left fun id hid => ?_))
  rw [c.machine_layoutUnplaced settings (mem_unplacedIds.1 hid), laidOut_moved]

theorem layoutUnplaced_of_placed (h : ∀ id, (c.machine id).hasUnplaced = false) :
    c.layoutUnplaced settings = (0, c) := by
  have hids : c.unplacedIds = [] := List.eq_nil_iff_forall_not_mem.2 fun id hid => by
    rw [mem_unplacedIds, h] at hid
    cases hid
  exact (congrArg (c.layoutEach settings) hids).trans rfl

/-- The layout of all unplaced machines gives every child of every machine a place and touches
nothing else. Machines where all children have a place stay as they are, and the others as they are
but for positions. The children counted are those at another place than before; a child that is not
counted keeps its position to the sign of a zero. There is nothing left for another layout. -/
theorem layoutUnplaced_places :
    (∀ id, (∀ p ∈ ((c.layoutUnplaced settings).2.machine id).states, p.position.isSome = true) ∧
      ∀ p ∈ ((c.layoutUnplaced settings).2.machine id).machines, p.position.isSome = true) ∧
    (∀ id, (c.machine id).hasUnplaced = false →
      (c.layoutUnplaced settings).2.machine id = c.machine id) ∧
    (c.layoutUnplaced settings).2.withoutPositions = c.withoutPositions ∧
    (c.layoutUnplaced settings).1 = (c.unplacedIds.map fun id =>
      (c.machine id).moved ((c.layoutUnplaced settings).2.machine id)).sum ∧
    (∀ id ∈ c.unplacedIds,
      (∀ pq ∈ (c.machine id).states.zip ((c.layoutUnplaced settings).2.machine id).states,
        (pq.1.position != pq.2.position) = false → pq.2 = pq.1) ∧
      ∀ pq ∈ (c.machine id).machines.zip ((c.layoutUnplaced settings).2.machine id).machines,
        (pq.1.position != pq.2.position) = false → pq.2 = pq.1) ∧
    ∀ settings', (c.layoutUnplaced settings).2.layoutUnplaced settings' =
      (0, (c.layoutUnplaced settings).2) := by
  refine ⟨fun id => ?_, fun id => c.machine_layoutUnplaced_of_placed settings,
    c.layoutEach_withoutPositions settings _, c.layoutUnplaced_written settings, fun id hid => ?_,
    fun settings' => layoutUnplaced_of_placed _ _ (c.hasUnplaced_layoutUnplaced settings)⟩
  · have h := c.hasUnplaced_layoutUnplaced settings id
    simpa [Machine.hasUnplaced, Option.isSome_iff_ne_none] using h
  · rw [c.machine_layoutUnplaced settings (mem_unplacedIds.1 hid)]
    exact c.laidOut_kept settings id

theorem layoutUnplaced_places_nested :
    nestedUnplaced.unplacedIds = [⟨0⟩, ⟨1⟩] ∧
      ((nestedUnplaced.layoutUnplaced {}).2.machine ⟨1⟩).states.all (·.position.isSome) = true ∧
      (nestedUnplaced.layoutUnplaced {}).2.layoutUnplaced {} =
        (0, (nestedUnplaced.layoutUnplaced {}).2) := by
  obtain ⟨hplaced, -, -, -, -, hagain⟩ := nestedUnplaced.layoutUnplaced_places {}
  exact ⟨by decide, List.all_eq_true.2 (hplaced ⟨1⟩).1, hagain {}⟩

end Controller

end MotionScript
