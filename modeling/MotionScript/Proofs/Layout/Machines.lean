import Mathlib.Data.List.Perm.Basic
import MotionScript.Proofs.Layout.Bodies
/-!
# Layouts of machines

A layout reads its machine and which transitions lead to which nodes, and writes nothing but
positions in its machine. What one layout reads no other one writes, so machines can be laid out in
any order.
-/

namespace MotionScript

/-! ## What is written -/

/-- A machine without the positions in it. -/
def Machine.withoutPositions (m : Machine) : Machine :=
  { m with
    states := m.states.map ({ · with position := none })
    machines := m.machines.map ({ · with position := none })
    entryPosition := (default : Machine).entryPosition
    exitPosition := (default : Machine).exitPosition
    anyPosition := (default : Machine).anyPosition }

theorem Layout.settle_node {α : Type} (l : Layout) (node : α → LayoutNode) (placed : Placed α) :
    { (l.settle node placed).1 with position := none } = { placed with position := none } := by
  simp only [settle]
  split <;> rfl

theorem Layout.apply_withoutPositions (l : Layout) (m : Machine) :
    (l.apply m).2.withoutPositions = m.withoutPositions := by
  have hsettle {α : Type} (node : α → LayoutNode) (placed : List (Placed α)) :
      ((placed.map (l.settle node)).map (·.1)).map ({ · with position := none }) =
        placed.map ({ · with position := none }) := by
    rw [List.map_map, List.map_map]
    exact List.map_congr_left fun p _ => l.settle_node node p
  simp only [apply, Machine.withoutPositions, hsettle]

namespace Controller

/-- A graph without the positions in its machines. -/
def withoutPositions (c : Controller) : Controller :=
  { c with machines := c.machines.map Machine.withoutPositions }

theorem machine_withoutPositions (c : Controller) (id : MachineId) :
    c.withoutPositions.machine id = (c.machine id).withoutPositions := by
  simp only [machine, withoutPositions, Array.getD_eq_getD_getElem?, Array.getElem?_map]
  cases c.machines[id.index]? <;> rfl

variable (c : Controller) (id : MachineId) (settings : LayoutSettings)

/-- The layout of a machine when it is done, and how it went. -/
def solved : Layout.Outcome × Layout :=
  (Layout.ofMachine c id settings).iterate settings.iterations

/-- The machine with the positions of its layout, and how many children have moved. -/
def laidOut : Nat × Machine := (c.solved id settings).2.apply (c.machine id)

theorem layoutMachine_eq : c.layoutMachine id settings =
    (⟨(c.solved id settings).1, (c.laidOut id settings).1⟩,
      c.modifyMachine id fun _ => (c.laidOut id settings).2) := rfl

theorem machine_layoutMachine_of_ne {other : MachineId} (h : other ≠ id) :
    (c.layoutMachine id settings).2.machine other = c.machine other := by
  have hne : id.index ≠ other.index := fun heq => h (congrArg MachineId.mk heq).symm
  simp [layoutMachine_eq, machine, modifyMachine, Array.getElem?_modify, hne]

theorem machine_layoutMachine (h : id.index < c.machines.size) :
    (c.layoutMachine id settings).2.machine id = (c.laidOut id settings).2 := by
  simp [layoutMachine_eq, machine, modifyMachine, h, Array.getElem_modify]

theorem layoutMachine_withoutPositions :
    (c.layoutMachine id settings).2.withoutPositions = c.withoutPositions := by
  have hmachines : (c.machines.modify id.index fun _ => (c.laidOut id settings).2).map
      Machine.withoutPositions = c.machines.map Machine.withoutPositions := by
    apply Array.ext
    · simp
    · intro i hi _
      simp only [Array.getElem_map, Array.getElem_modify]
      split
      · rename_i heq
        subst heq
        rw [laidOut, Layout.apply_withoutPositions]
        simp_all [machine]
      · rfl
  simp only [layoutMachine_eq, withoutPositions, modifyMachine, hmachines]

/-! ## What is read -/

variable {c id} {c' : Controller}

/-- Transitions lead to the same nodes whatever positions there are. -/
theorem connections_congr (h : c'.withoutPositions = c.withoutPositions) (m : Machine) :
    Layout.connections c' m = Layout.connections c m := by
  have hstate : c'.state = c.state := funext fun id => congrArg (·.state id) h
  have htransition : c'.transition = c.transition := funext fun id => congrArg (·.transition id) h
  have hentry (id : MachineId) :
      (c'.machine id).entryTransitions = (c.machine id).entryTransitions := by
    have hmachine : (c'.machine id).withoutPositions = (c.machine id).withoutPositions := by
      rw [← machine_withoutPositions, h, machine_withoutPositions]
    have hlist := congrArg Machine.entryTransitions hmachine
    exact hlist
  simp only [Layout.connections, hstate, htransition, hentry]

/-- The layout of a machine depends on the positions in that machine only. -/
theorem solved_congr (hm : c'.machine id = c.machine id)
    (h : c'.withoutPositions = c.withoutPositions) (settings : LayoutSettings) :
    c'.solved id settings = c.solved id settings := by
  simp only [solved, Layout.ofMachine, hm, connections_congr h]

theorem laidOut_congr (hm : c'.machine id = c.machine id)
    (h : c'.withoutPositions = c.withoutPositions) (settings : LayoutSettings) :
    c'.laidOut id settings = c.laidOut id settings := by
  rw [laidOut, laidOut, solved_congr hm h, hm]

/-! ## Order -/

variable (c)

/-- The layout of another machine changes nothing for a machine. -/
theorem layoutMachine_layoutMachine {a b : MachineId} (hab : a ≠ b) :
    (c.layoutMachine a settings).2.layoutMachine b settings =
      ((c.layoutMachine b settings).1,
        (c.modifyMachine a fun _ => (c.laidOut a settings).2).modifyMachine b
          fun _ => (c.laidOut b settings).2) := by
  have hm := c.machine_layoutMachine_of_ne a settings hab.symm
  have h := c.layoutMachine_withoutPositions a settings
  rw [layoutMachine_eq, solved_congr hm h, laidOut_congr hm h]
  rfl

theorem modifyMachine_comm {a b : MachineId} (hab : a ≠ b) (f g : Machine → Machine) :
    (c.modifyMachine a f).modifyMachine b g = (c.modifyMachine b g).modifyMachine a f := by
  have hne : a.index ≠ b.index := fun heq => hab (congrArg MachineId.mk heq)
  have hmachines : (c.machines.modify a.index f).modify b.index g =
      (c.machines.modify b.index g).modify a.index f := by
    apply Array.ext
    · simp
    · intro i _ _
      simp only [Array.getElem_modify]
      grind
  simp only [modifyMachine, hmachines]

theorem layoutMachine_comm {a b : MachineId} (hab : a ≠ b) :
    ((c.layoutMachine a settings).2.layoutMachine b settings).2 =
        ((c.layoutMachine b settings).2.layoutMachine a settings).2 ∧
      ((c.layoutMachine b settings).2.layoutMachine a settings).1 =
        (c.layoutMachine a settings).1 ∧
      ((c.layoutMachine a settings).2.layoutMachine b settings).1 =
        (c.layoutMachine b settings).1 := by
  rw [c.layoutMachine_layoutMachine settings hab, c.layoutMachine_layoutMachine settings hab.symm]
  exact ⟨c.modifyMachine_comm hab _ _, rfl, rfl⟩

/-- Machines can be laid out in any order. -/
theorem layoutEach_perm {ids ids' : List MachineId} (h : ids.Perm ids') :
    c.layoutEach settings ids = c.layoutEach settings ids' := by
  refine h.foldl_eq' (fun a _ b _ ⟨written, c⟩ => ?_) _
  by_cases hab : a = b
  · subst hab
    rfl
  · obtain ⟨hc, ha, hb⟩ := c.layoutMachine_comm settings hab
    simp only [hc, ha, hb, Nat.add_right_comm]

/-- Layouts of different machines commute: the graph and both reports are the same in either order.
So all machines, or all unplaced ones, can be laid out in any order. -/
theorem layouts_commute :
    (∀ a b, a ≠ b →
      ((c.layoutMachine a settings).2.layoutMachine b settings).2 =
          ((c.layoutMachine b settings).2.layoutMachine a settings).2 ∧
        (c.layoutMachine a settings).1 =
          ((c.layoutMachine b settings).2.layoutMachine a settings).1 ∧
        ((c.layoutMachine a settings).2.layoutMachine b settings).1 =
          (c.layoutMachine b settings).1) ∧
    (∀ ids : List MachineId, ids.Perm c.machineIds →
      c.layoutEach settings ids = c.layoutAll settings) ∧
    ∀ ids : List MachineId,
      ids.Perm (c.machineIds.filter fun id => (c.machine id).hasUnplaced) →
      c.layoutEach settings ids = c.layoutUnplaced settings := by
  refine ⟨fun a b hab => ?_, fun ids h => c.layoutEach_perm settings h,
    fun ids h => c.layoutEach_perm settings h⟩
  obtain ⟨hc, ha, hb⟩ := c.layoutMachine_comm settings hab
  exact ⟨hc, ha.symm, hb⟩

/-- A machine with a state in a machine, both without a position. -/
def nestedUnplaced : Controller :=
  { name := "Hero"
    layers := #[{ name := "Base", machine := ⟨0⟩ }]
    machines := #[{ name := "Base", machines := [{ node := ⟨1⟩ }] },
      { name := "Move", states := [{ node := ⟨0⟩ }], defaultState := some ⟨0⟩ }]
    states := #[{ name := "Walk" }] }

theorem layouts_commute_nested :
    ((nestedUnplaced.layoutMachine ⟨0⟩ {}).2.layoutMachine ⟨1⟩ {}).2 =
        ((nestedUnplaced.layoutMachine ⟨1⟩ {}).2.layoutMachine ⟨0⟩ {}).2 ∧
      nestedUnplaced.layoutEach {} [⟨1⟩, ⟨0⟩] = nestedUnplaced.layoutUnplaced {} := by
  obtain ⟨hcomm, -, hunplaced⟩ := nestedUnplaced.layouts_commute {}
  exact ⟨(hcomm ⟨0⟩ ⟨1⟩ (by decide)).1, hunplaced _ (by decide)⟩

end Controller

end MotionScript
