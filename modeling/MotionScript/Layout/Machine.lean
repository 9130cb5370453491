import MotionScript.Layout.Force
/-!
# Layout of machines

Each machine is laid out on its own. Its children, its entry, its exit and its any-state node are
the bodies; a nested machine is one body, whatever it holds.
-/

namespace MotionScript

/-- Where the child with a given index starts if it has no position: on a spiral, in pixels. -/
def spiralPosition (index : Nat) : Vec2 Float32 :=
  let distance := (Float32.ofNat (index + 1)).log / Float32.log 360
  let angle := distance * 3.1415927 / 12
  Vec2.scale ⟨angle.cos, angle.sin⟩ (distance * 30)

namespace Layout

/-- The children of a machine and their positions, states first. -/
def children (m : Machine) : List (LayoutNode × Option (Vec2 Single)) :=
  m.states.map (fun placed => (.state placed.node, placed.position)) ++
    m.machines.map (fun placed => (.machine placed.node, placed.position))

/-- The connections of a machine: its default state, and the transitions of its lists, of its states
and into its nested machines. -/
def connections (c : Controller) (m : Machine) : List (LayoutNode × LayoutNode) :=
  let leading (source : LayoutNode) (ids : List TransitionId) : List (LayoutNode × LayoutNode) :=
    ids.map fun id => (source, (c.transition id).destination.layoutNode)
  (m.defaultState.map fun id => (LayoutNode.entry, LayoutNode.state id)).toList ++
    leading .entry m.entryTransitions ++
    leading .any m.anyTransitions ++
    m.states.flatMap (fun placed =>
      leading (.state placed.node) (c.state placed.node).transitions) ++
    m.machines.flatMap (fun placed =>
      leading (.machine placed.node) (c.machine placed.node).entryTransitions)

/-- The bodies of a machine where they start. -/
def startingPoints (m : Machine) : List (LayoutNode × Vec2 Float32) :=
  [(.entry, m.entryPosition.map Single.toFloat32), (.exit, m.exitPosition.map Single.toFloat32),
    (.any, m.anyPosition.map Single.toFloat32)] ++
  (children m).zipIdx.map fun ((node, position), index) =>
    (node, (position.map (Vec2.map Single.toFloat32)).getD (spiralPosition index))

/-- The layout of a machine at its start. Connections that leave the machine are left out. -/
def ofMachine (c : Controller) (id : MachineId) (settings : LayoutSettings) : Layout :=
  let m := c.machine id
  let l := (startingPoints m).foldl (fun l (node, position) => l.addNode node position)
    (empty settings)
  (connections c m).foldl (fun l (a, b) => l.addEdge a b) l

/-- The position of a node in whole pixels. -/
def rounded? (l : Layout) (node : LayoutNode) : Option (Vec2 Single) :=
  (l.position? node).map fun p => p.round.map Single.ofFloat32

/-- Moves a child to its place in the layout. Tells whether it moved. -/
def settle {α : Type} (l : Layout) (node : α → LayoutNode) (placed : Placed α) : Placed α × Bool :=
  let position := l.rounded? (node placed.node)
  if position.isSome && placed.position != position then ({ placed with position }, true)
  else (placed, false)

/-- Writes the layout into a machine, and counts the children that moved. -/
def apply (l : Layout) (m : Machine) : Nat × Machine :=
  let states := m.states.map (l.settle .state)
  let machines := m.machines.map (l.settle .machine)
  (states.countP (·.2) + machines.countP (·.2),
    { m with
      states := states.map (·.1)
      machines := machines.map (·.1)
      entryPosition := (l.rounded? .entry).getD m.entryPosition
      exitPosition := (l.rounded? .exit).getD m.exitPosition
      anyPosition := (l.rounded? .any).getD m.anyPosition })

end Layout

/-- What the layout of a machine did. -/
structure LayoutReport extends Layout.Outcome where
  /-- How many children moved. -/
  written : Nat
deriving DecidableEq, Repr

namespace Controller

/-- Lays out a machine. -/
def layoutMachine (c : Controller) (id : MachineId) (settings : LayoutSettings) :
    LayoutReport × Controller :=
  let (outcome, l) := (Layout.ofMachine c id settings).iterate settings.iterations
  let (written, m) := l.apply (c.machine id)
  (⟨outcome, written⟩, c.modifyMachine id fun _ => m)

/-- Lays out machines one after another, and counts the children that moved. -/
def layoutEach (c : Controller) (settings : LayoutSettings) (ids : List MachineId) :
    Nat × Controller :=
  ids.foldl (fun (written, c) id =>
      let (report, c) := c.layoutMachine id settings
      (written + report.written, c))
    (0, c)

def machineIds (c : Controller) : List MachineId := (List.range c.machines.size).map MachineId.mk

/-- Lays out every machine with a child that has no position. -/
def layoutUnplaced (c : Controller) (settings : LayoutSettings) : Nat × Controller :=
  c.layoutEach settings (c.machineIds.filter fun id => (c.machine id).hasUnplaced)

/-- Lays out every machine. -/
def layoutAll (c : Controller) (settings : LayoutSettings) : Nat × Controller :=
  c.layoutEach settings c.machineIds

end Controller

end MotionScript
