import MotionScript.Graph.Controller
/-!
# What belongs to the machines

Which nodes of a controller are in use: the states of the machines, their transitions, records and
motions, and the motions of blend trees in use.
-/

namespace MotionScript.Controller

def inRange (size : Nat) (used : Nat → Bool) : List Nat := (List.range size).filter used

/-- The states of all machines. -/
def usedStates (c : Controller) : List StateId :=
  let used := c.machines.toList.flatMap fun m => m.states.map (·.node)
  (inRange c.states.size fun i => used.contains ⟨i⟩).map StateId.mk

/-- The transitions of all machines and of their states. -/
def usedTransitions (c : Controller) : List TransitionId :=
  let used := c.machines.toList.flatMap (fun m => m.entryTransitions ++ m.anyTransitions) ++
    c.usedStates.flatMap fun id => (c.state id).transitions
  (inRange c.transitions.size fun i => used.contains ⟨i⟩).map TransitionId.mk

/-- The records of all machines and of their states. -/
def usedRecords (c : Controller) : List RecordId :=
  let used := c.machines.toList.flatMap (·.records) ++
    c.usedStates.flatMap fun id => (c.state id).records
  (inRange c.records.size fun i => used.contains ⟨i⟩).map RecordId.mk

def Motion.childMotions : Motion → List MotionId
  | .clip _ => []
  | .tree tree => tree.children.filterMap (·.motion)

/-- Adds motions and the motions below them to a list. No motion is followed twice, and none deeper
than `depth`. -/
def addMotions (c : Controller) (found : List MotionId) (ids : List MotionId) :
    Nat → List MotionId
  | 0 => found
  | depth + 1 =>
    ids.foldl (fun found id =>
        if found.contains id then found
        else c.addMotions (id :: found) (Motion.childMotions (c.motion id)) depth)
      found

/-- The motions of the states in use, and the motions of their blend trees. -/
def usedMotions (c : Controller) : List MotionId :=
  let used := c.addMotions [] (c.usedStates.filterMap fun id => (c.state id).motion)
    (c.motions.size + 1)
  (inRange c.motions.size fun i => used.contains ⟨i⟩).map MotionId.mk

end MotionScript.Controller
