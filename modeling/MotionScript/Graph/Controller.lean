import MotionScript.Graph.Path
import MotionScript.Graph.Record
import MotionScript.Graph.Vec2
import MotionScript.Text.Keyword
/-!
# The controller graph

A controller holds typed parameters and layers. Each layer has a root machine; machines hold states
and further machines. Nodes of a kind are kept in one array and refer to each other by index, in the
order in which they were added.
-/

namespace MotionScript

/-! ## Indices -/

structure MachineId where
  index : Nat
deriving DecidableEq, BEq, Repr, Inhabited

structure StateId where
  index : Nat
deriving DecidableEq, BEq, Repr, Inhabited

structure TransitionId where
  index : Nat
deriving DecidableEq, BEq, Repr, Inhabited

structure MotionId where
  index : Nat
deriving DecidableEq, BEq, Repr, Inhabited

structure RecordId where
  index : Nat
deriving DecidableEq, BEq, Repr, Inhabited

/-! ## Parameters -/

inductive ParameterKind where
  | float
  | int
  | bool
  | trigger
deriving DecidableEq, Repr

instance : Keyword ParameterKind where
  all := [.float, .int, .bool, .trigger]
  spelling
    | .float => "float"
    | .int => "int"
    | .bool => "bool"
    | .trigger => "trigger"
  noun := "parameter type"

/-- The default of a parameter. -/
inductive ParameterValue where
  | float (value : Single)
  | int (value : Int)
  | bool (value : Bool)
  | trigger (value : Bool)
deriving DecidableEq, BEq, Repr

namespace ParameterValue

def zero : ParameterKind → ParameterValue
  | .float => .float .zero
  | .int => .int 0
  | .bool => .bool false
  | .trigger => .trigger false

def kind : ParameterValue → ParameterKind
  | float _ => .float
  | int _ => .int
  | bool _ => .bool
  | trigger _ => .trigger

def isZero (v : ParameterValue) : Bool := v == zero v.kind

end ParameterValue

structure Parameter where
  name : String
  value : ParameterValue
deriving DecidableEq, BEq, Repr

/-! ## Transitions -/

/-- How a condition compares its parameter with the threshold. -/
inductive ConditionMode where
  | holds
  | fails
  | greater
  | less
  | equals
  | notEqual
deriving DecidableEq, Repr

instance : Keyword ConditionMode where
  all := [.holds, .fails, .greater, .less, .equals, .notEqual]
  spelling
    | .holds => "if"
    | .fails => "ifNot"
    | .greater => "greater"
    | .less => "less"
    | .equals => "equals"
    | .notEqual => "notEqual"
  noun := "condition mode"

/-- Which transitions may interrupt a running one. -/
inductive Interruption where
  | none
  | source
  | destination
  | sourceThenDestination
  | destinationThenSource
deriving DecidableEq, Repr

instance : Keyword Interruption where
  all := [.none, .source, .destination, .sourceThenDestination, .destinationThenSource]
  spelling
    | .none => "none"
    | .source => "source"
    | .destination => "destination"
    | .sourceThenDestination => "sourceThenDestination"
    | .destinationThenSource => "destinationThenSource"
  noun := "interruption source"

/-- A test of one parameter. The threshold means nothing to `holds` and `fails`. -/
structure Condition where
  parameter : String
  mode : ConditionMode
  threshold : Single
deriving DecidableEq, BEq, Repr

inductive Destination where
  | state (id : StateId)
  | machine (id : MachineId)
  /-- The exit of the enclosing machine. -/
  | exit
deriving DecidableEq, Repr

/-- An edge with a conjunction of conditions. Where it starts is given by the list it is in;
alternatives are further transitions to the same destination. -/
structure Transition where
  destination : Destination
  conditions : List Condition
  muted : Bool
  solo : Bool
  exitTime : Option Single
  duration : Single
  fixedDuration : Bool
  offset : Single
  interruption : Interruption
  ordered : Bool
  toSelf : Bool
deriving DecidableEq, BEq, Repr

/-- A transition with every modifier at its default. -/
def Transition.new (destination : Destination) : Transition where
  destination
  conditions := []
  muted := false
  solo := false
  exitTime := none
  duration := .zero
  fixedDuration := false
  offset := .zero
  interruption := .none
  ordered := false
  toSelf := true

instance : Inhabited Transition := ⟨.new .exit⟩

/-! ## Motions -/

/-- How a blend tree mixes its children. -/
inductive BlendType where
  | simple1D
  | simpleDirectional2D
  | freeformDirectional2D
  | freeformCartesian2D
  | direct
deriving DecidableEq, Repr

instance : Keyword BlendType where
  all := [.simple1D, .simpleDirectional2D, .freeformDirectional2D, .freeformCartesian2D, .direct]
  spelling
    | .simple1D => "simple1D"
    | .simpleDirectional2D => "simpleDirectional2D"
    | .freeformDirectional2D => "freeformDirectional2D"
    | .freeformCartesian2D => "freeformCartesian2D"
    | .direct => "direct"
  noun := "blend type"

namespace BlendType

/-- How many parameters drive the blending. -/
def parameterCount : BlendType → Nat
  | direct => 0
  | simple1D => 1
  | _ => 2

def isPlanar (t : BlendType) : Bool := t.parameterCount == 2

end BlendType

/-- A child slot of a blend tree. -/
structure ChildMotion where
  /-- The slot is empty if there is none. -/
  motion : Option MotionId := none
  threshold : Single := .zero
  position : Vec2 Single := ⟨.zero, .zero⟩
  directParameter : String := ""
  timeScale : Single := .one
  cycleOffset : Single := .zero
  mirror : Bool := false
deriving DecidableEq, BEq, Repr

structure BlendTree where
  name : String
  blendType : BlendType := .simple1D
  parameter : String := ""
  /-- The second parameter of the planar types. -/
  parameterY : String := ""
  /-- Fixed least and greatest threshold; automatic if there is none. -/
  thresholds : Option (Single × Single) := none
  children : List ChildMotion := []
deriving DecidableEq, BEq, Repr

inductive Motion where
  | clip (asset : Asset)
  | tree (tree : BlendTree)
deriving DecidableEq, BEq, Repr

instance : Inhabited Motion := ⟨.clip ⟨"", .animationClip⟩⟩

/-- Changes a blend tree and leaves a clip alone. -/
def Motion.modifyTree (f : BlendTree → BlendTree) : Motion → Motion
  | clip asset => clip asset
  | tree t => tree (f t)

/-! ## States and machines -/

/-- A literal value or the name of a parameter that drives it. -/
inductive Binding (α : Type) where
  | literal (value : α)
  | parameter (name : String)
deriving DecidableEq, BEq, Repr

structure State where
  name : String
  motion : Option MotionId := none
  speed : Binding Single := .literal .one
  cycleOffset : Binding Single := .literal .zero
  /-- The parameter that drives normalised time. -/
  time : Option String := none
  mirror : Binding Bool := .literal false
  ikOnFeet : Bool := false
  writeDefaults : Bool := false
  tag : String := ""
  records : List RecordId := []
  transitions : List TransitionId := []
deriving DecidableEq, BEq, Repr, Inhabited

/-- A child of a machine and where it is placed. -/
structure Placed (α : Type) where
  node : α
  position : Option (Vec2 Single) := none
deriving DecidableEq, BEq, Repr

/-- A position with whole coordinates. -/
def Vec2.ofInts (x y : Int) : Vec2 Single := ⟨.ofInt x, .ofInt y⟩

structure Machine where
  name : String
  states : List (Placed StateId) := []
  machines : List (Placed MachineId) := []
  defaultState : Option StateId := none
  entryPosition : Vec2 Single := .ofInts 50 120
  exitPosition : Vec2 Single := .ofInts 800 120
  anyPosition : Vec2 Single := .ofInts 50 20
  entryTransitions : List TransitionId := []
  anyTransitions : List TransitionId := []
  records : List RecordId := []
deriving DecidableEq, BEq, Repr, Inhabited

/-- Whether a child still has no position. -/
def Machine.hasUnplaced (m : Machine) : Bool :=
  m.states.any (·.position.isNone) || m.machines.any (·.position.isNone)

/-! ## Layers -/

/-- How a layer combines with those below. -/
inductive Blending where
  | override
  | additive
deriving DecidableEq, Repr

instance : Keyword Blending where
  all := [.override, .additive]
  spelling
    | .override => "override"
    | .additive => "additive"
  noun := "blending mode"

structure Layer where
  name : String
  machine : MachineId
  weight : Single := .one
  blending : Blending := .override
  mask : Option Asset := none
  /-- Index of the layer this one follows. -/
  synced : Option Nat := none
  syncTiming : Bool := false
  ikPass : Bool := false
deriving DecidableEq, BEq, Repr

/-! ## The controller -/

/-- A state or a machine. -/
inductive NodeRef where
  | state (id : StateId)
  | machine (id : MachineId)
deriving DecidableEq, Repr

structure Controller where
  name : String
  parameters : List Parameter := []
  layers : Array Layer := #[]
  machines : Array Machine := #[]
  states : Array State := #[]
  transitions : Array Transition := #[]
  motions : Array Motion := #[]
  records : Array Record := #[]
deriving BEq, Repr, Inhabited

namespace Controller

def machine (c : Controller) (id : MachineId) : Machine := c.machines.getD id.index default

def state (c : Controller) (id : StateId) : State := c.states.getD id.index default

def transition (c : Controller) (id : TransitionId) : Transition :=
  c.transitions.getD id.index default

def motion (c : Controller) (id : MotionId) : Motion := c.motions.getD id.index default

def record (c : Controller) (id : RecordId) : Record := c.records.getD id.index default

def nodeName (c : Controller) : NodeRef → String
  | .state id => (c.state id).name
  | .machine id => (c.machine id).name

def parameter? (c : Controller) (name : String) : Option Parameter :=
  c.parameters.find? (·.name = name)

/-- Adds a parameter unless its name is taken. -/
def addParameter? (c : Controller) (p : Parameter) : Option Controller :=
  if (c.parameter? p.name).isSome then none else some { c with parameters := c.parameters ++ [p] }

def addLayer (c : Controller) (layer : Layer) : Nat × Controller :=
  (c.layers.size, { c with layers := c.layers.push layer })

def addMachine (c : Controller) (machine : Machine) : MachineId × Controller :=
  (⟨c.machines.size⟩, { c with machines := c.machines.push machine })

def addState (c : Controller) (state : State) : StateId × Controller :=
  (⟨c.states.size⟩, { c with states := c.states.push state })

def addTransition (c : Controller) (transition : Transition) : TransitionId × Controller :=
  (⟨c.transitions.size⟩, { c with transitions := c.transitions.push transition })

def addMotion (c : Controller) (motion : Motion) : MotionId × Controller :=
  (⟨c.motions.size⟩, { c with motions := c.motions.push motion })

def addRecord (c : Controller) (record : Record) : RecordId × Controller :=
  (⟨c.records.size⟩, { c with records := c.records.push record })

def modifyLayer (c : Controller) (index : Nat) (f : Layer → Layer) : Controller :=
  { c with layers := c.layers.modify index f }

def modifyMachine (c : Controller) (id : MachineId) (f : Machine → Machine) : Controller :=
  { c with machines := c.machines.modify id.index f }

def modifyState (c : Controller) (id : StateId) (f : State → State) : Controller :=
  { c with states := c.states.modify id.index f }

def modifyTransition (c : Controller) (id : TransitionId) (f : Transition → Transition) :
    Controller :=
  { c with transitions := c.transitions.modify id.index f }

def modifyMotion (c : Controller) (id : MotionId) (f : Motion → Motion) : Controller :=
  { c with motions := c.motions.modify id.index f }

def modifyRecord (c : Controller) (id : RecordId) (f : Record → Record) : Controller :=
  { c with records := c.records.modify id.index f }

/-! ## Paths of nodes -/

/-- A node and its path. -/
abbrev NodePaths := List (NodeRef × Path)

/-- The paths below a machine that has the path `path`, the machine included, in front of `paths`.
Nesting deeper than `depth` is not followed. -/
def pathsBelow (c : Controller) (depth : Nat) (id : MachineId) (path : Path)
    (paths : NodePaths) : NodePaths :=
  match depth with
  | 0 => paths
  | depth + 1 =>
    let machine := c.machine id
    let own := machine.states.foldl
      (fun paths placed => (.state placed.node, path.join (c.state placed.node).name) :: paths)
      paths
    machine.machines.foldr
      (fun placed paths =>
        c.pathsBelow depth placed.node (path.join (c.machine placed.node).name) paths)
      ((.machine id, path) :: own)

/-- The path of every state and machine that can be reached from the layers. A layer's root machine
has the one-segment path of its layer. Of several paths of one node the first in the list counts. -/
def nodePaths (c : Controller) : NodePaths :=
  c.layers.toList.foldr
    (fun layer paths => c.pathsBelow c.machines.size layer.machine ⟨[layer.name]⟩ paths) []

/-- The path of a node. -/
def NodePaths.path? (paths : NodePaths) (node : NodeRef) : Option Path := paths.lookup node

end Controller

end MotionScript
