import MotionScript.Canonical.Motion
import MotionScript.Canonical.Record
import MotionScript.Canonical.Statement
/-!
# Canonical documents

The canonical text of a controller: every value that differs from its default is written, and
everything else is left out.
-/

namespace MotionScript.Canonical

def parameter (p : Parameter) : String :=
  let head := Keyword.spelling p.value.kind ++ " " ++ name p.name
  match p.value with
  | .float x => s!"{head} = {x};"
  | .int n => s!"{head} = {n};"
  | .bool b => s!"{head} = {b};"
  | .trigger true => s!"{head} = true;"
  | .trigger false => s!"{head};"

/-- A line if a condition holds. -/
def lineIf (b : Bool) (depth : Nat) (content : String) : List Line :=
  if b then [.text depth content] else []

/-- A line for a value if there is one. -/
def lineFor {α : Type} (value : Option α) (depth : Nat) (content : α → String) : List Line :=
  (value.map fun v => Line.text depth (content v)).toList

/-- A number that may be bound to a parameter, unless it is a literal `standard`. -/
def bindingLines (word : String) (standard : Single) (binding : Binding Single) (depth : Nat) :
    List Line :=
  match binding with
  | .parameter p => [.text depth s!"{word} {name p};"]
  | .literal x => lineIf (x != standard) depth s!"{word} {x};"

def mirrorLines (binding : Binding Bool) (depth : Nat) : List Line :=
  match binding with
  | .parameter p => [.text depth s!"mirror {name p};"]
  | .literal b => lineIf b depth "mirror;"

/-- A state of the machine at `scope`. -/
def state (c : Controller) (paths : Controller.NodePaths) (scope : Path) (depth : Nat) (s : State) :
    List Line :=
  let inner := depth + 1
  Line.text depth s!"state {name s.name} \x7b" ::
    (lineFor s.time inner (fun p => s!"time {name p};") ++
      bindingLines "speed" .one s.speed inner ++
      bindingLines "cycleOffset" .zero s.cycleOffset inner ++
      mirrorLines s.mirror inner ++
      lineIf s.ikOnFeet inner "ikOnFeet;" ++
      lineIf s.writeDefaults inner "writeDefaults;" ++
      lineIf (s.tag != "") inner s!"tag {string s.tag};" ++
      (s.motion.map (motion c inner)).getD [] ++
      s.records.flatMap (fun id => record (c.record id) inner) ++
      statements c paths scope false inner s.transitions) ++
    [.text depth "\x7d"]

/-- The body of a machine behind the lines `options`. Nesting deeper than `fuel` is not followed. -/
def machineBody (c : Controller) (paths : Controller.NodePaths) (fuel : Nat) (id : MachineId)
    (depth : Nat) (options : List Line) : List Line :=
  match fuel with
  | 0 => options
  | fuel + 1 =>
    let machine := c.machine id
    let scope := (paths.path? (.machine id)).getD .root
    let head := options ++
      lineFor machine.defaultState depth (fun id => s!"default {name (c.state id).name};") ++
      statements c paths scope false depth machine.entryTransitions ++
      statements c paths scope true depth machine.anyTransitions
    let states := machine.states.map fun placed => state c paths scope depth (c.state placed.node)
    let machines := machine.machines.map fun placed =>
      Line.text depth s!"stateMachine {name (c.machine placed.node).name} \x7b" ::
        machineBody c paths fuel placed.node (depth + 1) [] ++ [.text depth "\x7d"]
    let records := machine.records.map fun id => record (c.record id) depth
    setApart head (states ++ machines ++ records)

/-- The options of a layer. -/
def layerOptions (c : Controller) (l : Layer) : List Line :=
  lineIf (l.weight != .one) 1 s!"weight {l.weight};" ++
    lineIf (l.blending != .override) 1 s!"{Keyword.spelling l.blending};" ++
    lineIf l.ikPass 1 "ikPass;" ++
    lineFor l.mask 1 (fun asset => s!"mask {string asset.reference};") ++
    lineFor (l.synced.bind (c.layers[·]?)) 1 (fun l => s!"sync {name l.name};") ++
    lineIf l.syncTiming 1 "syncTiming;"

def layer (c : Controller) (paths : Controller.NodePaths) (l : Layer) : List Line :=
  Line.text 0 s!"layer {name l.name} \x7b" ::
    machineBody c paths c.machines.size l.machine 1 (layerOptions c l) ++ [.text 0 "\x7d"]

/-- The lines of a document. -/
def lines (c : Controller) : List Line :=
  let paths := c.nodePaths
  setApart (c.parameters.map fun p => .text 0 (parameter p)) (c.layers.toList.map (layer c paths))

end MotionScript.Canonical

/-- The canonical text of a controller. -/
def MotionScript.Controller.canonicalText (c : MotionScript.Controller) : String :=
  MotionScript.Canonical.render (MotionScript.Canonical.lines c)
