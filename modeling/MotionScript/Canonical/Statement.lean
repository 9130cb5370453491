import MotionScript.Canonical.Line
import MotionScript.Canonical.Quoted
import MotionScript.Graph.Controller
/-!
# Written transition statements

Neighbouring transitions that agree on everything but their conditions are written as one statement
with one alternative each.
-/

namespace MotionScript.Canonical

/-- Whether two transitions can be alternatives of one statement. -/
def sameStatement (a b : Transition) : Bool :=
  !a.conditions.isEmpty && !b.conditions.isEmpty &&
    { a with conditions := [] } == { b with conditions := [] }

/-- Appends a transition to the last group if it fits its first member. -/
def groupStatements : List Transition → List (List Transition)
  | [] => []
  | t :: rest => gather [t] t rest
where
  /-- `group` is the open group, `first` its first member. -/
  gather (group : List Transition) (first : Transition) : List Transition → List (List Transition)
    | [] => [group]
    | t :: rest =>
      if sameStatement first t then gather (group ++ [t]) first rest
      else group :: gather [t] t rest

def condition (c : Condition) : String :=
  let parameter := name c.parameter
  match c.mode with
  | .holds => parameter
  | .fails => "!" ++ parameter
  | .greater => s!"{parameter} > {c.threshold}"
  | .less => s!"{parameter} < {c.threshold}"
  | .equals => s!"{parameter} == {c.threshold}"
  | .notEqual => s!"{parameter} != {c.threshold}"

/-- The destination: a bare name if it is a child of the machine at `scope`, else its path below the
layer. -/
def destination (c : Controller) (paths : Controller.NodePaths) (scope : Path) :
    Destination → String
  | .exit => "end"
  | .state id => goto (.state id)
  | .machine id => goto (.machine id)
where
  goto (node : NodeRef) : String :=
    match paths.path? node with
    | none => "goto " ++ name (c.nodeName node)
    | some path =>
      if path.parent? = some scope then "goto " ++ ((path.name?.map name).getD "")
      else
        match path.segments.tail with
        | [] => "goto " ++ ((path.name?.map name).getD "")
        | [single] => "goto /" ++ name single
        | segments => "goto " ++ "/".intercalate (segments.map name)

/-- A word if a condition holds. -/
def wordIf (b : Bool) (word : String) : List String := if b then [word] else []

/-- A statement for a group of transitions that starts with `first`. -/
def statement (c : Controller) (paths : Controller.NodePaths) (scope : Path) (any : Bool)
    (first : Transition) (group : List Transition) : String :=
  let alternatives := group.map fun t => " && ".intercalate (t.conditions.map condition)
  let parts :=
    wordIf first.muted "muted" ++ wordIf first.solo "solo" ++ wordIf any "any" ++
      wordIf (!first.toSelf) "noSelf" ++
      (first.exitTime.map fun time => s!"wait({time})").toList ++
      wordIf (!first.conditions.isEmpty) ("if(" ++ " || ".intercalate alternatives ++ ")") ++
      wordIf (first.duration != .zero || first.fixedDuration)
        ("fade(" ++ toString first.duration ++ (if first.fixedDuration then "s)" else ")")) ++
      (offset? first.offset).toList ++
      (if first.interruption = .none then []
        else Keyword.spelling first.interruption :: wordIf first.ordered "ordered") ++
      [destination c paths scope first.destination]
  " ".intercalate parts ++ ";"

/-- The statements of a list of transitions. -/
def statements (c : Controller) (paths : Controller.NodePaths) (scope : Path) (any : Bool)
    (depth : Nat) (ids : List TransitionId) : List Line :=
  (groupStatements (ids.map c.transition)).filterMap fun group =>
    group.head?.map fun first => .text depth (statement c paths scope any first group)

end MotionScript.Canonical
