import MotionScript.Canonical.Line
import MotionScript.Canonical.Quoted
import MotionScript.Graph.Controller
/-!
# Written motions
-/

namespace MotionScript.Canonical

/-- The key of a child in a tree of a type. -/
def childKey (child : ChildMotion) (blendType : BlendType) : String :=
  match blendType with
  | .direct => name child.directParameter ++ ": "
  | .simple1D => s!"{child.threshold}: "
  | _ => s!"({child.position.x}, {child.position.y}): "

/-- Time scale, cycle offset and mirroring of a child. -/
def childModifiers (child : ChildMotion) : String :=
  (if child.timeScale != .one then s!" * {child.timeScale}" else "") ++
    ((offset? child.cycleOffset).map (" " ++ ·)).getD "" ++
    (if child.mirror then " mirror" else "")

/-- The line that opens a blend tree. -/
def treeHeader (t : BlendTree) : String :=
  let parameters :=
    match t.blendType.parameterCount with
    | 0 => ""
    | 1 => s!"({name t.parameter})"
    | _ => s!"({name t.parameter}, {name t.parameterY})"
  let thresholds :=
    match t.thresholds with
    | none => ""
    | some (least, greatest) => s!" threshold({least}, {greatest})"
  s!"blendtree {string t.name} {Keyword.spelling t.blendType}" ++ parameters ++ thresholds ++
    " \x7b"

/-- A motion behind its key and in front of its modifiers. Nesting deeper than `fuel` is not
followed. -/
def motionLines (c : Controller) (fuel : Nat) (depth : Nat) (key modifiers : String)
    (motion : Option MotionId) : List Line :=
  match motion, fuel with
  | none, _ => [.text depth (key ++ "empty" ++ modifiers ++ ";")]
  | some id, fuel =>
    match c.motion id, fuel with
    | .clip asset, _ => [.text depth (key ++ "clip " ++ string asset.reference ++ modifiers ++ ";")]
    | .tree _, 0 => []
    | .tree t, fuel + 1 =>
      Line.text depth (key ++ treeHeader t) ::
        (t.children.flatMap fun child =>
          motionLines c fuel (depth + 1) (childKey child t.blendType) (childModifiers child)
            child.motion) ++
        [.text depth ("\x7d" ++ modifiers ++ ";")]

/-- The motion of a state. -/
def motion (c : Controller) (depth : Nat) (id : MotionId) : List Line :=
  motionLines c c.motions.size depth "" "" (some id)

end MotionScript.Canonical
