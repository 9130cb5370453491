/-!
# Lines

Canonical text is a list of indented lines. Blocks are set apart by blank lines, except right behind
an opening brace and at the start of the text.
-/

namespace MotionScript.Canonical

inductive Line where
  | blank
  /-- A line indented by two spaces per level. -/
  | text (depth : Nat) (content : String)
deriving DecidableEq, Repr

namespace Line

def render : Line → String
  | blank => "\n"
  | text depth content => "".pushn ' ' (2 * depth) ++ content ++ "\n"

end Line

/-- The text of lines. -/
def render (lines : List Line) : String := String.join (lines.map Line.render)

/-- Lines and then blocks, with a blank line in front of each block but a first one that follows
nothing. -/
def setApart (lines : List Line) : List (List Line) → List Line
  | [] => lines
  | block :: blocks =>
    (if lines.isEmpty then block else lines ++ Line.blank :: block) ++
      blocks.flatMap (Line.blank :: ·)

end MotionScript.Canonical
