import MotionScript.Text.CharClass
/-!
# Keywords

Choices that a document spells as a word. A word is read ignoring case and always written in its
one canonical spelling.
-/

namespace MotionScript

/-- A finite choice with a spelling for each of its members. -/
class Keyword (α : Type) where
  /-- Every member, in declaration order. -/
  all : List α
  spelling : α → String
  /-- What the choice is called in messages. -/
  noun : String

namespace Keyword

variable {α : Type} [Keyword α]

/-- The member a text names, ignoring case. -/
def read? (text : String) : Option α :=
  (all : List α).find? fun choice => Text.equalsIgnoringCase (spelling choice) text

end Keyword

/-- The message for a text that names no member of the choice called `noun`. -/
def unknownKeyword (noun text : String) : String := s!"unknown {noun} `{text}`"

/-- The member a text names, or the message that there is none. -/
def Keyword.read {α : Type} [Keyword α] (text : String) : Except String α :=
  match (Keyword.read? text : Option α) with
  | some choice => .ok choice
  | none => .error (unknownKeyword (Keyword.noun α) text)

end MotionScript
