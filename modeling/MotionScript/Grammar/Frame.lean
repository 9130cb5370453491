import MotionScript.Grammar.Session
/-!
# The rules of the document language

What can be on the rule stack: the document at the bottom, on it a parameter declaration or a layer
with its nested machines, states, motions, transition statements and records. Each rule says in one
of its constructors what it expects next.
-/

namespace MotionScript

/-! ## Parameters -/

/-- A declaration whose name has been read, and where the name is written. -/
structure Declaration where
  parameter : Parameter
  span : Span
  position : Position
deriving DecidableEq, Repr

/-- `kind name;` or `kind name = literal;` -/
inductive ParameterRule where
  | kind
  | name (kind : ParameterKind)
  | operator (declaration : Declaration)
  | value (declaration : Declaration)
  | stop (declaration : Declaration)
deriving DecidableEq, Repr

/-! ## Machines and states -/

/-- A machine that has been declared. -/
structure OpenMachine where
  /-- The scope of its items. -/
  scope : Scope
  /-- The enclosing machine; a layer has none. -/
  parent : Option MachineId
  /-- The state written as the default. -/
  default : Option NameUse
deriving DecidableEq, Repr

inductive MachineExpect where
  | openBrace
  | item
  | weight
  | mask
  | sync
  | default
  | stop
deriving DecidableEq, Repr

/-- A layer, or a machine nested in one. -/
inductive MachineRule where
  /-- The name is expected. -/
  | unnamed (nested : Bool) (outer : Option Scope)
  | named (machine : OpenMachine) (expect : MachineExpect)
deriving DecidableEq, Repr

inductive StateExpect where
  | openBrace
  | item
  | speed
  | cycleOffset
  | time
  | mirror
  | tag
  | stop
deriving DecidableEq, Repr

inductive StateRule where
  /-- The name is expected. -/
  | unnamed (outer : Option Scope)
  | named (scope : Scope) (id : StateId) (expect : StateExpect)
deriving DecidableEq, Repr

/-! ## Transition statements -/

/-- Where a statement leads. -/
inductive Goto where
  | exit
  /-- A node of the enclosing machine. -/
  | relative (name : String)
  /-- A node by its path below the layer. -/
  | absolute (segments : List String)
deriving DecidableEq, Repr

inductive TransitionExpect where
  /-- A modifier; `begun` is the first half of `&&` or `||`. -/
  | modifier (begun : Option Char)
  /-- A condition; `opening` if a bracket may open in front of it. -/
  | condition (opening : Bool)
  | negated
  /-- What follows a parameter; `begun` is the first half of `==` or `!=`. -/
  | operator (parameter : String) (negated : Bool) (begun : Option Char)
  | threshold (parameter : String) (mode : ConditionMode)
  | waitOpen
  | waitValue
  | waitClose
  | fadeOpen
  | fadeValue
  | fadeUnit (bracket : Bool)
  | fadeClose
  /-- An offset behind its sign. -/
  | offset (negative : Bool)
  | ordered
  | gotoStart
  | gotoSegment (absolute : Bool) (segments : List String)
  | gotoNext (absolute : Bool) (segments : List String)
deriving DecidableEq, Repr

structure TransitionRule where
  scope : Option Scope := none
  expect : TransitionExpect := .modifier none
  /-- The modifiers read so far. -/
  modifiers : Transition := .new .exit
  /-- The alternatives of the condition, each a conjunction. -/
  groups : List (List Condition) := []
  /-- Whether a bracket of the condition is open. -/
  bracket : Bool := false
  any : Bool := false
  goto : Option Goto := none
  /-- Where the statement starts. -/
  start : Option (Span × Position) := none
deriving DecidableEq, Repr

/-! ## Motions -/

/-- The key of a child of a blend tree. -/
inductive ChildKey where
  | threshold (x : Single)
  | position (x y : Single)
  | parameter (name : String)
deriving DecidableEq, Repr

/-- What a motion belongs to. -/
inductive MotionSlot where
  /-- The enclosing state, not known yet. -/
  | root
  | state (id : StateId)
  | child (tree : MotionId) (key : ChildKey)
deriving DecidableEq, Repr

inductive MotionExpect where
  | start
  | clipReference
  | treeName
  | treeType
  | afterType
  | firstParameter
  | secondParameter
  /-- What follows a parameter; a comma only if `first`. -/
  | parameterNext (first : Bool)
  | thresholdOpen
  | thresholdMin
  | thresholdComma
  | thresholdMax
  | thresholdClose
  | key
  | keyX
  | keyComma (x : Single)
  | keyY (x : Single)
  | keyClose (x y : Single)
  | colon (key : ChildKey)
  | modifier
  | speed
  /-- An offset behind its sign. -/
  | offset (negative : Bool)
deriving DecidableEq, Repr

structure MotionRule where
  slot : MotionSlot
  scope : Option Scope := none
  expect : MotionExpect := .start
  motion : Option MotionId := none
  /-- Whether the body of a blend tree has been closed. -/
  closedTree : Bool := false
  speed : Option Single := none
  offset : Option Single := none
  mirror : Bool := false
deriving DecidableEq, Repr

/-! ## Records -/

/-- How a type name is written. -/
inductive TypeNameMode where
  | identifiers
  | strings
deriving DecidableEq, Repr

inductive RecordExpect where
  | field
  | operator
  | value
  | afterValue
  | stop
deriving DecidableEq, Repr

/-- A record whose type is known. -/
structure OpenRecord where
  typeName : String
  schema : Schema
  id : RecordId
  /-- Indices of fields and elements that lead to the current value. -/
  path : List Nat
deriving Repr

inductive RecordRule where
  /-- The type name is expected, or the brace behind it. -/
  | typeName (outer : Option Scope) (mode : Option TypeNameMode) (text : String)
  | body (record : OpenRecord) (expect : RecordExpect)
deriving Repr

/-! ## The stack -/

inductive Frame where
  | document
  | parameter (rule : ParameterRule)
  | machine (rule : MachineRule)
  | state (rule : StateRule)
  | transition (rule : TransitionRule)
  | motion (rule : MotionRule)
  | record (rule : RecordRule)
deriving Repr

/-- What a rule makes of a token: how it goes on, the session, and the change it asks for. A rule
that fails leaves itself and the session as they were. -/
abbrev Step (ρ η : Type) := ρ × Session η × Control Frame

end MotionScript
