import MotionScript.Host
import MotionScript.RuleStack
/-!
# The state of one reading

What all grammar rules share: the graph built so far, the host, the nodes of every layer by path,
and the references that wait to be linked.
-/

namespace MotionScript

/-- Where in a layer a rule sits. -/
structure Scope where
  /-- Names of the enclosing objects, for the names of stored objects. -/
  hint : List String
  layer : Nat
  /-- The innermost enclosing machine. -/
  machine : MachineId
  state : Option StateId
  /-- Path of the innermost enclosing machine. -/
  path : Path
deriving DecidableEq, Repr

/-- Where a transition leads before it is linked. -/
inductive Target where
  | exit
  | node (path : Path)
  /-- No destination was written. -/
  | missing
deriving DecidableEq, Repr

/-- The list that a linked transition joins. -/
inductive Home where
  | entry (machine : MachineId)
  | any (machine : MachineId)
  | state (state : StateId)
deriving DecidableEq, Repr

/-- A transition that waits for its destination. -/
structure Pending where
  transition : Transition
  target : Target
  home : Home
  /-- The machine whose end links the transition next. -/
  owner : MachineId
  layer : Nat
  hint : List String
  span : Span
  position : Position
deriving DecidableEq, Repr

/-- The name of a node that something refers to, and where it is written. -/
structure NameUse where
  name : String
  span : Span
  position : Position
deriving DecidableEq, Repr

/-- The nodes of a layer by path. -/
abbrev SymbolTable := List (Path × NodeRef)

structure Session (η : Type) where
  controller : Controller
  host : η
  /-- One table per layer. -/
  symbols : Array SymbolTable := #[]
  pending : List Pending := []
  /-- Layers that follow another one, which is given by name. -/
  syncs : List (Nat × NameUse) := []
  /-- Names given to stored objects. -/
  usedNames : List String := []
  warnings : List Diagnostic := []

/-- The name `base`, or else the first of `base1`, `base2`, … that is not used. -/
def freshName (used : List String) (base : String) : String :=
  let candidate (n : Nat) : String := if n = 0 then base else base ++ toString n
  ((List.range (used.length + 1)).map candidate |>.find? (!used.contains ·)).getD base

namespace Session

variable {η : Type} [Host η]

/-- The name of an object below the names of its enclosing objects. -/
def qualifiedName (hint : List String) (object : ObjectRef) (name : String) : String :=
  "/".intercalate (hint ++ [if name = "" then object.label else name])

/-- Hands an object to the host under a fresh name. -/
def persist (s : Session η) (hint : List String) (object : ObjectRef) (name : String) : Session η :=
  let fresh := freshName s.usedNames (qualifiedName hint object name)
  { s with host := Host.persist s.host object fresh, usedNames := fresh :: s.usedNames }

/-- Records a warning and shows it to the host. -/
def warn (s : Session η) (d : Diagnostic) : Session η :=
  { s with host := Host.warn s.host d.message, warnings := s.warnings ++ [d] }

omit [Host η] in
/-- Changes the graph. -/
def modify (s : Session η) (f : Controller → Controller) : Session η :=
  { s with controller := f s.controller }

omit [Host η] in
/-- The node of a layer with a path. -/
def lookup? (s : Session η) (layer : Nat) (path : Path) : Option NodeRef :=
  (s.symbols.getD layer []).lookup path

/-- Adds a node to the table of its layer. The first node with a path keeps it. -/
def register (s : Session η) (layer : Nat) (path : Path) (node : NodeRef) (e : Event) : Session η :=
  if (s.lookup? layer path).isSome then
    s.warn (((Diagnostic.warning s!"duplicate node name `{path}`").withCode .duplicateName
      |>.withLabel e.span "already declared in this scope").withPosition e.position)
  else { s with symbols := s.symbols.modify layer (· ++ [(path, node)]) }

/-- Looks up a reference. -/
def resolve (s : Session η) (reference : String) (kind : AssetKind) : Option Asset × Session η :=
  let (asset, host) := Host.resolve s.host reference kind
  (asset, { s with host })

end Session

/-- The diagnostic for a rule outside of the block it belongs to. -/
def Event.outOfPlace (e : Event) (what : String) : Diagnostic :=
  ((Diagnostic.error s!"{what} is not allowed here").withCode .unexpectedToken
    |>.withLabel e.span "outside of its enclosing block").withPosition e.position

/-- The name a token gives, or the diagnostic that one was expected. -/
def Event.name (e : Event) (expected : String) : Except Diagnostic String :=
  match e.name? with
  | some name => .ok name
  | none => .error (e.unexpected expected)

/-- The number of a token, or the diagnostic that one was expected. -/
def Event.number (e : Event) : Except Diagnostic Single :=
  match e.single? with
  | some x => .ok x
  | none => .error (e.unexpected "a number")

end MotionScript
