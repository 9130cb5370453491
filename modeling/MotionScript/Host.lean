import MotionScript.Graph.Controller
/-!
# The embedding application

Reading a document never touches files or a type system. Assets, record types, the storing of
created objects and the display of warnings are services of a host.
-/

namespace MotionScript

/-- An object of the graph that has just been created. -/
inductive ObjectRef where
  | controller
  | layer (index : Nat)
  | machine (id : MachineId)
  | state (id : StateId)
  | transition (id : TransitionId)
  | motion (id : MotionId)
  | record (id : RecordId)
deriving DecidableEq, Repr

namespace ObjectRef

/-- The name of an object that has none of its own. -/
def label : ObjectRef → String
  | controller => "Controller"
  | layer _ => "Layer"
  | machine _ => "StateMachine"
  | state _ => "State"
  | transition _ => "Transition"
  | motion _ => "Motion"
  | record _ => "Behaviour"

/-- The index of the object among its kind; the controller has none. -/
def index? : ObjectRef → Option Nat
  | controller => none
  | layer index => some index
  | machine id => some id.index
  | state id => some id.index
  | transition id => some id.index
  | motion id => some id.index
  | record id => some id.index

end ObjectRef

/-- The services a document reader needs, over the host's own state. -/
class Host (η : Type) where
  /-- Looks up a reference. -/
  resolve : η → String → AssetKind → Option Asset × η
  /-- Stores a new object under a name that is unique in this reading. -/
  persist : η → ObjectRef → String → η
  /-- The schema of a record type. -/
  schema? : η → String → Option Schema
  /-- Shows a problem that does not end the reading. -/
  warn : η → String → η

end MotionScript
