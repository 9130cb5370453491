import MotionScript.Grammar.Machine
import MotionScript.Grammar.Parameter
/-!
# Documents

The rules of the document language as a grammar of the rule stack, and the reading of a document.
-/

namespace MotionScript

namespace Frame

variable {η : Type} [Host η]

/-- The scope a rule gives to the rules above it. -/
def context : Frame → Option Scope
  | machine (.named m _) => some m.scope
  | machine (.unnamed _ outer) => outer
  | state (.named scope _ _) => some scope
  | state (.unnamed outer) => outer
  | motion r => r.scope
  | document | parameter _ | transition _ | record _ => none

/-- A rule takes the scope of the rule below it. The document stores the controller. -/
def onAttach (outer : Option Scope) (frame : Frame) (s : Session η) :
    Answer Frame (Session η) Unit :=
  match frame with
  | document => ⟨document, s.persist [] .controller s.controller.name, .ok ()⟩
  | parameter r => ⟨parameter r, s, .ok ()⟩
  | machine (.unnamed nested _) => ⟨machine (.unnamed nested outer), s, .ok ()⟩
  | state (.unnamed _) => ⟨state (.unnamed outer), s, .ok ()⟩
  | transition r => ⟨transition { r with scope := outer }, s, .ok ()⟩
  | motion r =>
    let (r, result) := r.onAttach outer
    ⟨motion r, s, result⟩
  | record (.typeName _ mode text) => ⟨record (.typeName outer mode text), s, .ok ()⟩
  | frame => ⟨frame, s, .ok ()⟩

/-- At the top level: layers and parameter declarations. -/
def reactDocument (e : Event) (s : Session η) : Except Diagnostic (Step Frame η) :=
  if e.isKeyword "layer" then
    .ok (document, s, some (.attach (.machine (.unnamed false none)) false))
  else if e.kind == .identifier && (Keyword.read? e.text : Option ParameterKind).isSome then
    .ok (document, s, some (.attach (.parameter .kind) true))
  else .error (e.unexpected "`layer` or a parameter declaration")

/-- Lifts the step of a rule to the stack. -/
def lift {ρ : Type} (wrap : ρ → Frame) (step : Except Diagnostic (Step ρ η)) :
    Except Diagnostic (Step Frame η) :=
  step.map fun (r, s, control) => (wrap r, s, control)

def react (e : Event) (s : Session η) : Frame → Except Diagnostic (Step Frame η)
  | document => reactDocument e s
  | parameter r => lift parameter (r.react e s)
  | machine r => lift machine (r.react e s)
  | state r => lift state (r.react e s)
  | transition r => lift transition (r.react e s)
  | motion r => lift motion (r.react e s)
  | record r => lift record (r.react e s)

def onToken (e : Event) (frame : Frame) (s : Session η) :
    Answer Frame (Session η) (Control Frame) :=
  match frame.react e s with
  | .ok (frame, s, control) => ⟨frame, s, .ok control⟩
  | .error d => ⟨frame, s, .error d⟩

/-- What the end of a rule means, also when reading fails: machines link, motions take their place,
the document lets layers follow each other. -/
def close (s : Session η) : Frame → Session η
  | document => s.linkSyncs
  | machine r => r.close s
  | motion r => s.modify r.place
  | _ => s

end Frame

/-- The document language. -/
def Grammar.document (η : Type) [Host η] : Grammar Frame Scope (Session η) where
  context := Frame.context
  onAttach := Frame.onAttach
  onToken := Frame.onToken
  onDetach frame s := (.ok (), frame.close s)

/-- A document that has been read: its graph and the warnings, in the order they were found. -/
structure Document where
  controller : Controller
  warnings : List Diagnostic

namespace Document

variable {η : Type} [Host η]

/-- Reads a document into a controller called `name`. The host keeps what it was told also if
reading fails. -/
def read (source name : String) (host : η) : Except Failure Document × η :=
  let (failure, s) :=
    (Grammar.document η).parse .document Frame.document source { controller := { name }, host }
  match failure with
  | some failure => (.error failure, s.host)
  | none => (.ok ⟨s.controller, s.warnings⟩, s.host)

end Document

end MotionScript
