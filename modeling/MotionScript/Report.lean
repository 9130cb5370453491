import MotionScript.Compiler
/-!
# Reports

What is shown to the user of an error or a warning.
-/

namespace MotionScript

/-- A label of a report: a range of the source, a message, and whether it is the main one. -/
structure ReportLabel where
  span : Span
  message : String
  primary : Bool
deriving DecidableEq, Repr

structure Report where
  message : String
  code : Option String := none
  /-- Errors that are not about a document have none. -/
  severity : Option Severity := none
  help : Option String := none
  source : Option String := none
  labels : List ReportLabel := []
  /-- The error behind this one. -/
  cause : Option String := none
deriving DecidableEq, Repr

namespace Report

/-- The report of a diagnostic about a document. Its first label is the main one. -/
def ofDiagnostic (d : Diagnostic) (source : String) : Report where
  message := d.message
  code := d.code.map Code.name
  severity := some d.severity
  help := d.shownHelp
  source := some source
  labels := d.labels.zipIdx.map fun (label, index) => ⟨label.span, label.message, index == 0⟩

/-- The report of an error. -/
def ofError (e : CompileError) : Report :=
  match e with
  | .document failure source => ofDiagnostic failure.diagnostic source
  | .io cause => { message := e.display, code := some "animalab::io", cause := some cause }
  | .config _ => { message := e.display, code := some "animalab::config" }

/-- The lines in which a report is shown. -/
def lines (r : Report) : List String :=
  let code := (r.code.map fun code => s!"[{code}]").getD ""
  let severity := (r.severity.map toString).getD "error"
  s!"{severity}{code}: {r.message}" ::
    r.labels.map (fun label => s!"  {label.span.start}..{label.span.stop}: {label.message}") ++
    (r.help.map fun help => s!"  help: {help}").toList

end Report

end MotionScript
