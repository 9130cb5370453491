import MotionScript.Source.Span
/-!
# Diagnostics

A diagnostic is one error or warning about a document. A failure is the error that ended the
reading of a document; it always has a position.
-/

namespace MotionScript

/-- What kind of problem a diagnostic is about: `E0` in the text of a token, `E1` in the grammar,
`E2` found while linking. -/
inductive Code where
  | unterminatedString
  | unterminatedEscape
  | invalidEscape
  | invalidNumber
  | unexpectedToken
  | unknownRecordType
  | unknownField
  | invalidValue
  | invalidStackChange
  | duplicateParameter
  | unresolvedSource
  | unresolvedDestination
  | unresolvedDefault
  | unresolvedSync
  | duplicateName
deriving DecidableEq, Repr

namespace Code

def all : List Code :=
  [.unterminatedString, .unterminatedEscape, .invalidEscape, .invalidNumber, .unexpectedToken,
    .unknownRecordType, .unknownField, .invalidValue, .invalidStackChange, .duplicateParameter,
    .unresolvedSource, .unresolvedDestination, .unresolvedDefault, .unresolvedSync, .duplicateName]

/-- The short name shown to users. -/
def name : Code → String
  | unterminatedString => "E001"
  | unterminatedEscape => "E002"
  | invalidEscape => "E003"
  | invalidNumber => "E004"
  | unexpectedToken => "E100"
  | unknownRecordType => "E101"
  | unknownField => "E102"
  | invalidValue => "E103"
  | invalidStackChange => "E104"
  | duplicateParameter => "E200"
  | unresolvedSource => "E201"
  | unresolvedDestination => "E202"
  | unresolvedDefault => "E203"
  | unresolvedSync => "E204"
  | duplicateName => "E205"

def description : Code → String
  | unterminatedString => "unterminated string literal"
  | unterminatedEscape => "unterminated escape sequence"
  | invalidEscape => "invalid escape sequence"
  | invalidNumber => "invalid number literal"
  | unexpectedToken => "unexpected token"
  | unknownRecordType => "unknown behaviour type"
  | unknownField => "unknown behaviour field"
  | invalidValue => "invalid value"
  | invalidStackChange => "invalid stack operation"
  | duplicateParameter => "duplicate parameter"
  | unresolvedSource => "unresolved transition source"
  | unresolvedDestination => "unresolved transition destination"
  | unresolvedDefault => "unresolved default state"
  | unresolvedSync => "unresolved sync layer"
  | duplicateName => "duplicate node name"

/-- The help shown when a diagnostic brings none of its own. -/
def help? : Code → Option String
  | unknownRecordType => some "declare the type in a `[[behaviours]]` table of the config"
  | unknownField => some "add the field to the `fields` of its `[[behaviours]]` entry"
  | duplicateParameter => some "the first declaration is kept"
  | unresolvedSource | unresolvedDestination =>
    some ("the transition was dropped; names resolve in the enclosing state machines, " ++
      "and `goto /A/B` starts at the layer root")
  | unresolvedDefault => some "the `default` line is ignored"
  | unresolvedSync => some "the layer is left unsynced"
  | duplicateName => some "transitions and defaults bind to the first node with this name"
  | _ => none

instance : ToString Code := ⟨name⟩

end Code

/-- Errors end the reading of a document, warnings do not. -/
inductive Severity where
  | error
  | warning
deriving DecidableEq, Repr

instance : ToString Severity where
  toString
    | .error => "error"
    | .warning => "warning"

/-- A message about a span of the document. -/
structure Label where
  span : Span
  message : String
deriving DecidableEq, Repr

structure Diagnostic where
  severity : Severity
  code : Option Code := none
  message : String
  labels : List Label := []
  position : Option Position := none
  help : Option String := none
deriving DecidableEq, Repr

namespace Diagnostic

def error (message : String) : Diagnostic := ⟨.error, none, message, [], none, none⟩

def warning (message : String) : Diagnostic := ⟨.warning, none, message, [], none, none⟩

def withCode (d : Diagnostic) (code : Code) : Diagnostic := { d with code := some code }

/-- Adds a label behind the present ones. -/
def withLabel (d : Diagnostic) (span : Span) (message : String) : Diagnostic :=
  { d with labels := d.labels ++ [⟨span, message⟩] }

def withPosition (d : Diagnostic) (p : Position) : Diagnostic := { d with position := some p }

def withHelp (d : Diagnostic) (help : String) : Diagnostic := { d with help := some help }

/-- Its own help, else the one of its code. -/
def shownHelp (d : Diagnostic) : Option String := d.help <|> d.code.bind Code.help?

/-- One line with severity, code and message. -/
def display (d : Diagnostic) : String :=
  match d.code with
  | some code => s!"{d.severity}[{code}]: {d.message}"
  | none => s!"{d.severity}: {d.message}"

end Diagnostic

/-- The error that ended the reading of a document. -/
structure Failure where
  diagnostic : Diagnostic
  position : Position
deriving DecidableEq, Repr

namespace Failure

/-- The diagnostic's own position wins over the given one. -/
def located (d : Diagnostic) (fallback : Position) : Failure :=
  let position := d.position.getD fallback
  ⟨d.withPosition position, position⟩

def message (e : Failure) : String := e.diagnostic.message

def code (e : Failure) : Option Code := e.diagnostic.code

def display (e : Failure) : String := s!"{e.diagnostic.display} (at {e.position})"

end Failure

end MotionScript
