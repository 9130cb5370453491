import MotionScript.Grammar.Frame
/-!
# Parameter declarations

A literal that does not fit the kind is ignored, and so is a second parameter of the same name.
-/

namespace MotionScript.ParameterRule

/-- The default a literal stands for, if it fits the kind. -/
def literal? (kind : ParameterKind) (e : Event) : Option ParameterValue :=
  match kind with
  | .bool =>
    if e.isKeyword "true" then some (.bool true)
    else if e.isKeyword "false" then some (.bool false)
    else none
  | .trigger => if e.isKeyword "true" then some (.trigger true) else none
  | .float => e.single?.map .float
  | .int =>
    e.integer?.bind fun n => if -0x80000000 ≤ n ∧ n < 0x80000000 then some (.int n) else none

/-- Sets the default to a literal that fits. -/
def assign (d : Declaration) (e : Event) : Declaration :=
  let p := d.parameter
  { d with parameter := { p with value := (literal? p.value.kind e).getD p.value } }

variable {η : Type} [Host η]

/-- Adds the parameter to the graph; one without a name is not added. -/
def declare (s : Session η) (d : Declaration) : Session η :=
  if d.parameter.name = "" then s
  else
    match s.controller.addParameter? d.parameter with
    | some controller => { s with controller }
    | none =>
      s.warn (((Diagnostic.warning s!"duplicate parameter `{d.parameter.name}` ignored").withCode
        .duplicateParameter |>.withLabel d.span "declared again here").withPosition d.position)

def react (e : Event) (s : Session η) : ParameterRule → Except Diagnostic (Step ParameterRule η)
  | kind =>
    match (Keyword.read? e.text : Option ParameterKind) with
    | some k => .ok (name k, s, none)
    | none => .error (e.unexpected "a parameter type")
  | name k =>
    if e.isSymbol ';' then .ok (name k, s, some (.detach false))
    else do
      let text ← e.name "a parameter name"
      .ok (operator ⟨⟨text, .zero k⟩, e.span, e.position⟩, s, none)
  | operator d =>
    if e.isSymbol '=' then .ok (value d, s, none)
    else if e.isSymbol ';' then .ok (operator d, declare s d, some (.detach false))
    else .error (e.unexpected "`=` or `;`")
  | value d => .ok (stop (assign d e), s, none)
  | stop d =>
    if e.isSymbol ';' then .ok (stop d, declare s d, some (.detach false))
    else .error (e.unexpected "`;`")

end MotionScript.ParameterRule
