import MotionScript.Grammar.Motion
import MotionScript.Grammar.Record
/-!
# States

A block of options, a motion, transition statements and records.
-/

namespace MotionScript.StateRule

variable {η : Type} [Host η]

/-- Adds the state to the enclosing machine. -/
def declare (outer : Option Scope) (e : Event) (name : String) (s : Session η) :
    Except Diagnostic (StateRule × Session η) :=
  match outer with
  | none => .error (e.outOfPlace "a state")
  | some scope =>
    let (id, c) := s.controller.addState { name }
    let c := c.modifyMachine scope.machine fun m => { m with states := m.states ++ [⟨id, none⟩] }
    let s := { s with controller := c }.register scope.layer (scope.path.join name) (.state id) e
    let s := s.persist scope.hint (.state id) name
    .ok (named { scope with state := some id, hint := scope.hint ++ [name] } id .openBrace, s)

/-- A number, or the name of a parameter. -/
def binding (e : Event) : Except Diagnostic (Binding Single) :=
  if e.kind == .number then e.number.map .literal
  else (e.name "a number or a parameter name").map .parameter

/-- How the block goes on behind an item that starts with `e`. -/
def reactItem (scope : Scope) (id : StateId) (e : Event) (s : Session η) :
    Except Diagnostic (Step StateRule η) :=
  let go (expect : StateExpect) : Except Diagnostic (Step StateRule η) :=
    .ok (named scope id expect, s, none)
  let set (f : State → State) : Except Diagnostic (Step StateRule η) :=
    .ok (named scope id .stop, s.modify (·.modifyState id f), none)
  let ask (change : Change Frame) : Except Diagnostic (Step StateRule η) :=
    .ok (named scope id .item, s, some change)
  if e.isSymbol '}' then ask (.detach false)
  else if e.isSymbol ';' then go .item
  else if e.isKeyword "speed" then go .speed
  else if e.isKeyword "cycleOffset" then go .cycleOffset
  else if e.isKeyword "time" then go .time
  else if e.isKeyword "mirror" then go .mirror
  else if e.isKeyword "tag" then go .tag
  else if e.isKeyword "ikOnFeet" then set ({ · with ikOnFeet := true })
  else if e.isKeyword "writeDefaults" then set ({ · with writeDefaults := true })
  else if e.isKeyword "empty" then set ({ · with motion := none })
  else if e.isKeyword "clip" || e.isKeyword "blendtree" then
    ask (.attach (.motion MotionRule.root) true)
  else if TransitionRule.starts e then ask (.attach (.transition {}) true)
  else if e.kind.isName then ask (.attach (.record (.typeName none none "")) true)
  else .error (e.unexpected "a state option, a motion, a transition or a behaviour")

def react (e : Event) (s : Session η) : StateRule → Except Diagnostic (Step StateRule η)
  | unnamed outer => do
    let name ← e.name "a state name"
    let (r, s) ← declare outer e name s
    .ok (r, s, none)
  | named scope id expect =>
    let set (f : State → State) : Except Diagnostic (Step StateRule η) :=
      .ok (named scope id .stop, s.modify (·.modifyState id f), none)
    match expect with
    | .openBrace =>
      if e.isSymbol '{' then .ok (named scope id .item, s, none)
      else .error (e.unexpected "`\x7b`")
    | .item => reactItem scope id e s
    | .speed => do
      let speed ← binding e
      set ({ · with speed })
    | .cycleOffset => do
      let cycleOffset ← binding e
      set ({ · with cycleOffset })
    | .time => do
      let name ← e.name "a parameter name"
      set ({ · with time := some name })
    | .mirror =>
      if e.isSymbol ';' then
        .ok (named scope id .item, s.modify (·.modifyState id ({ · with mirror := .literal true })),
          none)
      else do
        let name ← e.name "`;` or a parameter"
        set ({ · with mirror := .parameter name })
    | .tag => do
      let tag ← e.name "a tag"
      set ({ · with tag })
    | .stop =>
      if e.isSymbol ';' then .ok (named scope id .item, s, none)
      else .error (e.unexpected "`;`")

end MotionScript.StateRule
