import MotionScript.Grammar.Link
import MotionScript.Grammar.State
/-!
# Layers and machines

A block of states, nested machines, transition statements and records. The block of a layer is its
root machine and may also hold the options of the layer.
-/

namespace MotionScript.MachineRule

variable {η : Type} [Host η]

/-- Adds a layer with its root machine. -/
def declareLayer (e : Event) (name : String) (s : Session η) : OpenMachine × Session η :=
  let (id, c) := s.controller.addMachine { name }
  let (layer, c) := c.addLayer { name, machine := id }
  let s := { s with controller := c, symbols := s.symbols.push [] }
  let s := s.register layer ⟨[name]⟩ (.machine id) e
  let s := s.persist [] (.machine id) name
  (⟨⟨[name], layer, id, none, ⟨[name]⟩⟩, none, none⟩, s)

/-- Adds a machine to the enclosing one. -/
def declareNested (scope : Scope) (e : Event) (name : String) (s : Session η) :
    OpenMachine × Session η :=
  let (id, c) := s.controller.addMachine { name }
  let c := c.modifyMachine scope.machine fun m => { m with machines := m.machines ++ [⟨id, none⟩] }
  let path := scope.path.join name
  let s := { s with controller := c }.register scope.layer path (.machine id) e
  let s := s.persist scope.hint (.machine id) name
  (⟨⟨scope.hint ++ [name], scope.layer, id, none, path⟩, some scope.machine, none⟩, s)

def declare (nested : Bool) (outer : Option Scope) (e : Event) (name : String) (s : Session η) :
    Except Diagnostic (OpenMachine × Session η) :=
  match nested, outer with
  | false, _ => .ok (declareLayer e name s)
  | true, some scope => .ok (declareNested scope e name s)
  | true, none => .error (e.outOfPlace "a nested state machine")

/-- The name a token uses. -/
def use (e : Event) (name : String) : NameUse := ⟨name, e.span, e.position⟩

/-- How a layer goes on behind an option that starts with `e`, if `e` starts one. -/
def layerOption? (m : OpenMachine) (e : Event) (s : Session η) : Option (Step MachineRule η) :=
  let go (expect : MachineExpect) : Option (Step MachineRule η) := some (named m expect, s, none)
  let set (f : Layer → Layer) : Option (Step MachineRule η) :=
    some (named m .stop, s.modify (·.modifyLayer m.scope.layer f), none)
  if m.parent.isSome then none
  else if e.isKeyword "weight" then go .weight
  else if e.isKeyword "mask" then go .mask
  else if e.isKeyword "sync" then go .sync
  else
    match (Keyword.read? e.text : Option Blending) with
    | some blending => set ({ · with blending })
    | none =>
      if e.isKeyword "ikPass" then set ({ · with ikPass := true })
      else if e.isKeyword "syncTiming" then set ({ · with syncTiming := true })
      else none

/-- How the block goes on behind an item that starts with `e`. -/
def reactItem (m : OpenMachine) (e : Event) (s : Session η) :
    Except Diagnostic (Step MachineRule η) :=
  let ask (change : Change Frame) : Except Diagnostic (Step MachineRule η) :=
    .ok (named m .item, s, some change)
  if e.isSymbol '}' then ask (.detach false)
  else if e.isSymbol ';' then .ok (named m .item, s, none)
  else
    match layerOption? m e s with
    | some step => .ok step
    | none =>
      if e.isKeyword "default" then .ok (named m .default, s, none)
      else if e.isKeyword "state" then ask (.attach (.state (.unnamed none)) false)
      else if e.isKeyword "stateMachine" then ask (.attach (.machine (.unnamed true none)) false)
      else if TransitionRule.starts e then ask (.attach (.transition {}) true)
      else if e.kind.isName then ask (.attach (.record (.typeName none none "")) true)
      else .error (e.unexpected "a state, a state machine, a transition or a behaviour")

def react (e : Event) (s : Session η) : MachineRule → Except Diagnostic (Step MachineRule η)
  | unnamed nested outer => do
    let name ← e.name "a name"
    let (m, s) ← declare nested outer e name s
    .ok (named m .openBrace, s, none)
  | named m expect =>
    let setLayer (f : Layer → Layer) (s : Session η) : Step MachineRule η :=
      (named m .stop, s.modify (·.modifyLayer m.scope.layer f), none)
    match expect with
    | .openBrace =>
      if e.isSymbol '{' then .ok (named m .item, s, none) else .error (e.unexpected "`\x7b`")
    | .item => reactItem m e s
    | .weight => do
      let weight ← e.number
      .ok (setLayer ({ · with weight }) s)
    | .mask => do
      let reference ← e.name "a mask reference"
      let (mask, s) := s.resolve reference .avatarMask
      .ok (setLayer ({ · with mask }) s)
    | .sync => do
      let name ← e.name "a layer name"
      .ok (named m .stop, { s with syncs := s.syncs ++ [(m.scope.layer, use e name)] }, none)
    | .default => do
      let name ← e.name "a state name"
      .ok (named { m with default := some (use e name) } .stop, s, none)
    | .stop =>
      if e.isSymbol ';' then .ok (named m .item, s, none) else .error (e.unexpected "`;`")

/-- Links the default state and the transitions that wait for the end of the machine. -/
def close (s : Session η) : MachineRule → Session η
  | unnamed _ _ => s
  | named m _ =>
    let s :=
      match m.default with
      | some use => s.linkDefault m.scope.machine m.scope.layer m.scope.path use
      | none => s
    s.linkScope m.scope.machine m.parent

end MotionScript.MachineRule
