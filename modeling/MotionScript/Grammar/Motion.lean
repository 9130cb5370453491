import MotionScript.Grammar.Transition
/-!
# Motions

The motion of a state, and every child of a blend tree: a clip, a blend tree or, for a child,
nothing. A motion takes its place when its rule is detached.
-/

namespace MotionScript.MotionRule

/-- The rule for the motion of the enclosing state. -/
def root : MotionRule := { slot := .root }

/-- The rule for a child of a blend tree. -/
def child (tree : MotionId) (key : ChildKey) : MotionRule := { slot := .child tree key }

def expecting (r : MotionRule) (expect : MotionExpect) : MotionRule := { r with expect }

def isChild (r : MotionRule) : Bool :=
  match r.slot with
  | .child _ _ => true
  | _ => false

def onAttach (outer : Option Scope) (r : MotionRule) : MotionRule × Except Diagnostic Unit :=
  let r := { r with scope := outer }
  match r.slot, outer.bind Scope.state with
  | .root, some state => ({ r with slot := .state state }, .ok ())
  | .root, none =>
    (r, .error ((Diagnostic.error "a motion must belong to a state").withCode .unexpectedToken))
  | _, _ => (r, .ok ())

/-! ## Taking its place -/

/-- The child slot a motion fills. -/
def slotOf (r : MotionRule) (key : ChildKey) : ChildMotion :=
  let slot : ChildMotion :=
    { motion := r.motion
      timeScale := r.speed.getD .one
      cycleOffset := r.offset.getD .zero
      mirror := r.mirror }
  match key with
  | .threshold x => { slot with threshold := x, position := ⟨x, .zero⟩ }
  | .position x y => { slot with threshold := x, position := ⟨x, y⟩ }
  | .parameter name => { slot with directParameter := name }

/-- Gives a state its motion and the modifiers written behind it. -/
def fillState (r : MotionRule) (state : State) : State :=
  { state with
    motion := r.motion
    speed := (r.speed.map .literal).getD state.speed
    cycleOffset := (r.offset.map .literal).getD state.cycleOffset
    mirror := if r.mirror then .literal true else state.mirror }

/-- Puts the motion where it belongs. -/
def place (r : MotionRule) (c : Controller) : Controller :=
  match r.slot with
  | .root => c
  | .state id => c.modifyState id r.fillState
  | .child tree key =>
    c.modifyMotion tree (·.modifyTree fun t => { t with children := t.children ++ [r.slotOf key] })

/-! ## Tokens -/

variable {η : Type} [Host η]

omit [Host η] in
/-- Changes the blend tree that is being read. -/
def modifyTree (r : MotionRule) (s : Session η) (f : BlendTree → BlendTree) : Session η :=
  match r.motion with
  | some id => s.modify (·.modifyMotion id (·.modifyTree f))
  | none => s

def reactStart (r : MotionRule) (e : Event) : Except Diagnostic MotionRule :=
  if e.isKeyword "clip" then .ok (r.expecting .clipReference)
  else if e.isKeyword "blendtree" then .ok (r.expecting .treeName)
  else if e.isKeyword "empty" && r.isChild then .ok (r.expecting .modifier)
  else .error (e.unexpected "`clip`, `blendtree` or `empty`")

/-- Adds the clip a reference stands for; one that is not found leaves the slot empty. -/
def clip (r : MotionRule) (s : Session η) (reference : String) : MotionRule × Session η :=
  match s.resolve reference .animationClip with
  | (some asset, s) =>
    let (id, controller) := s.controller.addMotion (.clip asset)
    ({ r with motion := some id, expect := .modifier }, { s with controller })
  | (none, s) => (r.expecting .modifier, s)

/-- Adds a blend tree. Its children are stored below its name. -/
def openTree (r : MotionRule) (s : Session η) (name : String) : MotionRule × Session η :=
  let (id, controller) := s.controller.addMotion (.tree { name })
  let hint := (r.scope.map (·.hint)).getD []
  ({ r with
      motion := some id
      scope := r.scope.map fun scope => { scope with hint := scope.hint ++ [name] }
      expect := .treeType },
    { s with controller }.persist hint (.motion id) name)

/-- The blend type a token names. -/
def blendType (e : Event) : Except Diagnostic BlendType :=
  match (Keyword.read e.text : Except String BlendType) with
  | .ok t => .ok t
  | .error message =>
    .error ((((Diagnostic.error message).withCode .invalidValue).withLabel e.span
      "not a blend type" |>.withPosition e.position).withHelp ("expected simple1D, " ++
        "simpleDirectional2D, freeformDirectional2D, freeformCartesian2D or direct"))

def reactAfterType (r : MotionRule) (e : Event) : Except Diagnostic MotionRule :=
  if e.isSymbol '(' then .ok (r.expecting .firstParameter)
  else if e.isKeyword "threshold" then .ok (r.expecting .thresholdOpen)
  else if e.isSymbol '{' then .ok (r.expecting .key)
  else .error (e.unexpected "`(`, `threshold` or `\x7b`")

def reactKey (r : MotionRule) (e : Event) : Except Diagnostic MotionRule :=
  if e.isSymbol '}' then .ok { r with closedTree := true, expect := .modifier }
  else if e.isSymbol '(' then .ok (r.expecting .keyX)
  else if e.kind == .number then do
    let x ← e.number
    .ok (r.expecting (.colon (.threshold x)))
  else do
    let name ← e.name "a child key or `\x7d`"
    .ok (r.expecting (.colon (.parameter name)))

/-- Modifiers behind a motion. A blend tree needs no semicolon: a token on a new line, or one that
is no modifier, goes back to the rule below. -/
def reactModifier (r : MotionRule) (e : Event) : Except Diagnostic (MotionRule × Control Frame) :=
  if e.isSymbol ';' then .ok (r, some (.detach false))
  else if r.closedTree && e.lineBreak then .ok (r, some (.detach true))
  else if e.isSymbol '*' then .ok (r.expecting .speed, none)
  else if e.isSymbol '+' then .ok (r.expecting (.offset false), none)
  else if e.isSymbol '-' then .ok (r.expecting (.offset true), none)
  else if e.kind == .number then do
    let x ← e.number
    .ok ({ r with offset := some x }, none)
  else if e.isKeyword "mirror" then .ok ({ r with mirror := true }, none)
  else if r.closedTree then .ok (r, some (.detach true))
  else .error (e.unexpected "a motion modifier or `;`")

/-- Goes on to `next` if the token is a symbol. -/
def expectSymbol (r : MotionRule) (e : Event) (symbol : Char) (expected : String)
    (next : MotionExpect) : Except Diagnostic MotionRule :=
  if e.isSymbol symbol then .ok (r.expecting next) else .error (e.unexpected expected)

def react (e : Event) (s : Session η) (r : MotionRule) : Except Diagnostic (Step MotionRule η) :=
  match r.expect with
  | .start => (r.reactStart e).map (·, s, none)
  | .clipReference => do
    let reference ← e.name "a clip reference"
    let (r, s) := r.clip s reference
    .ok (r, s, none)
  | .treeName => do
    let name ← e.name "a blend tree name"
    let (r, s) := r.openTree s name
    .ok (r, s, none)
  | .treeType => do
    let blendType ← blendType e
    .ok (r.expecting .afterType, r.modifyTree s ({ · with blendType }), none)
  | .afterType => (r.reactAfterType e).map (·, s, none)
  | .firstParameter => do
    let parameter ← e.name "a parameter name"
    .ok (r.expecting (.parameterNext true), r.modifyTree s ({ · with parameter }), none)
  | .secondParameter => do
    let parameterY ← e.name "a parameter name"
    .ok (r.expecting (.parameterNext false), r.modifyTree s ({ · with parameterY }), none)
  | .parameterNext first =>
    if first && e.isSymbol ',' then .ok (r.expecting .secondParameter, s, none)
    else (r.expectSymbol e ')' "`,` or `)`" .afterType).map (·, s, none)
  | .thresholdOpen => (r.expectSymbol e '(' "`(`" .thresholdMin).map (·, s, none)
  | .thresholdMin => do
    let least ← e.number
    .ok (r.expecting .thresholdComma, r.modifyTree s ({ · with thresholds := some (least, least) }),
      none)
  | .thresholdComma => (r.expectSymbol e ',' "`,`" .thresholdMax).map (·, s, none)
  | .thresholdMax => do
    let greatest ← e.number
    .ok (r.expecting .thresholdClose, r.modifyTree s (fun t =>
      { t with thresholds := t.thresholds.map fun (least, _) => (least, greatest) }), none)
  | .thresholdClose => (r.expectSymbol e ')' "`)`" .afterType).map (·, s, none)
  | .key => (r.reactKey e).map (·, s, none)
  | .keyX => do
    let x ← e.number
    .ok (r.expecting (.keyComma x), s, none)
  | .keyComma x => (r.expectSymbol e ',' "`,`" (.keyY x)).map (·, s, none)
  | .keyY x => do
    let y ← e.number
    .ok (r.expecting (.keyClose x y), s, none)
  | .keyClose x y => (r.expectSymbol e ')' "`)`" (.colon (.position x y))).map (·, s, none)
  | .colon key =>
    if !e.isSymbol ':' then .error (e.unexpected "`:`")
    else
      match r.motion with
      | some tree => .ok (r.expecting .key, s, some (.attach (.motion (child tree key)) false))
      | none => .error (e.outOfPlace "a blend tree child")
  | .modifier => (r.reactModifier e).map fun (r, control) => (r, s, control)
  | .speed => do
    let speed ← e.number
    .ok ({ r with speed := some speed, expect := .modifier }, s, none)
  | .offset negative =>
    if e.isSymbol '-' then .ok (r.expecting (.offset !negative), s, none)
    else if e.isSymbol '+' then .ok (r, s, none)
    else do
      let x ← e.number
      let offset := some (TransitionRule.signed negative x)
      .ok ({ r with offset, expect := .modifier }, s, none)

end MotionScript.MotionRule
