import MotionScript.Grammar.Frame
/-!
# Transition statements

Modifiers, conditions and a destination in any order, ended by a semicolon. Each alternative of the
condition becomes a transition of its own with the same modifiers and destination.
-/

namespace MotionScript.TransitionRule

/-- Words that start a statement. -/
def starters : List String :=
  ["if", "noSelf", "any", "muted", "solo", "wait", "fade", "end", "goto", "none", "source",
    "destination", "sourceThenDestination", "destinationThenSource"]

/-- Whether a token starts a statement. -/
def starts (e : Event) : Bool :=
  match e.kind with
  | .number => true
  | .symbol => e.isSymbol '+' || e.isSymbol '-'
  | .identifier => starters.any fun word => e.isKeyword word
  | _ => false

/-- Adds a condition to the last alternative. -/
def addCondition : List (List Condition) → Condition → List (List Condition)
  | [], _ => []
  | [group], c => [group ++ [c]]
  | group :: groups, c => group :: addCondition groups c

def expecting (r : TransitionRule) (expect : TransitionExpect) : TransitionRule := { r with expect }

/-- Changes the modifiers and expects the next one. -/
def modified (r : TransitionRule) (f : Transition → Transition) : TransitionRule :=
  { r with modifiers := f r.modifiers, expect := .modifier none }

/-- Completes a condition. -/
def commit (r : TransitionRule) (c : Condition) : TransitionRule :=
  { r with groups := addCondition r.groups c, expect := .modifier none }

/-- Opens an alternative. -/
def openGroup (r : TransitionRule) : TransitionRule := { r with groups := r.groups ++ [[]] }

/-- A number with a sign in front of it. -/
def signed (negative : Bool) (x : Single) : Single := if negative then -x else x

/-! ## What is queued -/

/-- The list the transitions join. -/
def home (scope : Scope) (any : Bool) : Home :=
  match scope.state with
  | some state => .state state
  | none => if any then .any scope.machine else .entry scope.machine

/-- The path a destination stands for. A statement of a state without one leads back to the
state. -/
def target (c : Controller) (scope : Scope) : Option Goto → Target
  | some .exit => .exit
  | some (.relative name) => .node (scope.path.join name)
  | some (.absolute segments) => .node ⟨scope.path.segments.take 1 ++ segments⟩
  | none =>
    match scope.state with
    | some state => .node (scope.path.join (c.state state).name)
    | none => .missing

/-- The transitions of a statement that starts at `start`. -/
def queued (r : TransitionRule) (c : Controller) (scope : Scope) (start : Span × Position) :
    List Pending :=
  (if r.groups.isEmpty then [[]] else r.groups).map fun conditions =>
    { transition := { r.modifiers with conditions }
      target := target c scope r.goto
      home := home scope r.any
      owner := scope.machine
      layer := scope.layer
      hint := scope.hint
      span := start.1
      position := start.2 }

/-! ## Tokens -/

/-- A rule after a token, and whether the token has to be looked at again. -/
structure Look where
  rule : TransitionRule
  again : Bool := false

abbrev Looked := Except Diagnostic Look

/-- The second half of `&&` or `||`. -/
def connective (r : TransitionRule) (e : Event) (begun : Char) : Looked :=
  if !e.isSymbol begun then .error (e.unexpected s!"`{begun}{begun}`")
  else if r.groups.isEmpty then .error (e.unexpected "`if` before a condition")
  else if begun = '|' then .ok ⟨r.openGroup.expecting (.condition (!r.bracket)), false⟩
  else .ok ⟨r.expecting (.condition false), false⟩

/-- A modifier that starts with a symbol; the semicolon is not one of them. -/
def symbolModifier (r : TransitionRule) (e : Event) : Looked :=
  if e.isSymbol '&' then .ok ⟨r.expecting (.modifier (some '&')), false⟩
  else if e.isSymbol '|' then .ok ⟨r.expecting (.modifier (some '|')), false⟩
  else if e.isSymbol ')' && r.bracket then .ok ⟨{ r with bracket := false }, false⟩
  else if e.isSymbol '+' then .ok ⟨r.expecting (.offset false), false⟩
  else if e.isSymbol '-' then .ok ⟨r.expecting (.offset true), false⟩
  else .error (e.unexpected "a transition modifier or `;`")

/-- A modifier that starts with a word. -/
def wordModifier (r : TransitionRule) (e : Event) : Looked :=
  if e.isKeyword "if" then .ok ⟨r.openGroup.expecting (.condition true), false⟩
  else if e.isKeyword "any" then .ok ⟨{ r with any := true }, false⟩
  else if e.isKeyword "noSelf" then .ok ⟨r.modified ({ · with toSelf := false }), false⟩
  else if e.isKeyword "muted" then .ok ⟨r.modified ({ · with muted := true }), false⟩
  else if e.isKeyword "solo" then .ok ⟨r.modified ({ · with solo := true }), false⟩
  else if e.isKeyword "wait" then .ok ⟨r.expecting .waitOpen, false⟩
  else if e.isKeyword "fade" then .ok ⟨r.expecting .fadeOpen, false⟩
  else if e.isKeyword "end" then .ok ⟨{ r with goto := some .exit }, false⟩
  else if e.isKeyword "goto" then .ok ⟨r.expecting .gotoStart, false⟩
  else
    match (Keyword.read? e.text : Option Interruption) with
    | some interruption =>
      .ok ⟨(r.modified ({ · with interruption })).expecting .ordered, false⟩
    | none => .error (e.unexpected "a transition modifier or `;`")

/-- A modifier other than the semicolon. -/
def modifier (r : TransitionRule) (e : Event) : Looked :=
  match e.kind with
  | .number => do
    let offset ← e.number
    .ok ⟨r.modified ({ · with offset }), false⟩
  | .symbol => r.symbolModifier e
  | .identifier => r.wordModifier e
  | .single | .double => .error (e.unexpected "a transition modifier or `;`")

/-- What follows the name of a parameter in a condition. -/
def operator (r : TransitionRule) (e : Event) (parameter : String) (negated : Bool)
    (begun : Option Char) : Looked :=
  let compare (mode : ConditionMode) : Looked :=
    if negated then .error (e.unexpected "a negated parameter without a comparison")
    else .ok ⟨r.expecting (.threshold parameter mode), false⟩
  match begun with
  | some c =>
    if c = '=' ∧ e.isSymbol '=' then compare .equals
    else if c = '!' ∧ e.isSymbol '=' then compare .notEqual
    else .error (e.unexpected "`==` or `!=`")
  | none =>
    if e.isSymbol '>' then compare .greater
    else if e.isSymbol '<' then compare .less
    else if e.isSymbol '=' then .ok ⟨r.expecting (.operator parameter negated (some '=')), false⟩
    else if e.isSymbol '!' then .ok ⟨r.expecting (.operator parameter negated (some '!')), false⟩
    else .ok ⟨r.commit ⟨parameter, if negated then .fails else .holds, .zero⟩, true⟩

/-- One look at a token that does not end the statement. -/
def look (r : TransitionRule) (e : Event) : Looked :=
  match r.expect with
  | .modifier none => r.modifier e
  | .modifier (some begun) => r.connective e begun
  | .condition opening =>
    if opening && !r.bracket && e.isSymbol '(' then
      .ok ⟨{ r with bracket := true, expect := .condition false }, false⟩
    else if e.isSymbol '!' then .ok ⟨r.expecting .negated, false⟩
    else do
      let name ← e.name "a condition"
      .ok ⟨r.expecting (.operator name false none), false⟩
  | .negated => do
    let name ← e.name "a parameter name"
    .ok ⟨r.expecting (.operator name true none), false⟩
  | .operator parameter negated begun => r.operator e parameter negated begun
  | .threshold parameter mode => do
    let threshold ← e.number
    .ok ⟨r.commit ⟨parameter, mode, threshold⟩, false⟩
  | .waitOpen =>
    if e.isSymbol '(' then .ok ⟨r.expecting .waitValue, false⟩
    else do
      let time ← e.number
      .ok ⟨r.modified ({ · with exitTime := some time }), false⟩
  | .waitValue => do
    let time ← e.number
    .ok ⟨(r.modified ({ · with exitTime := some time })).expecting .waitClose, false⟩
  | .waitClose | .fadeClose =>
    if e.isSymbol ')' then .ok ⟨r.expecting (.modifier none), false⟩
    else .error (e.unexpected "`)`")
  | .fadeOpen =>
    if e.isSymbol '(' then .ok ⟨r.expecting .fadeValue, false⟩
    else do
      let duration ← e.number
      .ok ⟨(r.modified ({ · with duration })).expecting (.fadeUnit false), false⟩
  | .fadeValue => do
    let duration ← e.number
    .ok ⟨(r.modified ({ · with duration })).expecting (.fadeUnit true), false⟩
  | .fadeUnit bracket =>
    let next := if bracket then .fadeClose else .modifier none
    if e.isKeyword "s" then
      .ok ⟨(r.modified ({ · with fixedDuration := true })).expecting next, false⟩
    else .ok ⟨r.expecting next, true⟩
  | .offset negative =>
    if e.isSymbol '-' then .ok ⟨r.expecting (.offset !negative), false⟩
    else if e.isSymbol '+' then .ok ⟨r, false⟩
    else do
      let x ← e.number
      .ok ⟨r.modified ({ · with offset := signed negative x }), false⟩
  | .ordered =>
    if e.isKeyword "ordered" then .ok ⟨r.modified ({ · with ordered := true }), false⟩
    else .ok ⟨r.expecting (.modifier none), true⟩
  | .gotoStart =>
    if e.isSymbol '/' then .ok ⟨r.expecting (.gotoSegment true []), false⟩
    else do
      let name ← e.name "a destination name"
      .ok ⟨r.expecting (.gotoNext false [name]), false⟩
  | .gotoSegment absolute segments => do
    let name ← e.name "a destination name"
    .ok ⟨r.expecting (.gotoNext absolute (segments ++ [name])), false⟩
  | .gotoNext absolute segments =>
    if e.isSymbol '/' then .ok ⟨r.expecting (.gotoSegment true segments), false⟩
    else
      let goto :=
        match absolute, segments with
        | false, [name] => .relative name
        | _, segments => .absolute segments
      .ok ⟨{ r with goto := some goto, expect := .modifier none }, true⟩

variable {η : Type}

/-- Queues the transitions of the statement and ends it. -/
def finish (r : TransitionRule) (e : Event) (s : Session η) :
    Except Diagnostic (Step TransitionRule η) :=
  if r.bracket then .error (e.unexpected "`)`")
  else
    match r.scope with
    | none => .error (e.outOfPlace "a transition")
    | some scope =>
      let start := r.start.getD (e.span, e.position)
      .ok (r, { s with pending := s.pending ++ r.queued s.controller scope start },
        some (.detach false))

/-- Whether a token ends the statement. -/
def ends (r : TransitionRule) (e : Event) : Bool :=
  r.expect == .modifier none && e.isSymbol ';'

/-- Looks at a token, and again as long as it has to be, at most `fuel` times. -/
def lookAgain (e : Event) (s : Session η) : Nat → TransitionRule →
    Except Diagnostic (Step TransitionRule η)
  | 0, r => .ok (r, s, none)
  | fuel + 1, r =>
    if r.ends e then r.finish e s
    else do
      let l ← r.look e
      if l.again then lookAgain e s fuel l.rule else .ok (l.rule, s, none)

/-- A token is looked at again at most once in another state. -/
def maxLooks : Nat := 2

def react (e : Event) (s : Session η) (r : TransitionRule) :
    Except Diagnostic (Step TransitionRule η) :=
  lookAgain e s maxLooks { r with start := some (r.start.getD (e.span, e.position)) }

end MotionScript.TransitionRule
