import MotionScript.Proofs.Linking.Stack
/-!
# What can be on the stack

The stack has the shape of the grammar: the document, on it a parameter declaration or a layer with
machines nested in it, and on the innermost machine a statement, a record or a state, which may
carry a statement, a record or motions. The scopes that the rules were given agree with it.
-/

namespace MotionScript

/-- The scope of a state in the machine with this scope. -/
def Scope.inState (scope : Scope) (id : StateId) (name : String) : Scope :=
  { scope with state := some id, hint := scope.hint ++ [name] }

/-- The scope of an object below other objects that have names. -/
def Scope.deeper (scope : Scope) (names : List String) : Scope :=
  { scope with hint := scope.hint ++ names }

@[simp]
theorem Scope.deeper_nil (scope : Scope) : scope.deeper [] = scope := by
  simp [deeper]

@[simp]
theorem Scope.deeper_deeper (scope : Scope) (names more : List String) :
    (scope.deeper names).deeper more = scope.deeper (names ++ more) := by
  simp [deeper]

/-- Machines nested in each other, on the document: a stack whose innermost machine is `m`. -/
inductive Nested : OpenMachine → List Frame → Prop where
  | layer (m : OpenMachine) (x : MachineExpect) (hp : m.parent = none) (hs : m.scope.state = none) :
    Nested m [.machine (.named m x), .document]
  | machine {outer : OpenMachine} {below : List Frame} (h : Nested outer below) (m : OpenMachine)
    (x : MachineExpect) (name : String) (hp : m.parent = some outer.scope.machine)
    (hl : m.scope.layer = outer.scope.layer) (hs : m.scope.state = none)
    (hpath : m.scope.path = outer.scope.path.join name)
    (hhint : m.scope.hint = outer.scope.hint ++ [name]) :
    Nested m (.machine (.named m x) :: below)

/-- A stack whose top is a machine or a state, with the scope of its items. -/
inductive Block : Scope → List Frame → Prop where
  | machine {m : OpenMachine} {below : List Frame} (h : Nested m below) : Block m.scope below
  | state {m : OpenMachine} {below : List Frame} (h : Nested m below) (id : StateId) (name : String)
    (x : StateExpect) :
    Block (m.scope.inState id name) (.state (.named (m.scope.inState id name) id x) :: below)

/-- Motions on a state, innermost first: each is a child of the blend tree below it, which is at one
of its children. -/
inductive Motions : Scope → StateId → List Frame → Prop where
  | root {scope : Scope} {below : List Frame} {id : StateId} {x : StateExpect}
    (h : Block scope (.state (.named scope id x) :: below)) (r : MotionRule) (names : List String)
    (hslot : r.slot = .state id) (hs : r.scope = some (scope.deeper names))
    (ht : r.expect.inTree → r.motion.isSome) :
    Motions scope id (.motion r :: .state (.named scope id x) :: below)
  | child {scope : Scope} {below : List Frame} {id : StateId} {parent : MotionRule}
    (h : Motions scope id (.motion parent :: below)) (r : MotionRule) (names : List String)
    (tree : MotionId) (key : ChildKey) (hkey : parent.expect = .key)
    (htree : parent.motion = some tree) (hslot : r.slot = .child tree key)
    (hs : r.scope = some (scope.deeper names)) (ht : r.expect.inTree → r.motion.isSome) :
    Motions scope id (.motion r :: .motion parent :: below)

/-- The shape of a stack. -/
inductive Shaped : List Frame → Prop where
  | document : Shaped [.document]
  | parameter (r : ParameterRule) : Shaped [.parameter r, .document]
  | layerName : Shaped [.machine (.unnamed false none), .document]
  | block {scope : Scope} {below : List Frame} (h : Block scope below) : Shaped below
  | machineName {m : OpenMachine} {below : List Frame} (h : Nested m below) :
    Shaped (.machine (.unnamed true (some m.scope)) :: below)
  | stateName {m : OpenMachine} {below : List Frame} (h : Nested m below) :
    Shaped (.state (.unnamed (some m.scope)) :: below)
  | transition {scope : Scope} {below : List Frame} (h : Block scope below) (r : TransitionRule)
    (hs : r.scope = some scope) : Shaped (.transition r :: below)
  | typeName {scope : Scope} {below : List Frame} (h : Block scope below)
    (mode : Option TypeNameMode) (text : String) :
    Shaped (.record (.typeName (some scope) mode text) :: below)
  | record {scope : Scope} {below : List Frame} (h : Block scope below) (r : OpenRecord)
    (x : RecordExpect) : Shaped (.record (.body r x) :: below)
  | motions {scope : Scope} {id : StateId} {stack : List Frame} (h : Motions scope id stack) :
    Shaped stack

/-! ## Where rules are -/

/-- The innermost machine and state on a stack. -/
def innermost? : List Frame → Option (MachineId × Option StateId)
  | [] => none
  | .machine (.named m _) :: _ => some (m.scope.machine, none)
  | .state (.named _ id _) :: below => (innermost? below).map fun place => (place.1, some id)
  | _ :: below => innermost? below

/-- The machine and the state that a scope names. -/
def Scope.place (scope : Scope) : MachineId × Option StateId := (scope.machine, scope.state)

/-- The machine and the state that a rule was told it is in. -/
def Frame.place? : Frame → Option (MachineId × Option StateId)
  | .document | .parameter _ => none
  | .machine (.unnamed _ outer) | .state (.unnamed outer) | .record (.typeName outer _ _) =>
    outer.map Scope.place
  | .machine (.named m _) => m.parent.map (·, none)
  | .state (.named scope _ _) => some (scope.machine, none)
  | .transition r => r.scope.map Scope.place
  | .motion r => r.scope.map Scope.place
  | .record (.body _ _) => none

/-- Whether a machine or state rule has declared what it stands for. -/
def Frame.hasDeclared : Frame → Bool
  | .machine (.unnamed _ _) | .state (.unnamed _) => false
  | _ => true

/-- What holds of every rule on a stack: all but the top one have declared what they stand for, and
the scope each was given names the innermost machine and state below it. The body of a record keeps
no scope. -/
def InPlace : List Frame → Prop
  | [] => True
  | f :: below => ((∃ r x, f = .record (.body r x)) ∨ f.place? = innermost? below) ∧
      (∀ g ∈ below, g.hasDeclared) ∧ InPlace below

theorem Nested.top {m : OpenMachine} {f : Frame} {below : List Frame} (h : Nested m (f :: below)) :
    ∃ x, f = .machine (.named m x) := by
  cases h <;> exact ⟨_, rfl⟩

theorem Motions.top {scope : Scope} {id : StateId} {f : Frame} {below : List Frame}
    (h : Motions scope id (f :: below)) : ∃ r, f = .motion r := by
  cases h <;> exact ⟨_, rfl⟩

theorem Nested.noState {m : OpenMachine} {stack : List Frame} (h : Nested m stack) :
    m.scope.state = none := by
  cases h with
  | layer _ x hp hs => exact hs
  | machine h _ x name hp hl hs => exact hs

theorem Nested.innermost {m : OpenMachine} {stack : List Frame} (h : Nested m stack) :
    innermost? stack = some m.scope.place := by
  cases h with
  | layer _ x hp hs => simp [innermost?, Scope.place, hs]
  | machine h _ x name hp hl hs => simp [innermost?, Scope.place, hs]

theorem Block.innermost {scope : Scope} {stack : List Frame} (h : Block scope stack) :
    innermost? stack = some scope.place := by
  cases h with
  | machine h => exact h.innermost
  | state h id name x => simp [innermost?, h.innermost, Scope.place, Scope.inState]

theorem Motions.scope {scope : Scope} {id : StateId} {r : MotionRule} {below : List Frame}
    (h : Motions scope id (.motion r :: below)) : ∃ names, r.scope = some (scope.deeper names) := by
  cases h with
  | root h _ names hslot hs => exact ⟨names, hs⟩
  | child h _ names tree key hkey htree hslot hs => exact ⟨names, hs⟩

theorem Motions.innermost {scope : Scope} {id : StateId} {stack : List Frame}
    (h : Motions scope id stack) : innermost? stack = some scope.place := by
  induction h with
  | root h r names hslot hs ht => simpa [innermost?] using h.innermost
  | child h r names tree key hkey htree hslot hs ht ih => simpa [innermost?] using ih

theorem Nested.hasDeclared {m : OpenMachine} {stack : List Frame} (h : Nested m stack) :
    ∀ g ∈ stack, g.hasDeclared := by
  induction h with
  | layer => simp [Frame.hasDeclared]
  | machine h m x name hp hl hs hpath hhint ih => simpa [Frame.hasDeclared] using ih

theorem Block.hasDeclared {scope : Scope} {stack : List Frame} (h : Block scope stack) :
    ∀ g ∈ stack, g.hasDeclared := by
  cases h with
  | machine h => exact h.hasDeclared
  | state h id name x => simpa [Frame.hasDeclared] using h.hasDeclared

theorem Motions.hasDeclared {scope : Scope} {id : StateId} {stack : List Frame}
    (h : Motions scope id stack) : ∀ g ∈ stack, g.hasDeclared := by
  induction h with
  | root h r names hslot hs ht => simpa [Frame.hasDeclared] using h.hasDeclared
  | child h r names tree key hkey htree hslot hs ht ih => simpa [Frame.hasDeclared] using ih

theorem Nested.inPlace {m : OpenMachine} {stack : List Frame} (h : Nested m stack) :
    InPlace stack := by
  induction h with
  | layer m x hp hs => simp [InPlace, Frame.place?, innermost?, hp, Frame.hasDeclared]
  | machine h m x name hp hl hs hpath hhint ih =>
    refine ⟨.inr ?_, h.hasDeclared, ih⟩
    simp [Frame.place?, h.innermost, hp, Scope.place, h.noState]

theorem Block.inPlace {scope : Scope} {stack : List Frame} (h : Block scope stack) :
    InPlace stack := by
  cases h with
  | machine h => exact h.inPlace
  | state h id name x =>
    refine ⟨.inr ?_, h.hasDeclared, h.inPlace⟩
    simp [Frame.place?, h.innermost, Scope.place, Scope.inState, h.noState]

theorem Motions.inPlace {scope : Scope} {id : StateId} {stack : List Frame}
    (h : Motions scope id stack) : InPlace stack := by
  induction h with
  | root h r names hslot hs ht =>
    refine ⟨.inr ?_, h.hasDeclared, h.inPlace⟩
    simp [Frame.place?, h.innermost, hs, Scope.place, Scope.deeper]
  | child h r names tree key hkey htree hslot hs ht ih =>
    refine ⟨.inr ?_, h.hasDeclared, ih⟩
    simp [Frame.place?, h.innermost, hs, Scope.place, Scope.deeper]

/-- On a stack of the right shape every rule knows where it is. -/
theorem Shaped.inPlace {stack : List Frame} (h : Shaped stack) : InPlace stack := by
  cases h with
  | document => simp [InPlace, Frame.place?, innermost?]
  | parameter | layerName => simp [InPlace, Frame.place?, innermost?, Frame.hasDeclared]
  | block h => exact h.inPlace
  | machineName h | stateName h =>
    exact ⟨.inr (by simp [Frame.place?, h.innermost]), h.hasDeclared, h.inPlace⟩
  | transition h r hs =>
    exact ⟨.inr (by simp [Frame.place?, hs, h.innermost]), h.hasDeclared, h.inPlace⟩
  | typeName h mode text =>
    exact ⟨.inr (by simp [Frame.place?, h.innermost]), h.hasDeclared, h.inPlace⟩
  | record h r x => exact ⟨.inl ⟨r, x, rfl⟩, h.hasDeclared, h.inPlace⟩
  | motions h => exact h.inPlace

/-! ## The document at the bottom -/

theorem Nested.bottom {m : OpenMachine} {stack : List Frame} (h : Nested m stack) :
    stack.getLast? = some .document := by
  induction h with
  | layer => rfl
  | machine h m x name hp hl hs hpath hhint ih => simp [List.getLast?_cons, ih]

theorem Block.bottom {scope : Scope} {stack : List Frame} (h : Block scope stack) :
    stack.getLast? = some .document := by
  cases h with
  | machine h => exact h.bottom
  | state h => simp [List.getLast?_cons, h.bottom]

theorem Motions.bottom {scope : Scope} {id : StateId} {stack : List Frame}
    (h : Motions scope id stack) : stack.getLast? = some .document := by
  induction h with
  | root h => rw [List.getLast?_cons, h.bottom]; rfl
  | child h r names tree key hkey htree hslot hs ht ih => rw [List.getLast?_cons, ih]; rfl

theorem Shaped.bottom {stack : List Frame} (h : Shaped stack) :
    stack.getLast? = some .document := by
  cases h with
  | document | parameter | layerName => rfl
  | block h => exact h.bottom
  | machineName h | stateName h | transition h | typeName h | record h =>
    rw [List.getLast?_cons, h.bottom]
    rfl
  | motions h => exact h.bottom

/-! ## Detaching -/

/-- What is left when the top rule is detached. -/
theorem Shaped.tail {f : Frame} {below : List Frame} (h : Shaped (f :: below)) :
    below = [] ∨ Shaped below := by
  cases h with
  | document => exact .inl rfl
  | parameter | layerName => exact .inr .document
  | block h =>
    right
    cases h with
    | machine h =>
      cases h with
      | layer => exact .document
      | machine h => exact .block (.machine h)
    | state h => exact .block (.machine h)
  | machineName h | stateName h => exact .inr (.block (.machine h))
  | transition h | typeName h | record h => exact .inr (.block h)
  | motions h =>
    right
    cases h with
    | root h => exact .block h
    | child h => exact .motions h

end MotionScript
