import MotionScript.Proofs.Images.Session
/-!
# Rules behind a backdrop

A rule that handles the image of a token behind a backdrop does the image of what it does without:
it fails alike, asks for the same change and leaves a session that is alike.
-/

namespace MotionScript

/-! ## Images of rules -/

namespace Backdrop

variable (b : Backdrop)

def declaration (d : Declaration) : Declaration :=
  ⟨d.parameter, b.span d.span, b.position d.position⟩

def parameterRule : ParameterRule → ParameterRule
  | .kind => .kind
  | .name kind => .name kind
  | .operator d => .operator (b.declaration d)
  | .value d => .value (b.declaration d)
  | .stop d => .stop (b.declaration d)

def openMachine (m : OpenMachine) : OpenMachine :=
  ⟨b.scope m.scope, m.parent.map b.offsets.machineId, m.default.map b.use⟩

def machineRule : MachineRule → MachineRule
  | .unnamed nested outer => .unnamed nested (outer.map b.scope)
  | .named m expect => .named (b.openMachine m) expect

def stateRule : StateRule → StateRule
  | .unnamed outer => .unnamed (outer.map b.scope)
  | .named scope id expect => .named (b.scope scope) (b.offsets.stateId id) expect

def place (p : Span × Position) : Span × Position := (b.span p.1, b.position p.2)

def transitionRule (r : TransitionRule) : TransitionRule :=
  { r with scope := r.scope.map b.scope, start := r.start.map b.place }

def slot : MotionSlot → MotionSlot
  | .root => .root
  | .state id => .state (b.offsets.stateId id)
  | .child tree key => .child (b.offsets.motionId tree) key

def motionRule (r : MotionRule) : MotionRule :=
  { r with
    slot := b.slot r.slot
    scope := r.scope.map b.scope
    motion := r.motion.map b.offsets.motionId }

def openRecord (r : OpenRecord) : OpenRecord := { r with id := b.offsets.recordId r.id }

def recordRule : RecordRule → RecordRule
  | .typeName outer mode text => .typeName (outer.map b.scope) mode text
  | .body r expect => .body (b.openRecord r) expect

def frame : Frame → Frame
  | .document => .document
  | .parameter r => .parameter (b.parameterRule r)
  | .machine r => .machine (b.machineRule r)
  | .state r => .state (b.stateRule r)
  | .transition r => .transition (b.transitionRule r)
  | .motion r => .motion (b.motionRule r)
  | .record r => .record (b.recordRule r)

def change : Change Frame → Change Frame
  | .attach rule forward => .attach (b.frame rule) forward
  | .detach forward => .detach forward

/-! ## Outcomes -/

/-- Two results that are alike: both are values, and `P` holds of them, or the second one is the
image of the first failure. -/
inductive Outcome {α β : Type} (P : α → β → Prop) :
    Except Diagnostic α → Except Diagnostic β → Prop where
  | ok {a : α} {a' : β} (h : P a a') : Outcome P (.ok a) (.ok a')
  | error (d : Diagnostic) : Outcome P (.error d) (.error (b.diagnostic d))

namespace Outcome

variable {b} {α α' β β' : Type} {P : α → α' → Prop} {Q : β → β' → Prop}

theorem ite {c : Prop} [Decidable c] {x y : Except Diagnostic α} {x' y' : Except Diagnostic α'}
    (h : b.Outcome P x x') (h' : b.Outcome P y y') :
    b.Outcome P (if c then x else y) (if c then x' else y') := by
  split
  · exact h
  · exact h'

theorem bind {x : Except Diagnostic α} {x' : Except Diagnostic α'} {f : α → Except Diagnostic β}
    {f' : α' → Except Diagnostic β'} (h : b.Outcome P x x')
    (hf : ∀ a a', P a a' → b.Outcome Q (f a) (f' a')) : b.Outcome Q (x >>= f) (x' >>= f') := by
  cases h with
  | ok h => exact hf _ _ h
  | error d => exact .error d

theorem map {x : Except Diagnostic α} {x' : Except Diagnostic α'} {f : α → β} {f' : α' → β'}
    (h : b.Outcome P x x') (hf : ∀ a a', P a a' → Q (f a) (f' a')) :
    b.Outcome Q (x.map f) (x'.map f') := by
  cases h with
  | ok h => exact .ok (hf _ _ h)
  | error d => exact .error d

/-- What is read from a token does not change with its place. -/
theorem read {x x' : Except Diagnostic α} {f : α → Except Diagnostic β}
    {f' : α → Except Diagnostic β'} (h : b.Outcome Eq x x')
    (hf : ∀ a, b.Outcome Q (f a) (f' a)) : b.Outcome Q (x >>= f) (x' >>= f') :=
  h.bind fun a _ h => h ▸ hf a

end Outcome

variable {b}

theorem name_event (e : Event) (expected : String) :
    b.Outcome Eq (e.name expected) ((b.event e).name expected) := by
  simp only [Event.name, show (b.event e).name? = e.name? from rfl]
  cases e.name? with
  | none => exact .error _
  | some name => exact .ok rfl

theorem number_event (e : Event) : b.Outcome Eq e.number (b.event e).number := by
  simp only [Event.number, show (b.event e).single? = e.single? from rfl]
  cases e.single? with
  | none => exact .error _
  | some x => exact .ok rfl

end Backdrop

variable {η θ : Type} [Host η] [Host θ]

/-- Two steps that are alike: the second one is the image of the first. -/
structure Stage.Steps (b : Stage η θ) {ρ : Type} (image : ρ → ρ) (x : Step ρ η) (y : Step ρ θ) :
    Prop where
  rule : y.1 = image x.1
  session : b.Like x.2.1 y.2.1
  control : y.2.2 = x.2.2.map b.change

/-- Two turns of a rule that are alike. -/
abbrev Stage.Turns (b : Stage η θ) {ρ : Type} (image : ρ → ρ) :
    Except Diagnostic (Step ρ η) → Except Diagnostic (Step ρ θ) → Prop :=
  b.Outcome (b.Steps image)

theorem Stage.Like.step {b : Stage η θ} {s : Session η} {t : Session θ} (h : b.Like s t)
    {ρ : Type} {image : ρ → ρ} (r : ρ) (control : Control Frame) :
    b.Turns image (.ok (r, s, control)) (.ok (image r, t, control.map b.change)) :=
  .ok ⟨rfl, h, rfl⟩

/-! ## Transition statements -/

namespace TransitionRule

variable {b : Backdrop} (r : TransitionRule) (e : Event)

/-- The image of a look at a token. -/
def Look.Image (b : Backdrop) (l l' : Look) : Prop := l' = ⟨b.transitionRule l.rule, l.again⟩

theorem connective_image (begun : Char) :
    b.Outcome (Look.Image b) (r.connective e begun)
      ((b.transitionRule r).connective (b.event e) begun) :=
  .ite (.error _) (.ite (.error _) (.ite (.ok rfl) (.ok rfl)))

theorem symbolModifier_image :
    b.Outcome (Look.Image b) (r.symbolModifier e)
      ((b.transitionRule r).symbolModifier (b.event e)) :=
  .ite (.ok rfl) (.ite (.ok rfl) (.ite (.ok rfl) (.ite (.ok rfl) (.ite (.ok rfl) (.error _)))))

theorem wordModifier_image :
    b.Outcome (Look.Image b) (r.wordModifier e)
      ((b.transitionRule r).wordModifier (b.event e)) := by
  unfold wordModifier
  iterate 9 refine .ite (.ok rfl) ?_
  simp only [show (b.event e).text = e.text from rfl]
  cases (Keyword.read? e.text : Option Interruption) with
  | some interruption => exact .ok rfl
  | none => exact .error _

theorem modifier_image :
    b.Outcome (Look.Image b) (r.modifier e) ((b.transitionRule r).modifier (b.event e)) := by
  simp only [modifier, show (b.event e).kind = e.kind from rfl]
  cases e.kind with
  | number => exact (Backdrop.number_event e).read fun x => .ok rfl
  | symbol => exact r.symbolModifier_image e
  | identifier => exact r.wordModifier_image e
  | single | double => exact .error _

theorem operator_image (parameter : String) (negated : Bool) (begun : Option Char) :
    b.Outcome (Look.Image b) (r.operator e parameter negated begun)
      ((b.transitionRule r).operator (b.event e) parameter negated begun) := by
  cases begun with
  | some c => exact .ite (.ite (.error _) (.ok rfl)) (.ite (.ite (.error _) (.ok rfl)) (.error _))
  | none =>
    exact .ite (.ite (.error _) (.ok rfl)) (.ite (.ite (.error _) (.ok rfl))
      (.ite (.ok rfl) (.ite (.ok rfl) (.ok rfl))))

theorem look_image :
    b.Outcome (Look.Image b) (r.look e) ((b.transitionRule r).look (b.event e)) := by
  unfold look
  simp only [show (b.transitionRule r).expect = r.expect from rfl]
  cases r.expect with
  | modifier begun =>
    cases begun with
    | none => exact r.modifier_image e
    | some c => exact r.connective_image e c
  | condition opening =>
    exact .ite (.ok rfl) (.ite (.ok rfl) ((Backdrop.name_event e _).read fun _ => .ok rfl))
  | negated => exact (Backdrop.name_event e _).read fun _ => .ok rfl
  | operator parameter negated begun => exact r.operator_image e parameter negated begun
  | threshold parameter mode => exact (Backdrop.number_event e).read fun _ => .ok rfl
  | waitOpen | fadeOpen => exact .ite (.ok rfl) ((Backdrop.number_event e).read fun _ => .ok rfl)
  | waitValue | fadeValue => exact (Backdrop.number_event e).read fun _ => .ok rfl
  | waitClose | fadeClose => exact .ite (.ok rfl) (.error _)
  | fadeUnit bracket => exact .ite (.ok rfl) (.ok rfl)
  | offset negative =>
    exact .ite (.ok rfl) (.ite (.ok rfl) ((Backdrop.number_event e).read fun _ => .ok rfl))
  | ordered => exact .ite (.ok rfl) (.ok rfl)
  | gotoStart => exact .ite (.ok rfl) ((Backdrop.name_event e _).read fun _ => .ok rfl)
  | gotoSegment absolute segments => exact (Backdrop.name_event e _).read fun _ => .ok rfl
  | gotoNext absolute segments => exact .ite (.ok rfl) (.ok rfl)

theorem target_image {s : Session η} {t : Session θ} {b : Stage η θ} (h : b.Like s t)
    (scope : Scope) (goto : Option Goto) :
    target t.controller (b.scope scope) goto = target s.controller scope goto := by
  rcases goto with _ | _ | _ | _
  · obtain ⟨hint, layer, machine, state, path⟩ := scope
    cases state with
    | none => rfl
    | some id =>
      have hname : (t.controller.state (b.offsets.stateId id)).name =
          (s.controller.state id).name := by
        rw [h.controller, Controller.followedBy_state]
        rfl
      simp only [target, Backdrop.scope, Option.map_some, hname]
  all_goals rfl

theorem home_image (b : Backdrop) (scope : Scope) (any : Bool) :
    home (b.scope scope) any = b.home (home scope any) := by
  obtain ⟨hint, layer, machine, state, path⟩ := scope
  cases state <;> cases any <;> rfl

theorem queued_image {s : Session η} {t : Session θ} {b : Stage η θ} (h : b.Like s t)
    (scope : Scope) (start : Span × Position) :
    (b.transitionRule r).queued t.controller (b.scope scope) (b.place start) =
      (r.queued s.controller scope start).map b.pending := by
  simp only [queued, List.map_map, target_image h, home_image]
  rfl

theorem finish_alike {s : Session η} {t : Session θ} {b : Stage η θ} (h : b.Like s t) :
    b.Turns b.transitionRule (r.finish e s) ((b.transitionRule r).finish (b.event e) t) := by
  have hstart : ((b.transitionRule r).start).getD ((b.event e).span, (b.event e).position) =
      b.place (r.start.getD (e.span, e.position)) := by
    simp only [show (b.transitionRule r).start = r.start.map b.place from rfl]
    cases r.start <;> rfl
  refine .ite (.error _) ?_
  simp only [hstart, show (b.transitionRule r).scope = r.scope.map b.scope from rfl]
  cases r.scope with
  | none => exact .error _
  | some scope =>
    refine .ok ⟨rfl, { h with pending := ?_ }, rfl⟩
    simp only [queued_image r h, h.pending, List.map_append]

theorem lookAgain_alike {s : Session η} {t : Session θ} {b : Stage η θ} (h : b.Like s t)
    (fuel : Nat) :
    b.Turns b.transitionRule (lookAgain e s fuel r)
      (lookAgain (b.event e) t fuel (b.transitionRule r)) := by
  induction fuel generalizing r with
  | zero => exact h.step r none
  | succ fuel ih =>
    refine .ite (r.finish_alike e h) ((r.look_image e).bind ?_)
    rintro l l' rfl
    exact .ite (ih l.rule) (h.step l.rule none)

theorem react_alike {s : Session η} {t : Session θ} {b : Stage η θ} (h : b.Like s t) :
    b.Turns b.transitionRule (r.react e s) ((b.transitionRule r).react (b.event e) t) := by
  have hstarted : b.transitionRule { r with start := some (r.start.getD (e.span, e.position)) } =
      { b.transitionRule r with
        start := some ((b.transitionRule r).start.getD
          ((b.event e).span, (b.event e).position)) } := by
    obtain ⟨scope, expect, modifiers, groups, bracket, any, goto, start⟩ := r
    cases start <;> rfl
  have hlook := lookAgain_alike { r with start := some (r.start.getD (e.span, e.position)) } e h
    maxLooks
  rwa [hstarted] at hlook

end TransitionRule

/-! ## Parameter declarations -/

theorem ParameterRule.declare_alike {b : Stage η θ} {s : Session η} {t : Session θ}
    (h : b.Like s t) (d : Declaration) : b.Like (declare s d) (declare t (b.declaration d)) := by
  have hadd : t.controller.addParameter? d.parameter =
      (s.controller.addParameter? d.parameter).map b.graph.followedBy := by
    have hnone : (t.controller.parameter? d.parameter.name).isSome =
        (s.controller.parameter? d.parameter.name).isSome := by rw [h.controller]; rfl
    rw [Controller.addParameter?, Controller.addParameter?, hnone, h.controller]
    split <;> rfl
  unfold declare
  simp only [show (b.declaration d).parameter = d.parameter from rfl, hadd]
  by_cases hname : d.parameter.name = ""
  · rw [if_pos hname, if_pos hname]
    exact h
  · rw [if_neg hname, if_neg hname]
    cases s.controller.addParameter? d.parameter with
    | none => exact h.warn _
    | some controller => exact { h with controller := rfl }

theorem ParameterRule.react_alike {b : Stage η θ} {s : Session η} {t : Session θ}
    (h : b.Like s t) (r : ParameterRule) (e : Event) :
    b.Turns b.parameterRule (r.react e s) ((b.parameterRule r).react (b.event e) t) := by
  cases r with
  | kind =>
    simp only [react, Backdrop.parameterRule, show (b.event e).text = e.text from rfl]
    cases (Keyword.read? e.text : Option ParameterKind) with
    | none => exact .error _
    | some k => exact h.step _ none
  | name k =>
    exact .ite (h.step _ _) ((Backdrop.name_event e _).read fun text => h.step _ none)
  | operator d =>
    exact .ite (h.step _ none) (.ite ((declare_alike h d).step _ _) (.error _))
  | value d => exact h.step (ParameterRule.stop (assign d e)) none
  | stop d => exact .ite ((declare_alike h d).step _ _) (.error _)

/-! ## Machines -/

namespace MachineRule

variable {b : Stage η θ} {s : Session η} {t : Session θ} (e : Event)

theorem declareLayer_alike (h : b.Like s t) (name : String) :
    (declareLayer (b.event e) name t).1 = b.openMachine (declareLayer e name s).1 ∧
      b.Like (declareLayer e name s).2 (declareLayer (b.event e) name t).2 := by
  have hm : t.controller.addMachine { name } =
      (b.offsets.machineId (s.controller.addMachine { name }).1,
        b.graph.followedBy (s.controller.addMachine { name }).2) := by
    rw [h.controller]
    exact b.graph.followedBy_addMachine s.controller { name }
  have hl := b.graph.followedBy_addLayer (s.controller.addMachine { name }).2
    { name, machine := (s.controller.addMachine { name }).1 }
  simp only [Offsets.layer, Option.map_none] at hl
  simp only [declareLayer, hm, hl]
  refine ⟨rfl, ?_⟩
  refine Stage.Like.persist ?_ [] (.machine _) name
  refine Stage.Like.register ?_ _ ⟨[name]⟩ (.machine _) e
  exact { h with controller := rfl, symbols := by simp [h.symbols, Backdrop.table] }

theorem declareNested_alike (h : b.Like s t) (scope : Scope) (name : String) :
    (declareNested (b.scope scope) (b.event e) name t).1 =
        b.openMachine (declareNested scope e name s).1 ∧
      b.Like (declareNested scope e name s).2
        (declareNested (b.scope scope) (b.event e) name t).2 := by
  have hm : t.controller.addMachine { name } =
      (b.offsets.machineId (s.controller.addMachine { name }).1,
        b.graph.followedBy (s.controller.addMachine { name }).2) := by
    rw [h.controller]
    exact b.graph.followedBy_addMachine s.controller { name }
  simp only [declareNested, hm]
  refine ⟨rfl, ?_⟩
  refine Stage.Like.persist ?_ scope.hint (.machine _) name
  refine Stage.Like.register ?_ scope.layer (scope.path.join name) (.machine _) e
  refine { h with controller := ?_ }
  exact Controller.followedBy_modifyMachine (fun m => by simp [Offsets.machine]) scope.machine

theorem declare_alike (h : b.Like s t) (nested : Bool) (outer : Option Scope) (name : String) :
    b.Outcome (fun x y => y.1 = b.openMachine x.1 ∧ b.Like x.2 y.2)
      (declare nested outer e name s)
      (declare nested (outer.map b.scope) (b.event e) name t) := by
  cases nested with
  | false => exact .ok (declareLayer_alike e h name)
  | true =>
    cases outer with
    | none => exact .error _
    | some scope => exact .ok (declareNested_alike e h scope name)

/-- Changes that only concern the layer itself. -/
theorem modifyLayer_alike (h : b.Like s t) (m : OpenMachine) {f : Layer → Layer}
    (hf : ∀ l, b.offsets.layer (f l) = f (b.offsets.layer l)) :
    b.Like (s.modify (·.modifyLayer m.scope.layer f))
      (t.modify (·.modifyLayer (b.openMachine m).scope.layer f)) :=
  h.modify (Controller.followedBy_modifyLayer hf m.scope.layer)

theorem layerOption_alike (h : b.Like s t) (m : OpenMachine) :
    Option.Rel (b.Steps b.machineRule) (layerOption? m e s)
      (layerOption? (b.openMachine m) (b.event e) t) := by
  have hite {c : Prop} [Decidable c] {x y : Option (Step MachineRule η)}
      {x' y' : Option (Step MachineRule θ)}
      (hx : Option.Rel (b.Steps b.machineRule) x x')
      (hy : Option.Rel (b.Steps b.machineRule) y y') :
      Option.Rel (b.Steps b.machineRule) (if c then x else y) (if c then x' else y') := by
    split
    · exact hx
    · exact hy
  have go (expect : MachineExpect) : Option.Rel (b.Steps b.machineRule)
      (some (named m expect, s, none)) (some (named (b.openMachine m) expect, t, none)) :=
    .some ⟨rfl, h, rfl⟩
  have set {f : Layer → Layer} (hf : ∀ l, b.offsets.layer (f l) = f (b.offsets.layer l)) :
      Option.Rel (b.Steps b.machineRule)
        (some (named m .stop, s.modify (·.modifyLayer m.scope.layer f), none))
        (some (named (b.openMachine m) .stop,
          t.modify (·.modifyLayer (b.openMachine m).scope.layer f), none)) :=
    .some ⟨rfl, modifyLayer_alike h m hf, rfl⟩
  simp only [layerOption?, show (b.event e).text = e.text from rfl,
    show (b.openMachine m).parent.isSome = m.parent.isSome from Option.isSome_map]
  refine hite .none (hite (go .weight) (hite (go .mask) (hite (go .sync) ?_)))
  cases (Keyword.read? e.text : Option Blending) with
  | some blending => exact set fun l => rfl
  | none => exact hite (set fun l => rfl) (hite (set fun l => rfl) .none)

theorem reactItem_alike (h : b.Like s t) (m : OpenMachine) :
    b.Turns b.machineRule (reactItem m e s) (reactItem (b.openMachine m) (b.event e) t) := by
  refine .ite (h.step _ _) (.ite (h.step _ none) ?_)
  have hoption := layerOption_alike e h m
  revert hoption
  cases layerOption? m e s <;> cases layerOption? (b.openMachine m) (b.event e) t <;>
    intro hoption <;> cases hoption
  · exact .ite (h.step _ none) (.ite (h.step _ _) (.ite (h.step _ _) (.ite (h.step _ _)
      (.ite (h.step _ _) (.error _)))))
  · exact .ok ‹_›

theorem react_alike (h : b.Like s t) (r : MachineRule) :
    b.Turns b.machineRule (r.react e s) ((b.machineRule r).react (b.event e) t) := by
  cases r with
  | unnamed nested outer =>
    refine (Backdrop.name_event e _).read fun name => (declare_alike e h nested outer name).bind ?_
    rintro ⟨m, s'⟩ ⟨m', t'⟩ ⟨rfl, h'⟩
    exact h'.step (MachineRule.named m .openBrace) none
  | named m expect =>
    cases expect with
    | openBrace => exact .ite (h.step _ none) (.error _)
    | item => exact reactItem_alike e h m
    | weight =>
      refine (Backdrop.number_event e).read fun weight =>
        .ok ⟨rfl, modifyLayer_alike h m fun l => ?_, rfl⟩
      rfl
    | mask =>
      refine (Backdrop.name_event e _).read fun reference => ?_
      obtain ⟨hmask, h'⟩ := h.resolve reference .avatarMask
      simp only [hmask]
      refine .ok ⟨rfl, modifyLayer_alike h' m fun l => ?_, rfl⟩
      rfl
    | sync =>
      refine (Backdrop.name_event e _).read fun name => ?_
      refine .ok ⟨rfl, { h with syncs := ?_ }, rfl⟩
      simp [h.syncs, Backdrop.sync, use, Backdrop.use, Backdrop.openMachine, Backdrop.scope,
        Backdrop.event]
    | default => exact (Backdrop.name_event e _).read fun name => h.step _ none
    | stop => exact .ite (h.step _ none) (.error _)

theorem close_alike (h : b.Like s t) (r : MachineRule) :
    b.Like (r.close s) ((b.machineRule r).close t) := by
  cases r with
  | unnamed => exact h
  | named m expect =>
    obtain ⟨scope, parent, default⟩ := m
    cases default with
    | none => exact h.linkScope scope.machine parent
    | some use =>
      exact (h.linkDefault scope.machine scope.layer scope.path use).linkScope scope.machine parent

end MachineRule

/-! ## States -/

namespace StateRule

variable {b : Stage η θ} {s : Session η} {t : Session θ} (e : Event)

theorem declare_alike (h : b.Like s t) (outer : Option Scope) (name : String) :
    b.Outcome (fun x y => y.1 = b.stateRule x.1 ∧ b.Like x.2 y.2) (declare outer e name s)
      (declare (outer.map b.scope) (b.event e) name t) := by
  cases outer with
  | none => exact .error _
  | some scope =>
    have hs : t.controller.addState { name } =
        (b.offsets.stateId (s.controller.addState { name }).1,
          b.graph.followedBy (s.controller.addState { name }).2) := by
      rw [h.controller]
      exact b.graph.followedBy_addState s.controller { name }
    simp only [declare, Option.map_some, hs]
    refine .ok ⟨rfl, ?_⟩
    refine Stage.Like.persist ?_ scope.hint (.state _) name
    refine Stage.Like.register ?_ scope.layer (scope.path.join name) (.state _) e
    refine { h with controller := ?_ }
    exact Controller.followedBy_modifyMachine (fun m => by simp [Offsets.machine]) scope.machine

theorem binding_image (b : Backdrop) : b.Outcome Eq (binding e) (binding (b.event e)) :=
  .ite ((Backdrop.number_event e).map fun _ _ h => h ▸ rfl)
    ((Backdrop.name_event e _).map fun _ _ h => h ▸ rfl)

/-- Changes that only concern the state itself. -/
theorem modifyState_alike (h : b.Like s t) (id : StateId) {f : State → State}
    (hf : ∀ x, b.offsets.state (f x) = f (b.offsets.state x)) :
    b.Like (s.modify (·.modifyState id f)) (t.modify (·.modifyState (b.offsets.stateId id) f)) :=
  h.modify (Controller.followedBy_modifyState hf id)

theorem reactItem_alike (h : b.Like s t) (scope : Scope) (id : StateId) :
    b.Turns b.stateRule (reactItem scope id e s)
      (reactItem (b.scope scope) (b.offsets.stateId id) (b.event e) t) := by
  have set {f : State → State} (hf : ∀ x, b.offsets.state (f x) = f (b.offsets.state x)) :
      b.Turns b.stateRule (.ok (named scope id .stop, s.modify (·.modifyState id f), none))
        (.ok (named (b.scope scope) (b.offsets.stateId id) .stop,
          t.modify (·.modifyState (b.offsets.stateId id) f), none)) :=
    .ok ⟨rfl, modifyState_alike h id hf, rfl⟩
  refine .ite (h.step _ _) ?_
  iterate 6 refine .ite (h.step _ none) ?_
  refine .ite (set fun x => rfl) (.ite (set fun x => rfl) (.ite (set fun x => rfl) ?_))
  exact .ite (h.step _ _) (.ite (h.step _ _) (.ite (h.step _ _) (.error _)))

theorem react_alike (h : b.Like s t) (r : StateRule) :
    b.Turns b.stateRule (r.react e s) ((b.stateRule r).react (b.event e) t) := by
  cases r with
  | unnamed outer =>
    refine (Backdrop.name_event e _).read fun name => (declare_alike e h outer name).bind ?_
    rintro ⟨r, s'⟩ ⟨r', t'⟩ ⟨rfl, h'⟩
    exact h'.step r none
  | named scope id expect =>
    cases expect with
    | openBrace => exact .ite (h.step _ none) (.error _)
    | item => exact reactItem_alike e h scope id
    | speed | cycleOffset =>
      refine (binding_image e _).read fun x => .ok ⟨rfl, modifyState_alike h id fun l => ?_, rfl⟩
      rfl
    | time | tag =>
      refine (Backdrop.name_event e _).read fun x =>
        .ok ⟨rfl, modifyState_alike h id fun l => ?_, rfl⟩
      rfl
    | mirror =>
      refine .ite (.ok ⟨rfl, modifyState_alike h id fun l => ?_, rfl⟩)
        ((Backdrop.name_event e _).read fun x => .ok ⟨rfl, modifyState_alike h id fun l => ?_, rfl⟩)
      all_goals rfl
    | stop => exact .ite (h.step _ none) (.error _)

end StateRule

/-! ## Records -/

namespace Backdrop

variable (b : Backdrop) (e : Event)

theorem scalar_event (kind : FieldKind) : scalar? (b.event e) kind = scalar? e kind := by
  cases kind <;> rfl

end Backdrop

namespace RecordRule

variable {b : Stage η θ} {s : Session η} {t : Session θ} (e : Event)

theorem attach_alike (h : b.Like s t) (scope : Scope) (record : Record) :
    (attach t (b.scope scope) record).1 = b.offsets.recordId (attach s scope record).1 ∧
      b.Like (attach s scope record).2 (attach t (b.scope scope) record).2 := by
  have hr := b.graph.followedBy_addRecord s.controller record
  rw [← h.controller] at hr
  obtain ⟨hint, layer, machine, state, path⟩ := scope
  simp only [attach, hr, true_and]
  refine Stage.Like.persist ?_ hint (.record _) _
  refine { h with controller := ?_ }
  cases state with
  | none => exact Controller.followedBy_modifyMachine (fun m => by simp [Offsets.machine]) machine
  | some id => exact Controller.followedBy_modifyState (fun m => by simp [Offsets.state]) id

theorem openBody_alike (h : b.Like s t) (outer : Option Scope) (name : String) :
    b.Turns b.recordRule (openBody outer name e s)
      (openBody (outer.map b.scope) name (b.event e) t) := by
  simp only [openBody, ← b.schema h.agree]
  cases Host.schema? s.host name with
  | none => exact .error _
  | some schema =>
    cases outer with
    | none => exact .error _
    | some scope =>
      obtain ⟨hid, h'⟩ := attach_alike h scope (.new name schema)
      refine .ok ⟨?_, h', rfl⟩
      simp only [hid]
      rfl

end RecordRule

namespace OpenRecord

variable {b : Stage η θ} {s : Session η} {t : Session θ} (r : OpenRecord) (e : Event)

/-- Two steps in a body that are alike. -/
structure Alike (b : Stage η θ) (x : BodyStep η) (y : BodyStep θ) : Prop where
  record : y.1 = b.openRecord x.1
  expect : y.2.1 = x.2.1
  session : b.Like x.2.2 y.2.2

theorem modifyValue_alike (h : b.Like s t) (f : Value → Value) :
    b.Like (r.modifyValue s f) ((b.openRecord r).modifyValue t f) :=
  h.modify (Controller.followedBy_modifyRecord r.id)

theorem pushItem_alike (h : b.Like s t) (element : FieldKind) :
    ((b.openRecord r).pushItem t element).1 = b.openRecord (r.pushItem s element).1 ∧
      b.Like (r.pushItem s element).2 ((b.openRecord r).pushItem t element).2 := by
  have hrecord : t.controller.record (b.openRecord r).id = s.controller.record r.id := by
    rw [h.controller]
    exact b.graph.followedBy_record s.controller r.id
  simp only [pushItem, hrecord, show (b.openRecord r).path = r.path from rfl]
  cases (s.controller.record r.id).fields.at? r.path with
  | none => exact ⟨rfl, h⟩
  | some value =>
    cases value with
    | array items => exact ⟨rfl, r.modifyValue_alike h _⟩
    | _ => exact ⟨rfl, h⟩

theorem reactField_alike (h : b.Like s t) :
    b.Outcome (Alike b) (r.reactField e s) ((b.openRecord r).reactField (b.event e) t) := by
  refine .ite (.ok ⟨rfl, rfl, h⟩) ((Backdrop.name_event e _).read fun name => ?_)
  simp only [show (b.openRecord r).fields? = r.fields? from rfl]
  cases r.fields?.bind (Schema.field? · name) with
  | none => exact .error _
  | some field =>
    obtain ⟨index, kind⟩ := field
    cases kind with
    | mask names =>
      exact .ok ⟨rfl, rfl, modifyValue_alike { r with path := r.path ++ [index] } h _⟩
    | _ => exact .ok ⟨rfl, rfl, h⟩

theorem reactObject_alike (h : b.Like s t) :
    b.Outcome (Alike b) (r.reactObject e s) ((b.openRecord r).reactObject (b.event e) t) := by
  simp only [reactObject, show (b.event e).name? = e.name? from rfl]
  cases e.name? with
  | none => exact .error _
  | some reference =>
    refine .ite (.ok ⟨rfl, rfl, r.modifyValue_alike h _⟩) ?_
    obtain ⟨hasset, h'⟩ := h.resolve reference .object
    revert hasset h'
    rcases s.resolve reference .object with ⟨asset, s'⟩
    rcases t.resolve reference .object with ⟨asset', t'⟩
    rintro rfl h'
    cases asset' with
    | some asset => exact .ok ⟨rfl, rfl, r.modifyValue_alike h' _⟩
    | none => exact .ok ⟨rfl, rfl, h'⟩

theorem reactValue_alike (h : b.Like s t) :
    b.Outcome (Alike b) (r.reactValue e s) ((b.openRecord r).reactValue (b.event e) t) := by
  simp only [reactValue, show (b.openRecord r).kind? = r.kind? from rfl]
  cases r.kind? with
  | none => exact .error _
  | some kind =>
    refine .ite (.ok ⟨rfl, rfl, r.pop.modifyValue_alike h _⟩) ?_
    have hvalue (value : Value) := r.modifyValue_alike h fun _ => value
    simp only [b.scalar_event]
    generalize scalar? e kind = scalar
    cases kind with
    | record fields =>
      refine .ite (.ok ⟨rfl, rfl, h⟩) ?_
      cases scalar with
      | none => exact .error _
      | some value => exact .ok ⟨rfl, rfl, hvalue value⟩
    | array element =>
      obtain ⟨hrecord, h'⟩ := r.pushItem_alike h element
      refine .ite (.ok ⟨hrecord, rfl, h'⟩) ?_
      cases scalar with
      | none => exact .error _
      | some value => exact .ok ⟨rfl, rfl, hvalue value⟩
    | mask names =>
      simp only [show maskBits? (b.event e) names = maskBits? e names from rfl]
      cases maskBits? e names with
      | some bits => exact .ok ⟨rfl, rfl, r.modifyValue_alike h _⟩
      | none => exact .error _
    | object => exact r.reactObject_alike e h
    | _ =>
      cases scalar with
      | none => exact .error _
      | some value => exact .ok ⟨rfl, rfl, hvalue value⟩

theorem reactAfterValue_alike (h : b.Like s t) :
    b.Outcome (Alike b) (r.reactAfterValue e s)
      ((b.openRecord r).reactAfterValue (b.event e) t) := by
  refine .ite (.ok ⟨rfl, rfl, h⟩) (.ite (.error _) ?_)
  simp only [show (b.openRecord r).pop = b.openRecord r.pop from rfl,
    show (b.openRecord r.pop).kind? = r.pop.kind? from rfl]
  split
  · obtain ⟨hrecord, h'⟩ := r.pop.pushItem_alike h _
    exact .ok ⟨hrecord, rfl, h'⟩
  · exact .ok ⟨rfl, rfl, h⟩

end OpenRecord

theorem RecordRule.react_alike {b : Stage η θ} {s : Session η} {t : Session θ} (h : b.Like s t)
    (r : RecordRule) (e : Event) :
    b.Turns b.recordRule (r.react e s) ((b.recordRule r).react (b.event e) t) := by
  have hbody {x : Except Diagnostic (OpenRecord.BodyStep η)}
      {y : Except Diagnostic (OpenRecord.BodyStep θ)} (hxy : b.Outcome (OpenRecord.Alike b) x y) :
      b.Turns b.recordRule (x.map fun step => (body step.1 step.2.1, step.2.2, none))
        (y.map fun step => (body step.1 step.2.1, step.2.2, none)) := by
    refine hxy.map ?_
    rintro ⟨r, expect, s⟩ ⟨r', expect', t⟩ ⟨hr, hexpect, h⟩
    obtain rfl : r' = b.openRecord r := hr
    obtain rfl : expect' = expect := hexpect
    exact ⟨rfl, h, rfl⟩
  cases r with
  | typeName outer mode text =>
    refine .ite (openBody_alike e h outer text) ?_
    simp only [show extendTypeName mode text (b.event e) = extendTypeName mode text e from rfl]
    cases extendTypeName mode text e with
    | none => exact .error _
    | some name => exact h.step _ none
  | body r expect =>
    cases expect with
    | field => exact hbody (r.reactField_alike e h)
    | operator => exact .ite (h.step _ none) (.error _)
    | value => exact hbody (r.reactValue_alike e h)
    | afterValue => exact hbody (r.reactAfterValue_alike e h)
    | stop => exact .ite (h.step _ _) (.error _)

/-! ## Motions -/

namespace MotionRule

variable {b : Stage η θ} {s : Session η} {t : Session θ} (r : MotionRule) (e : Event)

theorem modifyTree_alike (h : b.Like s t) {f : BlendTree → BlendTree}
    (hf : ∀ x, b.offsets.tree (f x) = f (b.offsets.tree x)) :
    b.Like (r.modifyTree s f) ((b.motionRule r).modifyTree t f) := by
  simp only [modifyTree, show (b.motionRule r).motion = r.motion.map b.offsets.motionId from rfl]
  cases r.motion with
  | none => exact h
  | some id =>
    refine h.modify (Controller.followedBy_modifyMotion (fun m => ?_) id)
    cases m with
    | clip asset => rfl
    | tree x => exact congrArg Motion.tree (hf x)

theorem place_alike (h : b.Like s t) :
    b.Like (s.modify r.place) (t.modify (b.motionRule r).place) := by
  refine h.modify ?_
  obtain ⟨slot, scope, expect, motion, closedTree, speed, offset, mirror⟩ := r
  cases slot with
  | root => rfl
  | state id =>
    refine Controller.followedBy_modifyState (fun x => ?_) id
    rfl
  | child tree key =>
    refine Controller.followedBy_modifyMotion (fun m => ?_) tree
    cases m with
    | clip asset => rfl
    | tree x =>
      refine congrArg Motion.tree ?_
      cases key <;> simp [Offsets.tree, slotOf, Offsets.slot, Backdrop.motionRule]

theorem onAttach_image (b : Backdrop) (outer : Option Scope) :
    ((b.motionRule r).onAttach (outer.map b.scope)).1 = b.motionRule (r.onAttach outer).1 ∧
      b.Outcome Eq (r.onAttach outer).2 ((b.motionRule r).onAttach (outer.map b.scope)).2 := by
  obtain ⟨slot, scope, expect, motion, closedTree, speed, offset, mirror⟩ := r
  cases slot with
  | root =>
    rcases outer with _ | ⟨hint, layer, machine, _ | state, path⟩
    · exact ⟨rfl, .error _⟩
    · exact ⟨rfl, .error _⟩
    · exact ⟨rfl, .ok rfl⟩
  | state id | child tree key => exact ⟨rfl, .ok rfl⟩

theorem clip_alike (h : b.Like s t) (reference : String) :
    ((b.motionRule r).clip t reference).1 = b.motionRule (r.clip s reference).1 ∧
      b.Like (r.clip s reference).2 ((b.motionRule r).clip t reference).2 := by
  obtain ⟨hasset, h'⟩ := h.resolve reference .animationClip
  unfold clip
  revert hasset h'
  rcases s.resolve reference .animationClip with ⟨asset, s'⟩
  rcases t.resolve reference .animationClip with ⟨asset', t'⟩
  rintro rfl h'
  cases asset' with
  | none => exact ⟨rfl, h'⟩
  | some asset =>
    have hm := b.graph.followedBy_addMotion s'.controller (.clip asset)
    rw [← h'.controller] at hm
    simp only [show b.graph.offsets.motion (.clip asset) = .clip asset from rfl] at hm
    simp only [hm]
    exact ⟨rfl, { h' with controller := rfl }⟩

theorem openTree_alike (h : b.Like s t) (name : String) :
    ((b.motionRule r).openTree t name).1 = b.motionRule (r.openTree s name).1 ∧
      b.Like (r.openTree s name).2 ((b.motionRule r).openTree t name).2 := by
  have hm := b.graph.followedBy_addMotion s.controller (.tree { name })
  rw [← h.controller] at hm
  simp only [show b.graph.offsets.motion (.tree { name }) = .tree { name } from rfl] at hm
  have hhint : ((b.motionRule r).scope.map (·.hint)).getD [] = (r.scope.map (·.hint)).getD [] := by
    simp only [Backdrop.motionRule]
    cases r.scope <;> rfl
  have hscope : (b.motionRule r).scope.map (fun x => { x with hint := x.hint ++ [name] }) =
      (r.scope.map fun x => { x with hint := x.hint ++ [name] }).map b.scope := by
    simp only [Backdrop.motionRule]
    cases r.scope <;> rfl
  simp only [openTree, hm, hhint, hscope]
  refine ⟨rfl, Stage.Like.persist ?_ _ (.motion _) name⟩
  exact { h with controller := rfl }

/-- The image of a motion that goes on without the session. -/
def Image (b : Backdrop) (r r' : MotionRule) : Prop := r' = b.motionRule r

theorem reactStart_image (b : Backdrop) :
    b.Outcome (Image b) (r.reactStart e) ((b.motionRule r).reactStart (b.event e)) := by
  have hchild : (b.motionRule r).isChild = r.isChild := by
    simp only [isChild, Backdrop.motionRule]
    cases r.slot <;> rfl
  simp only [reactStart, hchild]
  exact .ite (.ok rfl) (.ite (.ok rfl) (.ite (.ok rfl) (.error _)))

theorem reactAfterType_image (b : Backdrop) :
    b.Outcome (Image b) (r.reactAfterType e) ((b.motionRule r).reactAfterType (b.event e)) :=
  .ite (.ok rfl) (.ite (.ok rfl) (.ite (.ok rfl) (.error _)))

theorem reactKey_image (b : Backdrop) :
    b.Outcome (Image b) (r.reactKey e) ((b.motionRule r).reactKey (b.event e)) :=
  .ite (.ok rfl) (.ite (.ok rfl) (.ite ((Backdrop.number_event e).read fun _ => .ok rfl)
    ((Backdrop.name_event e _).read fun _ => .ok rfl)))

theorem expectSymbol_image (b : Backdrop) (symbol : Char) (expected : String)
    (next : MotionExpect) :
    b.Outcome (Image b) (r.expectSymbol e symbol expected next)
      ((b.motionRule r).expectSymbol (b.event e) symbol expected next) :=
  .ite (.ok rfl) (.error _)

theorem blendType_image (b : Backdrop) :
    b.Outcome Eq (blendType e) (blendType (b.event e)) := by
  simp only [blendType, show (b.event e).text = e.text from rfl]
  cases (Keyword.read e.text : Except String BlendType) with
  | ok blendType => exact .ok rfl
  | error message => exact .error _

theorem reactModifier_image (b : Backdrop) :
    b.Outcome (fun x y => y = (b.motionRule x.1, x.2.map b.change)) (r.reactModifier e)
      ((b.motionRule r).reactModifier (b.event e)) :=
  .ite (.ok rfl) (.ite (.ok rfl) (.ite (.ok rfl) (.ite (.ok rfl) (.ite (.ok rfl)
    (.ite ((Backdrop.number_event e).read fun _ => .ok rfl) (.ite (.ok rfl)
      (.ite (.ok rfl) (.error _))))))))

theorem react_alike (h : b.Like s t) :
    b.Turns b.motionRule (r.react e s) ((b.motionRule r).react (b.event e) t) := by
  have plain {x y : Except Diagnostic MotionRule} (hxy : b.Outcome (Image b.toBackdrop) x y) :
      b.Turns b.motionRule (x.map (·, s, none)) (y.map (·, t, none)) :=
    hxy.map fun r r' hr => ⟨hr, h, rfl⟩
  unfold react
  simp only [show (b.motionRule r).expect = r.expect from rfl]
  cases r.expect with
  | start => exact plain (r.reactStart_image e _)
  | clipReference =>
    refine (Backdrop.name_event e _).read fun reference => ?_
    obtain ⟨hr, h'⟩ := r.clip_alike h reference
    exact .ok ⟨hr, h', rfl⟩
  | treeName =>
    refine (Backdrop.name_event e _).read fun name => ?_
    obtain ⟨hr, h'⟩ := r.openTree_alike h name
    exact .ok ⟨hr, h', rfl⟩
  | treeType =>
    refine (blendType_image e _).read fun x => .ok ⟨rfl, r.modifyTree_alike h fun x => ?_, rfl⟩
    rfl
  | afterType => exact plain (r.reactAfterType_image e _)
  | firstParameter | secondParameter =>
    refine (Backdrop.name_event e _).read fun x =>
      .ok ⟨rfl, r.modifyTree_alike h fun x => ?_, rfl⟩
    rfl
  | parameterNext first => exact .ite (h.step _ none) (plain (r.expectSymbol_image e _ _ _ _))
  | thresholdMin | thresholdMax =>
    refine (Backdrop.number_event e).read fun x =>
      .ok ⟨rfl, r.modifyTree_alike h fun x => ?_, rfl⟩
    rfl
  | thresholdOpen | thresholdComma | thresholdClose | keyComma | keyClose =>
    exact plain (r.expectSymbol_image e _ _ _ _)
  | key => exact plain (r.reactKey_image e _)
  | keyX => exact (Backdrop.number_event e).read fun x => h.step _ none
  | keyY x => exact (Backdrop.number_event e).read fun x => h.step _ none
  | colon key =>
    refine .ite (.error _) ?_
    simp only [show (b.motionRule r).motion = r.motion.map b.offsets.motionId from rfl]
    cases r.motion with
    | none => exact .error _
    | some tree => exact h.step _ _
  | modifier =>
    refine (r.reactModifier_image e _).map ?_
    rintro ⟨r, control⟩ _ rfl
    exact ⟨rfl, h, rfl⟩
  | speed => exact (Backdrop.number_event e).read fun x => h.step _ none
  | offset negative =>
    exact .ite (h.step _ none) (.ite (h.step _ none)
      ((Backdrop.number_event e).read fun x => h.step _ none))

end MotionRule

/-! ## The stack -/

/-- Two answers that are alike. -/
structure Stage.Answers (b : Stage η θ) {ρ α : Type} (image : ρ → ρ) (value : α → α)
    (x : Answer ρ (Session η) α) (y : Answer ρ (Session θ) α) : Prop where
  subject : y.subject = image x.subject
  session : b.Like x.session y.session
  result : b.Outcome (fun a a' => a' = value a) x.result y.result

namespace Frame

variable {b : Stage η θ} {s : Session η} {t : Session θ} (f : Frame) (e : Event)

theorem context_image (b : Backdrop) : (b.frame f).context = f.context.map b.scope := by
  rcases f with _ | _ | (_ | _) | (_ | _) | _ | _ | _ <;> rfl

theorem onAttach_alike (h : b.Like s t) (hf : f ≠ .document) (outer : Option Scope) :
    b.Answers b.frame id (f.onAttach outer s) ((b.frame f).onAttach (outer.map b.scope) t) := by
  cases f with
  | document => exact absurd rfl hf
  | parameter r => exact ⟨rfl, h, .ok rfl⟩
  | machine r => cases r <;> exact ⟨rfl, h, .ok rfl⟩
  | state r => cases r <;> exact ⟨rfl, h, .ok rfl⟩
  | transition r => exact ⟨rfl, h, .ok rfl⟩
  | motion r =>
    obtain ⟨hr, hresult⟩ := r.onAttach_image b.toBackdrop outer
    exact ⟨congrArg Frame.motion hr, h, hresult⟩
  | record r => cases r <;> exact ⟨rfl, h, .ok rfl⟩

theorem lift_alike {ρ : Type} {image : ρ → ρ} {wrap : ρ → Frame}
    {x : Except Diagnostic (Step ρ η)} {y : Except Diagnostic (Step ρ θ)}
    (h : b.Turns image x y) (hwrap : ∀ r, b.frame (wrap r) = wrap (image r)) :
    b.Turns b.frame (lift wrap x) (lift wrap y) := by
  refine h.map ?_
  rintro ⟨r, s, control⟩ ⟨r', t, control'⟩ ⟨hr, h, hcontrol⟩
  obtain rfl : r' = image r := hr
  exact ⟨(hwrap r).symm, h, hcontrol⟩

theorem react_alike (h : b.Like s t) :
    b.Turns b.frame (f.react e s) ((b.frame f).react (b.event e) t) := by
  cases f with
  | document => exact .ite (h.step _ _) (.ite (h.step _ _) (.error _))
  | parameter r => exact lift_alike (r.react_alike h e) fun _ => rfl
  | machine r => exact lift_alike (r.react_alike e h) fun _ => rfl
  | state r => exact lift_alike (r.react_alike e h) fun _ => rfl
  | transition r => exact lift_alike (r.react_alike e h) fun _ => rfl
  | motion r => exact lift_alike (r.react_alike e h) fun _ => rfl
  | record r => exact lift_alike (r.react_alike h e) fun _ => rfl

theorem onToken_alike (h : b.Like s t) :
    b.Answers b.frame (Option.map b.change) (f.onToken e s)
      ((b.frame f).onToken (b.event e) t) := by
  unfold onToken
  have hreact := f.react_alike e h
  generalize f.react e s = x at hreact ⊢
  generalize (b.frame f).react (b.event e) t = y at hreact ⊢
  cases hreact with
  | ok hstep => exact ⟨hstep.rule, hstep.session, .ok hstep.control⟩
  | error d => exact ⟨rfl, h, .error d⟩

theorem close_alike (h : b.Like s t)
    (hf : f = .document → b.graph.layers = #[] ∨ s.syncs = []) :
    b.Like (f.close s) ((b.frame f).close t) := by
  cases f with
  | document => exact h.linkSyncs (hf rfl)
  | machine r => exact r.close_alike h
  | motion r => exact r.place_alike h
  | _ => exact h

end Frame

end MotionScript
