import MotionScript.Proofs.Shape.Turn
/-!
# Failures of rules

A rule on a stack of the right shape fails only because of the token it is given: no failure tells
of a fault of the rules themselves.
-/

namespace MotionScript

/-- Whether a diagnostic tells of a fault of the rules: a wrong change of the stack, or a rule outside
of the block it belongs to. -/
def Diagnostic.Internal (d : Diagnostic) : Prop :=
  d.code = some .invalidStackChange ∨ " is not allowed here".toList <:+ d.message.toList ∨
    d.message = "a motion must belong to a state"

instance (d : Diagnostic) : Decidable d.Internal := inferInstanceAs (Decidable (_ ∨ _ ∨ _))

/-- A diagnostic about a token: its one label is there, and it quotes a text at the end of its
message. -/
structure Diagnostic.At (d : Diagnostic) (e : Event) : Prop where
  code : ∃ code, d.code = some code ∧ code ≠ .invalidStackChange
  label : ∃ message, d.labels = [⟨e.span, message⟩]
  position : d.position = some e.position
  message : ∃ text, d.message = text ++ "`"

theorem Diagnostic.At.not_internal {d : Diagnostic} {e : Event} (h : d.At e) : ¬ d.Internal := by
  obtain ⟨⟨code, hcode, hne⟩, -, -, text, hmessage⟩ := h
  have hlast : d.message.toList.getLast? = some '`' := by simp [hmessage]
  rintro (hc | ⟨before, hm⟩ | hm)
  · rw [hcode] at hc
    exact hne (Option.some.inj hc)
  · rw [← hm, List.getLast?_append] at hlast
    cases hlast
  · rw [hm] at hlast
    cases hlast

/-- Whether a computation fails only with a diagnostic about a token. -/
def FailsAt {α : Type} (e : Event) (x : Except Diagnostic α) : Prop := ∀ d, x = .error d → d.At e

namespace FailsAt

variable {α β : Type} {e : Event}

theorem ok (a : α) : FailsAt e (.ok a) := by
  rintro d ⟨⟩

theorem error {d : Diagnostic} (h : d.At e) : FailsAt e (.error d : Except Diagnostic α) := by
  rintro _ ⟨⟩
  exact h

theorem bind {x : Except Diagnostic α} {f : α → Except Diagnostic β} (hx : FailsAt e x)
    (hf : ∀ a, FailsAt e (f a)) : FailsAt e (x >>= f) := by
  intro d h
  cases x with
  | error d' => cases h; exact hx _ rfl
  | ok a => exact hf a d h

theorem map {x : Except Diagnostic α} (f : α → β) (hx : FailsAt e x) : FailsAt e (x.map f) := by
  intro d h
  cases x with
  | error d' => cases h; exact hx _ rfl
  | ok a => cases h

theorem ite {x y : Except Diagnostic α} {p : Prop} [Decidable p] (hx : FailsAt e x)
    (hy : FailsAt e y) : FailsAt e (if p then x else y) := by
  split
  · exact hx
  · exact hy

theorem unexpected (e : Event) (expected : String) :
    FailsAt e (.error (e.unexpected expected) : Except Diagnostic α) :=
  error ⟨⟨_, rfl, by simp⟩, ⟨_, rfl⟩, rfl, _, rfl⟩

theorem name (e : Event) (expected : String) : FailsAt e (e.name expected) := by
  unfold Event.name
  split
  · exact .ok _
  · exact .unexpected _ _

theorem number (e : Event) : FailsAt e e.number := by
  unfold Event.number
  split
  · exact .ok _
  · exact .unexpected _ _

theorem invalidValue (e : Event) (expected : String) :
    FailsAt e (.error (e.invalidValue expected) : Except Diagnostic α) :=
  error ⟨⟨_, rfl, by simp⟩, ⟨_, rfl⟩, rfl, _, rfl⟩

end FailsAt

variable {η : Type} [Host η]

/-! ## Statements and declarations -/

theorem ParameterRule.failsAt (e : Event) (s : Session η) (r : ParameterRule) :
    FailsAt e (r.react e s) := by
  unfold react
  split
  · split
    · exact .ok _
    · exact .unexpected _ _
  · exact .ite (.ok _) (.bind (.name _ _) fun _ => .ok _)
  · exact .ite (.ok _) (.ite (.ok _) (.unexpected _ _))
  · exact .ok _
  · exact .ite (.ok _) (.unexpected _ _)

namespace TransitionRule

theorem connective_failsAt (r : TransitionRule) (e : Event) (begun : Char) :
    FailsAt e (r.connective e begun) :=
  .ite (.unexpected _ _) (.ite (.unexpected _ _) (.ite (.ok _) (.ok _)))

theorem modifier_failsAt (r : TransitionRule) (e : Event) : FailsAt e (r.modifier e) := by
  unfold modifier
  split
  · exact .bind (.number e) fun _ => .ok _
  · unfold symbolModifier
    repeat' first | exact .ok _ | exact .unexpected _ _ | apply FailsAt.ite
  · unfold wordModifier
    repeat' first | exact .ok _ | exact .unexpected _ _ | apply FailsAt.ite
    split
    · exact .ok _
    · exact .unexpected _ _
  · exact .unexpected _ _
  · exact .unexpected _ _

theorem operator_failsAt (r : TransitionRule) (e : Event) (parameter : String)
    (negated : Bool) (begun : Option Char) :
    FailsAt e (r.operator e parameter negated begun) := by
  unfold operator
  extract_lets compare
  have hcompare (mode : ConditionMode) : FailsAt e (compare mode) :=
    .ite (.unexpected _ _) (.ok _)
  cases begun with
  | some c => exact .ite (hcompare _) (.ite (hcompare _) (.unexpected _ _))
  | none => exact .ite (hcompare _) (.ite (hcompare _) (.ite (.ok _) (.ite (.ok _) (.ok _))))

theorem look_failsAt (r : TransitionRule) (e : Event) : FailsAt e (r.look e) := by
  unfold look
  split
  case h_1 => exact modifier_failsAt r e
  case h_2 => exact connective_failsAt r e _
  case h_5 => exact operator_failsAt r e _ _ _
  all_goals
    repeat' first
      | exact .ok _
      | exact .unexpected _ _
      | exact .bind (.name _ _) fun _ => .ok _
      | exact .bind (.number _) fun _ => .ok _
      | apply FailsAt.ite

omit [Host η] in
/-- A statement that has a scope is never out of place. -/
theorem lookAgain_failsAt (e : Event) (s : Session η) (fuel : Nat) {r : TransitionRule}
    {scope : Scope} (hs : r.scope = some scope) : FailsAt e (lookAgain e s fuel r) := by
  induction fuel generalizing r with
  | zero => exact .ok _
  | succ fuel ih =>
    unfold lookAgain
    refine .ite ?_ ?_
    · unfold finish
      rw [hs]
      exact .ite (.unexpected _ _) (.ok _)
    · intro d h
      cases hl : r.look e with
      | error d' =>
        rw [hl] at h
        cases h
        exact look_failsAt r e _ hl
      | ok l =>
        rw [hl] at h
        exact FailsAt.ite (ih ((look_keeps hl).1.trans hs)) (.ok _) d h

omit [Host η] in
theorem react_failsAt (e : Event) (s : Session η) {r : TransitionRule} {scope : Scope}
    (hs : r.scope = some scope) : FailsAt e (r.react e s) :=
  lookAgain_failsAt e s maxLooks hs

end TransitionRule

/-! ## Motions -/

namespace MotionRule

theorem blendType_failsAt (e : Event) : FailsAt e (blendType e) := by
  unfold blendType
  cases ht : (Keyword.read e.text : Except String BlendType) with
  | ok t => exact .ok _
  | error message =>
    refine .error ⟨⟨_, rfl, by simp⟩, ⟨_, rfl⟩, rfl, ?_⟩
    unfold Keyword.read at ht
    split at ht
    · cases ht
    · cases ht
      exact ⟨_, rfl⟩

theorem expectSymbol_failsAt (r : MotionRule) (e : Event) (symbol : Char) (expected : String)
    (next : MotionExpect) : FailsAt e (r.expectSymbol e symbol expected next) :=
  .ite (.ok _) (.unexpected _ _)

theorem reactModifier_failsAt (r : MotionRule) (e : Event) :
    FailsAt e (r.reactModifier e) := by
  unfold reactModifier
  repeat' first
    | exact .ok _
    | exact .unexpected _ _
    | exact .bind (.number _) fun _ => .ok _
    | apply FailsAt.ite

theorem reactKey_failsAt (r : MotionRule) (e : Event) : FailsAt e (r.reactKey e) :=
  .ite (.ok _) (.ite (.ok _)
    (.ite (.bind (.number _) fun _ => .ok _) (.bind (.name _ _) fun _ => .ok _)))

/-- A motion is never out of place if it is a blend tree whenever it is at a child. -/
theorem react_failsAt (e : Event) (s : Session η) {r : MotionRule}
    (ht : r.expect.inTree → r.motion.isSome) : FailsAt e (r.react e s) := by
  unfold react
  cases hx : r.expect <;> simp only
  case start | afterType =>
    all_goals exact .map _ (.ite (.ok _) (.ite (.ok _) (.ite (.ok _) (.unexpected _ _))))
  case treeType => exact .bind (blendType_failsAt e) fun _ => .ok _
  case parameterNext first => exact .ite (.ok _) (.map _ (expectSymbol_failsAt _ _ _ _ _))
  case key => exact .map _ (reactKey_failsAt r e)
  case modifier => exact .map _ (reactModifier_failsAt r e)
  case thresholdOpen | thresholdComma | thresholdClose | keyComma | keyClose =>
    all_goals exact .map _ (expectSymbol_failsAt _ _ _ _ _)
  case colon key =>
    obtain ⟨tree, hm⟩ := Option.isSome_iff_exists.1 (ht (by rw [hx]; rfl))
    rw [hm]
    exact .ite (.unexpected _ _) (.ok _)
  case offset negative => exact .ite (.ok _) (.ite (.ok _) (.bind (.number _) fun _ => .ok _))
  case thresholdMin | thresholdMax | keyX | keyY | speed =>
    all_goals exact .bind (.number _) fun _ => .ok _
  all_goals exact .bind (.name _ _) fun _ => .ok _

end MotionRule

/-! ## Records -/

namespace OpenRecord

omit [Host η] in
theorem reactField_failsAt (r : OpenRecord) (e : Event) (s : Session η) :
    FailsAt e (r.reactField e s) := by
  refine .ite (.ok _) (.bind (.name _ _) fun name => ?_)
  split
  · exact .error ⟨⟨_, rfl, by simp⟩, ⟨_, rfl⟩, rfl, _, rfl⟩
  · split <;> exact .ok _

theorem reactObject_failsAt (r : OpenRecord) (e : Event) (s : Session η) :
    FailsAt e (r.reactObject e s) := by
  unfold reactObject
  split
  · exact .invalidValue _ _
  · refine .ite (.ok _) ?_
    split <;> exact .ok _

theorem reactValue_failsAt (r : OpenRecord) (e : Event) (s : Session η) :
    FailsAt e (r.reactValue e s) := by
  unfold reactValue
  split
  · exact .unexpected _ _
  rename_i kind hkind
  refine .ite (.ok _) ?_
  extract_lets scalar
  have hscalar : FailsAt e scalar := by
    unfold scalar
    split
    · exact .ok _
    · exact .invalidValue _ _
  cases kind with
  | record fields => exact .ite (.ok _) hscalar
  | array element => exact .ite (.ok _) hscalar
  | mask names =>
    simp only
    split
    · exact .ok _
    · exact .invalidValue _ _
  | object => exact reactObject_failsAt r e s
  | _ => exact hscalar

omit [Host η] in
theorem reactAfterValue_failsAt (r : OpenRecord) (e : Event) (s : Session η) :
    FailsAt e (r.reactAfterValue e s) := by
  unfold reactAfterValue
  extract_lets isMask
  refine .ite (.ok _) (.ite (.unexpected _ _) ?_)
  split <;> exact .ok _

end OpenRecord

namespace RecordRule

/-- A record that is given a scope is never out of place. -/
theorem typeName_failsAt (e : Event) (s : Session η) (scope : Scope)
    (mode : Option TypeNameMode) (text : String) :
    FailsAt e (react e s (.typeName (some scope) mode text)) := by
  refine .ite ?_ ?_
  · unfold openBody
    split
    · exact .error ⟨⟨_, rfl, by simp⟩, ⟨_, rfl⟩, rfl, _, rfl⟩
    · exact .ok _
  · split
    · exact .ok _
    · exact .unexpected _ _

theorem body_failsAt (e : Event) (s : Session η) (r : OpenRecord) (x : RecordExpect) :
    FailsAt e (react e s (.body r x)) := by
  cases x with
  | field => exact .map _ (r.reactField_failsAt e s)
  | operator => exact .ite (.ok _) (.unexpected _ _)
  | value => exact .map _ (r.reactValue_failsAt e s)
  | afterValue => exact .map _ (r.reactAfterValue_failsAt e s)
  | stop => exact .ite (.ok _) (.unexpected _ _)

end RecordRule

/-! ## Machines and states -/

namespace MachineRule

omit [Host η] in
theorem reactItem_failsAt (m : OpenMachine) (e : Event) (s : Session η) :
    FailsAt e (reactItem m e s) := by
  refine .ite (.ok _) (.ite (.ok _) ?_)
  split
  · exact .ok _
  · repeat' first
      | exact .ok _
      | exact .unexpected _ _
      | apply FailsAt.ite

/-- A nested machine that is given a scope is never out of place. -/
theorem unnamed_failsAt (e : Event) (s : Session η) (nested : Bool) (outer : Option Scope)
    (h : nested → outer.isSome) : FailsAt e (react e s (.unnamed nested outer)) := by
  refine .bind (.name _ _) fun name => .bind ?_ fun _ => .ok _
  cases nested with
  | false => exact .ok _
  | true =>
    obtain ⟨scope, rfl⟩ := Option.isSome_iff_exists.1 (h rfl)
    exact .ok _

theorem named_failsAt (e : Event) (s : Session η) (m : OpenMachine) (x : MachineExpect) :
    FailsAt e (react e s (.named m x)) := by
  cases x with
  | openBrace => exact .ite (.ok _) (.unexpected _ _)
  | item => exact reactItem_failsAt m e s
  | weight => exact .bind (.number _) fun _ => .ok _
  | mask => exact .bind (.name _ _) fun _ => .ok _
  | sync => exact .bind (.name _ _) fun _ => .ok _
  | default => exact .bind (.name _ _) fun _ => .ok _
  | stop => exact .ite (.ok _) (.unexpected _ _)

end MachineRule

namespace StateRule

omit [Host η] in
theorem reactItem_failsAt (scope : Scope) (id : StateId) (e : Event) (s : Session η) :
    FailsAt e (reactItem scope id e s) := by
  unfold reactItem
  repeat' first
    | exact .ok _
    | exact .unexpected _ _
    | apply FailsAt.ite

theorem binding_failsAt (e : Event) : FailsAt e (binding e) :=
  .ite (.map _ (.number _)) (.map _ (.name _ _))

/-- A state that is given a scope is never out of place. -/
theorem unnamed_failsAt (e : Event) (s : Session η) (scope : Scope) :
    FailsAt e (react e s (.unnamed (some scope))) :=
  .bind (.name _ _) fun _ => .bind (.ok _) fun _ => .ok _

theorem named_failsAt (e : Event) (s : Session η) (scope : Scope) (id : StateId)
    (x : StateExpect) : FailsAt e (react e s (.named scope id x)) := by
  cases x with
  | openBrace => exact .ite (.ok _) (.unexpected _ _)
  | item => exact reactItem_failsAt scope id e s
  | speed => exact .bind (binding_failsAt e) fun _ => .ok _
  | cycleOffset => exact .bind (binding_failsAt e) fun _ => .ok _
  | time => exact .bind (.name _ _) fun _ => .ok _
  | mirror => exact .ite (.ok _) (.bind (.name _ _) fun _ => .ok _)
  | tag => exact .bind (.name _ _) fun _ => .ok _
  | stop => exact .ite (.ok _) (.unexpected _ _)

end StateRule

/-! ## Rules on a stack -/

theorem Motions.inTree {scope : Scope} {id : StateId} {r : MotionRule} {below : List Frame}
    (h : Motions scope id (.motion r :: below)) (hx : r.expect.inTree) : r.motion.isSome := by
  cases h with
  | root h _ names hslot hs ht => exact ht hx
  | child h _ names tree key hkey htree hslot hs ht => exact ht hx

/-- A rule on a stack of the right shape fails only because of the token it is given. -/
theorem Shaped.failsAt {f : Frame} {below : List Frame} (h : Shaped (f :: below)) (e : Event)
    (s : Session η) : FailsAt e (f.react e s) := by
  cases h with
  | document => exact .ite (.ok _) (.ite (.ok _) (.unexpected _ _))
  | parameter r => exact .map _ (r.failsAt e s)
  | layerName => exact .map _ (MachineRule.unnamed_failsAt e s _ _ (by simp))
  | block h =>
    cases h with
    | machine h =>
      obtain ⟨x, rfl⟩ := h.top
      exact .map _ (MachineRule.named_failsAt e s _ x)
    | state h id name x => exact .map _ (StateRule.named_failsAt e s _ id x)
  | machineName h => exact .map _ (MachineRule.unnamed_failsAt e s _ _ (by simp))
  | stateName h => exact .map _ (StateRule.unnamed_failsAt e s _)
  | transition h r hs => exact .map _ (TransitionRule.react_failsAt e s hs)
  | typeName h mode text => exact .map _ (RecordRule.typeName_failsAt e s _ mode text)
  | record h r x => exact .map _ (RecordRule.body_failsAt e s r x)
  | motions h =>
    obtain ⟨r, rfl⟩ := h.top
    exact .map _ (MotionRule.react_failsAt e s h.inTree)

end MotionScript
