import MotionScript.Proofs.Steps.Declarations
/-!
# Steps of records

All that the rule of a record can do with a token. In its body nothing but its own value changes, and
the host is asked for objects only.
-/

namespace MotionScript

variable {η : Type} [Host η] {e : Event} {s s' : Session η} {control : Control Frame}

/-! ## Bodies -/

namespace OpenRecord

variable {r r' : OpenRecord} {x : RecordExpect}

/-- What the body of a record does to a session. -/
inductive Change (s : Session η) (id : RecordId) : Session η → Prop where
  | same : Change s id s
  | value (r : OpenRecord) (hr : r.id = id) (f : Value → Value) : Change s id (r.modifyValue s f)
  | missing (reference : String) : Change s id (s.resolve reference .object).2
  | object (r : OpenRecord) (hr : r.id = id) (reference : String) (f : Value → Value) :
    Change s id (r.modifyValue (s.resolve reference .object).2 f)

theorem pushItem_change (r : OpenRecord) (s : Session η) (element : FieldKind) :
    Change s r.id (r.pushItem s element).2 := by
  unfold pushItem
  split
  · exact .value r rfl _
  · exact .same

theorem reactField_change (h : r.reactField e s = .ok (r', x, s')) : Change s r.id s' := by
  unfold reactField at h
  split at h
  · cases h
    exact .same
  · obtain ⟨name, -, h⟩ := except_bind_ok.1 h
    split at h
    · cases h
    · split at h <;> cases h
      · exact .value { r with path := r.path ++ [_] } rfl _
      · exact .same

theorem reactObject_change (h : r.reactObject e s = .ok (r', x, s')) : Change s r.id s' := by
  unfold reactObject at h
  split at h
  · cases h
  rename_i reference _
  split at h
  · cases h
    exact .value r rfl _
  split at h <;>
  · rename_i hr
    cases h
    obtain rfl := congrArg Prod.snd hr
    first
      | exact .object r rfl reference _
      | exact .missing reference

theorem reactValue_change (h : r.reactValue e s = .ok (r', x, s')) : Change s r.id s' := by
  unfold reactValue at h
  rcases hk : r.kind? with _ | kind
  · simp [hk] at h
  simp only [hk] at h
  split at h
  · cases h
    exact .value r.pop rfl _
  cases kind <;> simp only at h
  case record fields =>
    split at h
    · cases h
      exact .same
    · split at h <;> cases h
      exact .value r rfl _
  case array element =>
    split at h
    · cases h
      exact r.pushItem_change s element
    · split at h <;> cases h
      exact .value r rfl _
  case object => exact reactObject_change h
  all_goals
    split at h <;> cases h
    exact .value r rfl _

theorem reactAfterValue_change (h : r.reactAfterValue e s = .ok (r', x, s')) :
    Change s r.id s' := by
  unfold reactAfterValue at h
  extract_lets isMask at h
  split at h
  · cases h
    exact .same
  · split at h
    · cases h
    · split at h <;> cases h
      · exact r.pop.pushItem_change s _
      · exact .same

end OpenRecord

/-! ## Records -/

namespace RecordRule

/-- What a record does with a token. -/
inductive Move (e : Event) (s : Session η) :
    RecordRule → RecordRule → Session η → Control Frame → Prop where
  | typeName (outer : Option Scope) (mode mode' : Option TypeNameMode) (text text' : String) :
    Move e s (.typeName outer mode text) (.typeName outer mode' text') s none
  | openBody (scope : Scope) (mode : Option TypeNameMode) {text : String} {schema : Schema}
    (htext : text ≠ "") (hschema : Host.schema? s.host text = some schema) :
    Move e s (.typeName (some scope) mode text)
      (.body ⟨text, schema, (attach s scope (.new text schema)).1, []⟩ .field)
      (attach s scope (.new text schema)).2 none
  | body {r r' : OpenRecord} (x x' : RecordExpect) {s' : Session η} (h : OpenRecord.Change s r.id s') :
    Move e s (.body r x) (.body r' x') s' none
  | stop (r : OpenRecord) (he : e.isSymbol ';' = true) :
    Move e s (.body r .stop) (.body r .stop) s (some (.detach false))

theorem react_move {r r' : RecordRule} (h : r.react e s = .ok (r', s', control)) :
    Move e s r r' s' control := by
  cases r with
  | typeName outer mode text =>
    simp only [react] at h
    split at h
    · rename_i hbrace
      unfold RecordRule.openBody at h
      split at h
      · cases h
      · split at h <;> cases h
        exact .openBody _ mode (by simpa using (Bool.and_eq_true_iff.1 hbrace).2) ‹_›
    · split at h <;> cases h
      exact .typeName ..
  | body r x =>
    cases x <;> simp only [react] at h
    case field =>
      obtain ⟨⟨r', x, s''⟩, hf, h⟩ := except_map_ok.1 h
      cases h
      exact .body _ _ (OpenRecord.reactField_change hf)
    case value =>
      obtain ⟨⟨r', x, s''⟩, hf, h⟩ := except_map_ok.1 h
      cases h
      exact .body _ _ (OpenRecord.reactValue_change hf)
    case afterValue =>
      obtain ⟨⟨r', x, s''⟩, hf, h⟩ := except_map_ok.1 h
      cases h
      exact .body _ _ (OpenRecord.reactAfterValue_change hf)
    case operator =>
      split at h <;> cases h
      exact .body _ _ .same
    case stop =>
      split at h <;> cases h
      exact .stop r ‹_›

end RecordRule

end MotionScript
