import MotionScript.Proofs.Contents.Parts
import MotionScript.Proofs.Records.Conforming
/-!
# Records of parsed graphs

Every record that has been read is of a type that the host knows, all its values are of the kinds
that the schema of the type gives them, and the assets in them are objects that the host has found.
-/

namespace MotionScript

variable {P : Asset → Prop}

/-! ## Assets in values -/

namespace Value

/-- Whether `P` holds of the assets that a value refers to at any depth. -/
def Refers (P : Asset → Prop) (v : Value) : Prop :=
  ∀ path asset, v.below? path = some (.object (some asset)) → P asset

variable {v w : Value}

theorem refers_record {fields : Fields} :
    (record fields).Refers P ↔ ∀ field ∈ fields, field.2.Refers P := by
  constructor
  · intro h field hfield path asset hw
    obtain ⟨i, hi⟩ := List.mem_iff_getElem?.1 hfield
    exact h (i :: path) asset (by rw [below?, hi]; exact hw)
  · rintro h (_ | ⟨i, path⟩) asset hw
    · cases hw
    · obtain ⟨field, hfield, hw⟩ := Option.bind_eq_some_iff.1 hw
      exact h field (List.mem_of_getElem? hfield) path asset hw

theorem refers_array {items : List Value} :
    (array items).Refers P ↔ ∀ item ∈ items, item.Refers P := by
  constructor
  · intro h item hitem path asset hw
    obtain ⟨i, hi⟩ := List.mem_iff_getElem?.1 hitem
    exact h (i :: path) asset (by rw [below?, hi]; exact hw)
  · rintro h (_ | ⟨i, path⟩) asset hw
    · cases hw
    · obtain ⟨item, hitem, hw⟩ := Option.bind_eq_some_iff.1 hw
      exact h item (List.mem_of_getElem? hitem) path asset hw

/-- A value that is changed inside refers to what it referred to, and to what the change brings. -/
theorem Refers.modifyBelow {f : Value → Value} (h : v.Refers P)
    (hf : ∀ w, w.Refers P → (f w).Refers P) (path : List Nat) : (v.modifyBelow f path).Refers P := by
  induction path generalizing v with
  | nil => exact hf v h
  | cons i path ih =>
    cases v with
    | record fields =>
      rw [refers_record] at h
      refine refers_record.2 fun field hfield => ?_
      obtain ⟨j, hj⟩ := List.mem_iff_getElem?.1 hfield
      rw [List.getElem?_modify] at hj
      obtain ⟨old, hold, rfl⟩ := Option.map_eq_some_iff.1 hj
      split
      · exact ih (h old (List.mem_of_getElem? hold))
      · exact h old (List.mem_of_getElem? hold)
    | array items =>
      rw [refers_array] at h
      refine refers_array.2 fun item hitem => ?_
      obtain ⟨j, hj⟩ := List.mem_iff_getElem?.1 hitem
      rw [List.getElem?_modify] at hj
      obtain ⟨old, hold, rfl⟩ := Option.map_eq_some_iff.1 hj
      split
      · exact ih (h old (List.mem_of_getElem? hold))
      · exact h old (List.mem_of_getElem? hold)
    | _ => exact h

theorem Refers.inside (h : v.Refers P) {path : List Nat} (hw : v.below? path = some w) :
    w.Refers P := by
  intro path' asset hasset
  refine h (path ++ path') asset ?_
  rw [below?_append, hw]
  exact hasset

/-- What a token says is no asset, unless an object is expected. -/
theorem refers_scalar {e : Event} {kind : FieldKind} (h : scalar? e kind = some v) : v.Refers P := by
  cases scalar?_ofKind h with
  | object => cases h
  | record => cases h
  | array => cases h
  | _ =>
    rintro (_ | ⟨i, path⟩) asset hw <;> cases hw

end Value

mutual

theorem FieldKind.zero_refers : ∀ kind : FieldKind, kind.zero.Refers P
  | .bool | .integer | .float | .string | .enum _ | .mask _ | .object => by
    rintro (_ | ⟨i, path⟩) asset hw <;> cases hw
  | .record fields => by
    rw [FieldKind.zero]
    exact zeroFields_refers fields
  | .array _ => Value.refers_array.2 (by simp)

theorem FieldKind.zeroFields_refers : ∀ schema : List (String × FieldKind),
    (Value.record (FieldKind.zeroFields schema)).Refers P
  | [] => Value.refers_record.2 (by simp [FieldKind.zeroFields])
  | (_, kind) :: schema => by
    rw [FieldKind.zeroFields, Value.refers_record, List.forall_mem_cons]
    exact ⟨FieldKind.zero_refers kind, Value.refers_record.1 (FieldKind.zeroFields_refers schema)⟩

end

/-! ## Changes of records -/

namespace OpenRecord

/-- Whether a change brings nothing but assets of which `P` holds. -/
def Write.Refers (P : Asset → Prop) : Write → Prop
  | set value | push value => value.Refers P
  | addBits _ | pop => True

theorem Write.Refers.result {w : Write} (h : w.Refers P) {old new : Value} (hold : old.Refers P)
    (hr : w.result? old = some new) : new.Refers P := by
  cases w with
  | set value =>
    obtain rfl := Option.some.inj hr
    exact h
  | addBits bits =>
    cases old <;> cases hr
    rintro (_ | ⟨i, path⟩) asset hw <;> cases hw
  | push item =>
    cases old <;> cases hr
    exact Value.refers_array.2 (List.forall_mem_append.2
      ⟨Value.refers_array.1 hold, List.forall_mem_singleton.2 h⟩)
  | pop =>
    cases old <;> try cases hr
    rename_i items
    simp only [Write.result?] at hr
    split at hr <;> cases hr
    exact Value.refers_array.2 fun item hi =>
      Value.refers_array.1 hold item (List.mem_of_mem_dropLast hi)

/-- A change that has its effect brings nothing but what it says. -/
theorem TakesEffect.refers {before after : Fields} {write : Option (List Nat × Write)}
    (h : TakesEffect before after write) (hw : ∀ x ∈ write, x.2.Refers P)
    (hbefore : (Value.record before).Refers P) : (Value.record after).Refers P := by
  cases write with
  | none =>
    obtain rfl : after = before := h
    exact hbefore
  | some x =>
    obtain ⟨path, w⟩ := x
    obtain ⟨old, new, hold, hnew, rfl, -⟩ := h
    have hp := Fields.ne_nil_of_at? hold
    have hrefers := (hw _ rfl : w.Refers P).result
      (hbefore.inside (Fields.below?_of_at? hold)) hnew
    rw [Fields.record_modifyAt _ hp]
    exact hbefore.modifyBelow (fun _ _ => hrefers) path

variable {η : Type} [Host η] {s : Session η} {e : Event}

theorem write?_refers {r : OpenRecord} {x : RecordExpect}
    (hP : ∀ reference asset, reference ≠ "null" →
      (Host.resolve s.host reference .object).1 = some asset → P asset) :
    ∀ write ∈ r.write? e s x, write.2.Refers P := by
  intro write hw
  have hscalar {kind : FieldKind}
      (h : ((scalar? e kind).map fun value => (r.path, Write.set value)) = some write) :
      write.2.Refers P := by
    obtain ⟨v, hv, rfl⟩ := Option.map_eq_some_iff.1 h
    exact Value.refers_scalar hv
  cases x <;> simp only [write?] at hw
  case field =>
    split at hw
    · cases hw
    · split at hw <;> cases hw
      exact FieldKind.zero_refers (.mask [])
  case value =>
    obtain ⟨kind, -, hw⟩ := Option.bind_eq_some_iff.1 hw
    split at hw
    · cases hw
      trivial
    · cases kind <;> simp only at hw
      case record => cases hw
      case array element =>
        split at hw <;> cases hw
        exact FieldKind.zero_refers element
      case mask names =>
        obtain ⟨bits, -, rfl⟩ := Option.map_eq_some_iff.1 hw
        trivial
      case object =>
        obtain ⟨reference, -, hw⟩ := Option.bind_eq_some_iff.1 hw
        split at hw
        · cases hw
          exact FieldKind.zero_refers .object
        · rename_i hnull
          obtain ⟨asset, hasset, rfl⟩ := Option.map_eq_some_iff.1 hw
          rintro (_ | ⟨i, path⟩) other hother
          · cases hother
            exact hP reference asset hnull hasset
          · cases hother
      all_goals exact hscalar hw
  case afterValue =>
    split at hw
    · obtain ⟨element, -, rfl⟩ := Option.map_eq_some_iff.1 hw
      exact FieldKind.zero_refers element
    · cases hw
  all_goals cases hw

end OpenRecord

/-! ## Readings -/

/-- What is known of a record that has been read with a host. -/
structure Record.Sound {η : Type} [Host η] (host : η) (record : Record) : Prop where
  typeName : record.typeName ≠ ""
  schema : ∃ stored h, Host.Told host stored h ∧
    Host.schema? h record.typeName = some record.schema
  kinds : (Value.record record.fields).OfKind (.record record.schema)
  assets : (Value.record record.fields).Refers (Host.Found host .object)

variable {η : Type} [Host η]

/-- What holds at every moment of a reading that began with a host. -/
structure Recorded (host : η) (stack : List Frame) (s : Session η) : Prop
    extends Stocked host stack s where
  /-- The record on top of the stack conforms. -/
  top : ∀ r x, stack.head? = some (.record (.body r x)) →
    ∃ record, s.controller.records[r.id.index]? = some record ∧ r.Conforms x record
  below : ∀ f ∈ stack.tail, ∀ r, f ≠ .record r
  records : ∀ record ∈ s.controller.records, record.Sound host

namespace Recorded

variable {host : η} {stack parents : List Frame} {s s' : Session η}

/-- A turn that leaves the records as they are. -/
theorem quiet {e : Event} {f f' : Frame} {control : Control Frame} (h : Recorded host (f :: parents) s)
    (hr : f.react e s = .ok (f', s', control)) (hf : ∀ r, f' ≠ .record r)
    (hrecords : s'.controller.records = s.controller.records) : Recorded host (f' :: parents) s' where
  toStocked := h.toStocked.turn hr
  top _ _ htop := absurd (Option.some.inj htop) (hf _)
  below := h.below
  records := hrecords ▸ h.records

theorem found_object (h : Stocked host stack s) (reference : String) (asset : Asset)
    (hn : reference ≠ "null") (hr : (Host.resolve s.host reference .object).1 = some asset) :
    Host.Found host .object asset :=
  Stocked.found h.books hr fun _ => hn

/-- A turn in the block of a record. -/
theorem body {e : Event} {r : OpenRecord} {x : RecordExpect} {rule : RecordRule}
    {control : Control Frame} (h : Recorded host (.record (.body r x) :: parents) s)
    (hr : (RecordRule.body r x).react e s = .ok (rule, s', control)) :
    (∀ r' x', rule = .body r' x' → ∃ record, s'.controller.records[r'.id.index]? = some record ∧
      r'.Conforms x' record) ∧ ∀ record ∈ s'.controller.records, record.Sound host := by
  obtain ⟨record, hrec, hconforms⟩ := h.top r x rfl
  obtain ⟨q, y, rfl, hid, hschema, record', hrec', hconforms', heffect⟩ :=
    hconforms.react_continues hrec hr
  dsimp only at hid hschema hrec' hconforms'
  refine ⟨?_, fun other hother => ?_⟩
  · rintro _ _ ⟨⟩
    exact ⟨record', by rw [hid, hrec'], hconforms'⟩
  have hsound := h.records record (Array.mem_of_getElem? hrec)
  have hassets : (Value.record record'.fields).Refers (Host.Found host .object) :=
    heffect.refers (OpenRecord.write?_refers (found_object h.toStocked)) hsound.assets
  have hkinds := hconforms'.kinds
  rw [← hconforms'.schema] at hkinds
  have hedit := (RecordRule.react_move hr).records
  generalize s'.controller = c' at hedit hother hrec'
  cases hedit with
  | same => exact h.records other hother
  | change f hf =>
    have hnew : record' = f record := by
      rw [Controller.modifyRecord, Array.getElem?_modify, if_pos rfl, hrec] at hrec'
      exact (Option.some.inj hrec').symm
    obtain ⟨i, hi⟩ := Array.getElem?_of_mem hother
    rw [Controller.modifyRecord, Array.getElem?_modify] at hi
    split at hi
    · rename_i hir
      rw [← hir, hrec] at hi
      obtain rfl : f record = other := Option.some.inj hi
      refine ⟨(hf record).1 ▸ hsound.typeName, ?_, hnew ▸ hkinds, hnew ▸ hassets⟩
      rw [(hf record).1, (hf record).2]
      exact hsound.schema
    · exact h.records other (Array.mem_of_getElem? hi)

/-- A turn before the block of a record. -/
theorem typeName {e : Event} {outer : Option Scope} {mode : Option TypeNameMode} {text : String}
    {rule : RecordRule} {control : Control Frame}
    (h : Recorded host (.record (.typeName outer mode text) :: parents) s)
    (hm : RecordRule.Move e s (.typeName outer mode text) rule s' control) :
    (∀ r' x', rule = .body r' x' → ∃ record, s'.controller.records[r'.id.index]? = some record ∧
      r'.Conforms x' record) ∧ ∀ record ∈ s'.controller.records, record.Sound host := by
  cases hm with
  | typeName => exact ⟨nofun, h.records⟩
  | @openBody scope _ _ schema htext hschema =>
    rw [RecordRule.attach_records]
    refine ⟨?_, fun other hother => ?_⟩
    · rintro _ _ ⟨⟩
      exact ⟨.new text schema, Array.getElem?_push_size, rfl, rfl,
        FieldKind.zeroFields_ofKind schema, .inl rfl⟩
    · rcases Array.mem_push.1 hother with hother | rfl
      · exact h.records other hother
      · obtain ⟨stored, htold, -⟩ := h.books.stored
        exact ⟨htext, ⟨stored, _, htold, hschema⟩, FieldKind.zeroFields_ofKind schema,
          FieldKind.zeroFields_refers schema⟩

theorem turn {e : Event} {f f' : Frame} {control : Control Frame} (h : Recorded host (f :: parents) s)
    (hr : f.react e s = .ok (f', s', control)) : Recorded host (f' :: parents) s' := by
  have hstocked := h.toStocked.turn hr
  cases Frame.react_move hr with
  | layer | declaration => exact h.quiet hr nofun rfl
  | parameter hm => exact h.quiet hr nofun (congrArg Controller.records hm.rest :)
  | machine hm => exact h.quiet hr nofun (congrArg Controller.records hm.rest :)
  | state hm => exact h.quiet hr nofun (congrArg Controller.records hm.rest :)
  | transition hq =>
    obtain ⟨-, hs, -⟩ := TransitionRule.react_ok hq
    exact h.quiet hr nofun (by rw [hs])
  | motion hm => exact h.quiet hr nofun (congrArg Controller.records hm.rest :)
  | @record r r' _ _ hm =>
    have hboth : (∀ q x, r' = .body q x → ∃ record,
        s'.controller.records[q.id.index]? = some record ∧ q.Conforms x record) ∧
          ∀ record ∈ s'.controller.records, record.Sound host := by
      cases r with
      | typeName outer mode text => exact typeName h hm
      | body q x =>
        obtain ⟨⟨r', s'', c⟩, hq, heq⟩ := except_map_ok.1 hr
        cases heq
        exact body h hq
    refine ⟨hstocked, fun q x htop => ?_, h.below, hboth.2⟩
    cases htop
    exact hboth.1 q x rfl

theorem attach {e : Event} {f f' g : Frame} {forward : Bool} {s₀ : Session η}
    (h : Recorded host (f' :: parents) s) (hr : f.react e s₀ = .ok (f', s, some (.attach g forward))) :
    Recorded host ((g.onAttach f'.context s).subject :: f' :: parents) s := by
  have ha := (Frame.react_turn hr).asks
  refine ⟨h.toStocked.attach hr, fun r x htop => ?_, fun q hq r heq => ?_, h.records⟩
  · cases ha <;> cases htop
  · rcases List.mem_cons.1 hq with rfl | hq
    · subst heq
      cases ha
    · exact h.below q hq r heq

/-- A rule is detached. -/
theorem close {f : Frame} (h : Recorded host (f :: parents) s) :
    Recorded host parents (f.close s) := by
  have hrecords : (f.close s).controller.records = s.controller.records := by
    cases f with
    | document => exact s.linkSyncs_records
    | machine r =>
      have hrest := congrArg Controller.records (r.close_rest s)
      exact hrest
    | motion r =>
      show (r.place s.controller).records = _
      unfold MotionRule.place
      split <;> rfl
    | parameter | state | transition | record => rfl
  refine ⟨h.toStocked.close, fun r x htop => ?_, fun g hg => h.below g (List.mem_of_mem_tail hg),
    hrecords ▸ h.records⟩
  exact absurd rfl (h.below _ (List.mem_of_mem_head? htop) _)

end Recorded

theorem Grammar.Reached.recorded {name : String} {host : η} {stack : List Frame} {s : Session η}
    {calls : List (Grammar.Call Frame (Session η))}
    (h : (Grammar.document η).Reached .document { controller := { name }, host } stack s calls) :
    Recorded host stack s := by
  refine h.invariant ?_ (fun e f f' parents s s' control _ => Recorded.turn)
    (fun e f f' g parents s₀ s forward => Recorded.attach) fun f parents s _ _ => Recorded.close
  exact ⟨.start name host, nofun, fun _ hf => absurd hf List.not_mem_nil,
    fun _ hr => absurd hr (Array.not_mem_empty _)⟩

end MotionScript
