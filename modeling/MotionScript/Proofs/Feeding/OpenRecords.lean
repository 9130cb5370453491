import MotionScript.Proofs.Feeding.Leads
import MotionScript.Proofs.Graph.Values
/-!
# Open records

The current value of an open record, as it is seen in an outline: how it is changed, and how changes
of what is below it are changes of the value itself.
-/

namespace MotionScript

/-! ## Values in an outline -/

/-- The record or array item at an index of the current value. -/
def OpenRecord.below (r : OpenRecord) (i : Nat) : OpenRecord := { r with path := r.path ++ [i] }

/-- The rule of an open record. -/
abbrev OpenRecord.frame (r : OpenRecord) (x : RecordExpect) : Frame := .record (.body r x)

namespace Outline

variable {o : Outline} {r : OpenRecord} {v w : Value}

/-- The current value of an open record. -/
def value? (o : Outline) (r : OpenRecord) : Option Value :=
  (o.controller.records[r.id.index]?).bind fun record =>
    (Value.record record.fields).below? r.path

/-- An outline with another current value. -/
def put (o : Outline) (r : OpenRecord) (v : Value) : Outline :=
  { o with controller := o.controller.modifyRecord r.id fun record => { record with
      fields := ((Value.record record.fields).modifyBelow (fun _ => v) r.path).fields } }

/-- What is below a record is changed inside of a record. -/
theorem record_fields (fields : Fields) (f : Value → Value) {path : List Nat} (h : path ≠ []) :
    Value.record ((Value.record fields).modifyBelow f path).fields =
      (Value.record fields).modifyBelow f path := by
  cases path with
  | nil => exact absurd rfl h
  | cons i path => rfl

/-- Whether a value can be put where a record currently is. -/
def Suits (r : OpenRecord) (v : Value) : Prop := r.path = [] → ∃ fields, v = .record fields

theorem Suits.record (r : OpenRecord) (fields : Fields) : Suits r (.record fields) :=
  fun _ => ⟨fields, rfl⟩

theorem modify_congr {α : Type} {xs : Array α} {i : Nat} {f g : α → α}
    (h : ∀ x ∈ xs[i]?, f x = g x) : xs.modify i f = xs.modify i g := by
  refine Array.ext_getElem? fun j => ?_
  rw [Array.getElem?_modify, Array.getElem?_modify]
  by_cases hij : i = j
  · subst hij
    cases hx : xs[i]? with
    | none => rfl
    | some x => simp [h x hx]
  · simp [hij]

theorem value?_put (h : o.value? r = some w) (hv : Suits r v) : (o.put r v).value? r = some v := by
  obtain ⟨record, hrecord, hw⟩ := Option.bind_eq_some_iff.1 h
  simp only [value?, put, Controller.modifyRecord, Array.getElem?_modify, if_pos, hrecord,
    Option.map_some, Option.bind_some]
  by_cases hpath : r.path = []
  · obtain ⟨fields, rfl⟩ := hv hpath
    rw [hpath]
    rfl
  · rw [record_fields _ _ hpath]
    exact Value.below?_modifyBelow hw

theorem put_put (o : Outline) (r : OpenRecord) (v w : Value) : (o.put r v).put r w = o.put r w := by
  simp only [put, Controller.modifyRecord]
  congr 2
  refine Array.ext_getElem? fun j => ?_
  simp only [Array.getElem?_modify]
  split
  · cases o.controller.records[j]? with
    | none => rfl
    | some record =>
      by_cases hpath : r.path = []
      · simp [hpath, Value.modifyBelow]
      · simp only [Option.map_some, record_fields _ _ hpath, Value.modifyBelow_modifyBelow]
        rfl
  · rfl

theorem put_self (h : o.value? r = some v) : o.put r v = o := by
  obtain ⟨record, hrecord, hv⟩ := Option.bind_eq_some_iff.1 h
  have hsame : o.controller.records.modify r.id.index (fun record => { record with
      fields := ((Value.record record.fields).modifyBelow (fun _ => v) r.path).fields }) =
        o.controller.records := by
    refine Array.ext_getElem? fun j => ?_
    rw [Array.getElem?_modify]
    split
    · rename_i hj
      subst hj
      rw [hrecord, Option.map_some, Value.modifyBelow_self hv]
      rfl
    · rfl
  simp only [put, Controller.modifyRecord, hsame]

/-- Two ways to change the record of a rule that agree on it. -/
theorem put_congr {r' : OpenRecord} (hid : r'.id = r.id)
    (h : ∀ record, o.controller.records[r.id.index]? = some record →
      (Value.record record.fields).modifyBelow (fun _ => w) r'.path =
        (Value.record record.fields).modifyBelow (fun _ => v) r.path) : o.put r' w = o.put r v := by
  simp only [put, Controller.modifyRecord, hid]
  rw [modify_congr fun record hrecord => ?_]
  rw [h record hrecord]

theorem value?_below_record {fields : Fields} (h : o.value? r = some (.record fields)) (i : Nat) :
    o.value? (r.below i) = fields[i]?.map (·.2) := by
  obtain ⟨record, hrecord, hv⟩ := Option.bind_eq_some_iff.1 h
  have hid : o.controller.records[(r.below i).id.index]? = some record := hrecord
  rw [value?, hid, Option.bind_some, OpenRecord.below, Value.below?_append, hv, Option.bind_some,
    Value.below?]
  cases fields[i]? <;> rfl

theorem value?_below_array {items : List Value} (h : o.value? r = some (.array items)) (i : Nat) :
    o.value? (r.below i) = items[i]? := by
  obtain ⟨record, hrecord, hv⟩ := Option.bind_eq_some_iff.1 h
  have hid : o.controller.records[(r.below i).id.index]? = some record := hrecord
  rw [value?, hid, Option.bind_some, OpenRecord.below, Value.below?_append, hv, Option.bind_some,
    Value.below?]
  cases items[i]? <;> rfl

/-- A changed field is a change of its record. -/
theorem put_below_record {fields : Fields} (h : o.value? r = some (.record fields)) (i : Nat) :
    o.put (r.below i) w = o.put r (.record (fields.modify i fun field => (field.1, w))) := by
  obtain ⟨record, hrecord, hv⟩ := Option.bind_eq_some_iff.1 h
  refine put_congr rfl fun record' hrecord' => ?_
  obtain rfl := Option.some.inj (hrecord.symm.trans hrecord')
  rw [OpenRecord.below, Value.modifyBelow_append]
  exact Value.modifyBelow_congr hv rfl

theorem put_below_array {items : List Value} (h : o.value? r = some (.array items)) (i : Nat) :
    o.put (r.below i) w = o.put r (.array (items.modify i fun _ => w)) := by
  obtain ⟨record, hrecord, hv⟩ := Option.bind_eq_some_iff.1 h
  refine put_congr rfl fun record' hrecord' => ?_
  obtain rfl := Option.some.inj (hrecord.symm.trans hrecord')
  rw [OpenRecord.below, Value.modifyBelow_append]
  exact Value.modifyBelow_congr hv rfl

end Outline

/-! ## Kinds -/

namespace Schema

theorem kindBelow?_append (kind : FieldKind) (path path' : List Nat) :
    kindBelow? kind (path ++ path') = (kindBelow? kind path).bind (kindBelow? · path') := by
  induction path generalizing kind with
  | nil => rfl
  | cons i path ih =>
    cases kind with
    | record fields =>
      simp only [List.cons_append, kindBelow?, Option.bind_assoc]
      exact congrArg _ (funext fun x => ih x.2)
    | array element => exact ih element
    | _ => rfl

theorem kindAt?_append (schema : Schema) {path : List Nat} (hp : path ≠ []) (path' : List Nat) :
    schema.kindAt? (path ++ path') = (schema.kindAt? path).bind (kindBelow? · path') := by
  cases path with
  | nil => exact absurd rfl hp
  | cons i path =>
    simp only [List.cons_append, kindAt?, Option.bind_assoc]
    exact congrArg _ (funext fun x => kindBelow?_append x.2 path path')

end Schema

namespace OpenRecord

variable {r : OpenRecord} {i : Nat}

@[simp]
theorem pop_below (r : OpenRecord) (i : Nat) : (r.below i).pop = r := by simp [below, pop]

theorem kind?_below_field {schema : Schema} {field : String × FieldKind} (h : r.fields? = some schema)
    (hi : schema[i]? = some field) : (r.below i).kind? = some field.2 := by
  rw [fields?] at h
  by_cases hp : r.path = []
  · rw [hp] at h
    obtain rfl : r.schema = schema := Option.some.inj h
    simp [kind?, below, hp, Schema.kindAt?, hi, Schema.kindBelow?]
  · rw [if_neg (by simpa using hp)] at h
    cases hk : r.kind? with
    | none => rw [hk] at h; cases h
    | some kind =>
      rw [hk] at h
      rw [kind?, below, Schema.kindAt?_append _ hp, show r.schema.kindAt? r.path = _ from hk]
      cases kind <;> cases h
      simp [Schema.kindBelow?, hi]

theorem kind?_of_fields? {schema : Schema} (h : r.fields? = some schema) (element : FieldKind) :
    r.kind? ≠ some (.array element) := by
  intro hk
  unfold fields? at h
  split at h
  · rename_i hp
    rw [kind?, List.isEmpty_iff.1 hp] at hk
    cases hk
  · rw [hk] at h
    cases h

theorem kind?_below_item {element : FieldKind} (h : r.kind? = some (.array element)) (i : Nat) :
    (r.below i).kind? = some element := by
  have hp : r.path ≠ [] := by
    intro hp
    rw [kind?, hp] at h
    cases h
  rw [kind?, below, Schema.kindAt?_append _ hp, show r.schema.kindAt? r.path = _ from h]
  rfl

theorem inArray_below {element : FieldKind} (h : r.kind? = some (.array element)) (i : Nat) :
    (r.below i).inArray = true := by
  have hk : r.schema.kindAt? r.path = some (.array element) := h
  simp [inArray, below, hk]

/-- What a rule makes of the current value is seen in the outline. -/
theorem outline_modifyValue {η : Type} {s : Session η} {w : Value} (f : Value → Value)
    (hp : r.path ≠ []) (h : s.outline.value? r = some w) :
    (r.modifyValue s f).outline = s.outline.put r (f w) := by
  obtain ⟨record, hrecord, hw⟩ := Option.bind_eq_some_iff.1 h
  rw [modifyValue, s.outline_modify (f := (·.modifyRecord r.id _)) rfl]
  simp only [Outline.put, Controller.modifyRecord]
  rw [Outline.modify_congr fun record' hrecord' => ?_]
  obtain rfl := Option.some.inj (hrecord.symm.trans hrecord')
  have hmodify : Value.record (record.fields.modifyAt f r.path) =
      (Value.record record.fields).modifyBelow f r.path := by
    cases hr : r.path with
    | nil => exact absurd hr hp
    | cons i path => rfl
  have hcongr := Value.modifyBelow_congr (g := fun _ => f w) hw rfl
  rw [← hmodify] at hcongr
  rw [← hcongr]
  rfl

end OpenRecord

end MotionScript
