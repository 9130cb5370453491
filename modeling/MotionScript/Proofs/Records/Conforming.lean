import MotionScript.Proofs.Linking.Turn
import MotionScript.Proofs.Records.Kinds
/-!
# Open records fit their schema

Kinds and values are walked separately along one list of indices. Reading a token moves the schema
position and the value position together, so the values of an open record are always of the kinds
that its schema gives them, and every change that a token asks for has its effect.
-/

namespace MotionScript

/-- Diagnostics for one token are told apart by what they say was expected. -/
theorem Event.unexpected_injective (e : Event) : Function.Injective e.unexpected := by
  intro a b h
  have hlabels := congrArg Diagnostic.labels h
  simpa [unexpected, Diagnostic.error, Diagnostic.withCode, Diagnostic.withLabel,
    Diagnostic.withPosition] using hlabels

/-- The kind of the items of an array. -/
def FieldKind.element? : FieldKind → Option FieldKind
  | .array element => some element
  | _ => none

/-! ## Changes of one value -/

namespace OpenRecord

/-- A change of one value inside of a record. -/
inductive Write where
  | set (value : Value)
  | addBits (bits : UInt64)
  | push (item : Value)
  | pop

/-- What a change makes of a value of the shape that it is for; there is nothing to make of any other
value. -/
def Write.result? : Write → Value → Option Value
  | set value, _ => some value
  | addBits bits, .mask old => some (.mask (old ||| bits))
  | push item, .array items => some (.array (items ++ [item]))
  | pop, .array items => if items.isEmpty then none else some (.array items.dropLast)
  | _, _ => none

/-- Whether the change that is asked for has its effect, and nothing else changes. -/
def TakesEffect (before after : Fields) : Option (List Nat × Write) → Prop
  | none => after = before
  | some (path, write) => ∃ old new, before.at? path = some old ∧ write.result? old = some new ∧
    after = before.modifyAt (fun _ => new) path ∧ after.at? path = some new

section

variable {η : Type} [Host η]

/-- The change that a token asks for, and the indices that lead to the value it is about. A reference
to an asset that is not found asks for none. -/
def write? (r : OpenRecord) (e : Event) (s : Session η) : RecordExpect → Option (List Nat × Write)
  | .field =>
    if e.isSymbol '}' then none
    else
      match e.name?.bind fun name => r.fields?.bind (Schema.field? · name) with
      | some (index, .mask _) => some (r.path ++ [index], .set (.mask 0))
      | _ => none
  | .value =>
    r.kind?.bind fun kind =>
      if e.isSymbol ']' && r.inArray then some (r.path.dropLast, .pop)
      else
        match kind with
        | .record _ => none
        | .array element => if e.isSymbol '[' then some (r.path, .push element.zero) else none
        | .mask names => (maskBits? e names).map fun bits => (r.path, .addBits bits)
        | .object =>
          e.name?.bind fun reference =>
            if reference = "null" then some (r.path, .set (.object none))
            else (s.resolve reference .object).1.map fun asset => (r.path, .set (.object (some asset)))
        | kind => (scalar? e kind).map fun value => (r.path, .set value)
  | .afterValue =>
    if e.isSymbol ';' then
      (r.pop.kind?.bind FieldKind.element?).map fun element =>
        (r.path.dropLast, .push element.zero)
    else none
  | _ => none

end

/-! ## What is true between two tokens -/

/-- Where the indices of an open record lead, by what is expected next. -/
def Placed (r : OpenRecord) (fields : Fields) : RecordExpect → Prop
  | .field => r.path = [] ∨ ∃ schema inner, r.kind? = some (.record schema) ∧
    fields.at? r.path = some (.record inner)
  | .operator | .value | .afterValue => ∃ kind value, r.kind? = some kind ∧
    fields.at? r.path = some value ∧ value.OfKind kind
  | .stop => r.path = []

/-- An open record and its rule: every value is of its kind, and the indices lead where they should. -/
structure Conforms (r : OpenRecord) (expect : RecordExpect) (record : Record) : Prop where
  typeName : record.typeName = r.typeName
  schema : record.schema = r.schema
  kinds : (Value.record record.fields).OfKind (.record r.schema)
  placed : r.Placed record.fields expect

variable {r : OpenRecord} {record : Record} {fields : Fields} {path : List Nat}

/-- The kind of a value is the one that its indices lead to. -/
theorem exists_kind (h : (Value.record fields).OfKind (.record r.schema)) {v : Value}
    (hv : fields.at? path = some v) : ∃ kind, r.schema.kindAt? path = some kind ∧ v.OfKind kind := by
  have hp := Fields.ne_nil_of_at? hv
  obtain ⟨kind, hkind, hv⟩ := h.inside (Fields.below?_of_at? hv)
  exact ⟨kind, by rwa [Schema.kindBelow?_record _ hp] at hkind, hv⟩

/-- A value that is replaced by one of its kind leaves all values of their kinds. -/
theorem kinds_modifyAt (h : (Value.record fields).OfKind (.record r.schema)) {old new : Value}
    {kind : FieldKind} (hold : fields.at? path = some old)
    (hkind : r.schema.kindAt? path = some kind) (hnew : new.OfKind kind) :
    (Value.record (fields.modifyAt (fun _ => new) path)).OfKind (.record r.schema) := by
  have hp := Fields.ne_nil_of_at? hold
  rw [Fields.record_modifyAt _ hp]
  refine h.modifyBelow fun w inner _ hinner _ => ?_
  rw [Schema.kindBelow?_record _ hp, hkind] at hinner
  obtain rfl := Option.some.inj hinner
  exact hnew

/-- What leads to a value leads, without the last index, to the record or array that it is in. -/
theorem exists_pop {v : Value} (hv : fields.at? r.path = some v) :
    r.pop.path = [] ∨ ∃ outer i, fields.at? r.pop.path = some outer ∧ r.path = r.pop.path ++ [i] ∧
      outer.below? [i] = some v := by
  have hp := Fields.ne_nil_of_at? hv
  have hpath : r.path = r.pop.path ++ [r.path.getLast hp] :=
    (List.dropLast_append_getLast hp).symm
  by_cases hpop : r.pop.path = []
  · exact .inl hpop
  · rw [hpath, Fields.at?_append _ hpop] at hv
    obtain ⟨outer, houter, hv⟩ := Option.bind_eq_some_iff.1 hv
    exact .inr ⟨outer, _, houter, hpath, hv⟩

/-- A field that is found by its name has a value of its kind. -/
theorem Conforms.exists_field (h : r.Conforms .field record) {name : String} {index : Nat}
    {kind : FieldKind} (hfield : r.fields?.bind (Schema.field? · name) = some (index, kind)) :
    r.schema.kindAt? (r.path ++ [index]) = some kind ∧
      ∃ value, record.fields.at? (r.path ++ [index]) = some value := by
  obtain ⟨schema, hschema, hfield⟩ := Option.bind_eq_some_iff.1 hfield
  have hentry := Schema.getElem?_of_field? hfield
  have hkind : (r.below index).kind? = some kind := kind?_below_field hschema hentry
  refine ⟨hkind, ?_⟩
  rcases h.placed with hp | ⟨schema', inner, hkind', hat⟩
  · obtain rfl : r.schema = schema := by simpa [fields?, hp] using hschema
    obtain ⟨field, hfield, -⟩ := h.kinds.exists_field hentry
    exact ⟨field.2, by simp [hp, Fields.at?, hfield, Value.below?]⟩
  · have hp := Fields.ne_nil_of_at? hat
    obtain rfl : schema' = schema := by simpa [fields?, hp, hkind'] using hschema
    obtain ⟨kind', hkind'', hof⟩ := exists_kind h.kinds hat
    obtain rfl := Option.some.inj (hkind'.symm.trans hkind'')
    obtain ⟨field, hfield, -⟩ := hof.exists_field hentry
    exact ⟨field.2, by rw [Fields.at?_append _ hp, hat]; simp [Value.below?, hfield]⟩

/-- What is in an array belongs to its items. -/
theorem exists_items (h : (Value.record fields).OfKind (.record r.schema)) {v : Value}
    (hv : fields.at? r.path = some v) {element : FieldKind}
    (hkind : r.pop.kind? = some (.array element)) :
    ∃ items, fields.at? r.pop.path = some (.array items) := by
  rcases exists_pop hv with hp | ⟨outer, i, houter, -, -⟩
  · rw [kind?, hp] at hkind
    cases hkind
  · obtain ⟨kind, hkind', hof⟩ := exists_kind h houter
    obtain rfl : FieldKind.array element = kind := Option.some.inj (hkind.symm.trans hkind')
    obtain ⟨items, rfl, -⟩ := hof.exists_array
    exact ⟨items, houter⟩

/-- What is not in an array is a field. -/
theorem placed_pop (h : (Value.record fields).OfKind (.record r.schema)) {v : Value}
    (hv : fields.at? r.path = some v)
    (hkind : ∀ element, r.pop.kind? ≠ some (.array element)) : r.pop.Placed fields .field := by
  rcases exists_pop hv with hp | ⟨outer, i, houter, -, hv⟩
  · exact .inl hp
  · obtain ⟨kind, hkind', hof⟩ := exists_kind h houter
    cases hof with
    | @record inner schema hn h => exact .inr ⟨schema, inner, hkind', houter⟩
    | @array items element h => exact absurd hkind' (hkind element)
    | _ => cases hv

/-! ## One token -/

section

variable {η : Type} [Host η] {s s' : Session η} {e : Event}

omit [Host η] in
/-- A change of a value is a change of the record. -/
theorem records_modifyValue (hrec : s.controller.records[r.id.index]? = some record) {old : Value}
    (hold : record.fields.at? r.path = some old) (f : Value → Value) :
    (r.modifyValue s f).controller.records[r.id.index]? =
      some { record with fields := record.fields.modifyAt (fun _ => f old) r.path } := by
  have hcongr : record.fields.modifyAt f r.path = record.fields.modifyAt (fun _ => f old) r.path :=
    Fields.modifyAt_congr hold rfl
  simp [modifyValue, Session.modify, Controller.modifyRecord, Array.getElem?_modify, hrec, hcongr]

/-- The rule goes on with the same record, which conforms again, and the change that was asked for
has its effect. -/
def Continues (r : OpenRecord) (record : Record) (write : Option (List Nat × Write))
    (next : BodyStep η) : Prop :=
  next.1.id = r.id ∧ next.1.schema = r.schema ∧
    ∃ record', next.2.2.controller.records[r.id.index]? = some record' ∧
      next.1.Conforms next.2.1 record' ∧ TakesEffect record.fields record'.fields write

omit [Host η] in
theorem Continues.keep {x x' : RecordExpect} (h : r.Conforms x record)
    (hrec : s'.controller.records[r.id.index]? = some record)
    (hplaced : { r with path := path }.Placed record.fields x') :
    Continues r record none ({ r with path := path }, x', s') :=
  ⟨rfl, rfl, record, hrec, ⟨h.typeName, h.schema, h.kinds, hplaced⟩, rfl⟩

omit [Host η] in
theorem Continues.write {x x' : RecordExpect} {w : Write} {old new : Value} {kind : FieldKind}
    {place : List Nat} (h : r.Conforms x record)
    (hold : record.fields.at? place = some old) (hw : w.result? old = some new)
    (hkind : r.schema.kindAt? place = some kind) (hnew : new.OfKind kind)
    (hrec : s'.controller.records[r.id.index]? =
      some { record with fields := record.fields.modifyAt (fun _ => new) place })
    (hplaced : ∀ fields : Fields, (Value.record fields).OfKind (.record r.schema) →
      fields.at? place = some new → { r with path := path }.Placed fields x') :
    Continues r record (some (place, w)) ({ r with path := path }, x', s') := by
  have hkinds := kinds_modifyAt h.kinds hold hkind hnew
  have hat := Fields.at?_modifyAt (f := fun _ => new) hold
  exact ⟨rfl, rfl, _, hrec, ⟨h.typeName, h.schema, hkinds, hplaced _ hkinds hat⟩,
    old, new, hold, hw, rfl, hat⟩

omit [Host η] in
/-- A semicolon behind an item, or the bracket in front of the first one, starts another item. -/
theorem continues_pushItem {x : RecordExpect} (h : r.Conforms x record)
    (hrec : s.controller.records[r.id.index]? = some record) {q : OpenRecord}
    (hq : q = { r with path := path }) {element : FieldKind} {items : List Value}
    (hkind : r.schema.kindAt? path = some (.array element))
    (hitems : record.fields.at? path = some (.array items)) :
    Continues r record (some (path, .push element.zero))
      ((q.pushItem s element).1, .value, (q.pushItem s element).2) := by
  subst hq
  have hget : s.controller.record r.id = record := by
    simp [Controller.record, Array.getD_eq_getD_getElem?, hrec]
  have hp := Fields.ne_nil_of_at? hitems
  have harray : ∀ item ∈ items ++ [element.zero], item.OfKind element := by
    obtain ⟨kind, hkind', hof⟩ := exists_kind h.kinds hitems
    obtain rfl := Option.some.inj (hkind.symm.trans hkind')
    cases hof with
    | array hof => simpa [or_imp, forall_and] using ⟨hof, element.zero_ofKind⟩
  simp only [pushItem, hget, hitems]
  refine .write h hitems rfl hkind (.array harray)
    (records_modifyValue (r := { r with path := path }) hrec hitems _) fun fields _ hat => ?_
  refine ⟨element, element.zero, ?_, ?_, element.zero_ofKind⟩
  · rw [kind?, Schema.kindAt?_append _ hp, hkind]
    rfl
  · rw [Fields.at?_append _ hp, hat]
    simp [Value.below?]

theorem reactField_continues (h : r.Conforms .field record)
    (hrec : s.controller.records[r.id.index]? = some record) {next : BodyStep η}
    (hnext : r.reactField e s = .ok next) : Continues r record (r.write? e s .field) next := by
  unfold reactField at hnext
  by_cases hclose : e.isSymbol '}' = true
  · rw [if_pos hclose] at hnext
    obtain rfl := Except.ok.inj hnext
    rw [write?, if_pos hclose]
    rcases h.placed with hp | ⟨schema, inner, hkind, hat⟩
    · rw [if_pos (by simp [hp])]
      exact .keep h hrec hp
    · rw [if_neg (by simpa using Fields.ne_nil_of_at? hat)]
      obtain ⟨kind, hkind', hof⟩ := exists_kind h.kinds hat
      exact .keep h hrec ⟨kind, _, hkind', hat, hof⟩
  · rw [if_neg hclose] at hnext
    obtain ⟨name, hname, hnext⟩ := except_bind_ok.1 hnext
    have hname' : e.name? = some name := Event.name_eq hname
    rw [write?, if_neg hclose, hname', Option.bind_some]
    cases hfield : r.fields?.bind (Schema.field? · name) with
    | none =>
      rw [hfield] at hnext
      cases hnext
    | some found =>
      obtain ⟨index, kind⟩ := found
      rw [hfield] at hnext
      obtain ⟨hkind, value, hat⟩ := h.exists_field hfield
      obtain ⟨kind', hkind', hof⟩ := exists_kind h.kinds hat
      obtain rfl := Option.some.inj (hkind.symm.trans hkind')
      cases kind with
      | mask names =>
        obtain rfl := Except.ok.inj hnext
        refine .write h hat rfl hkind (.mask 0 names)
          (records_modifyValue (r := { r with path := r.path ++ [index] }) hrec hat _)
          fun fields _ hat => ?_
        exact ⟨_, _, hkind, hat, .mask 0 names⟩
      | _ =>
        obtain rfl := Except.ok.inj hnext
        exact .keep h hrec ⟨_, _, hkind, hat, hof⟩

theorem reactObject_continues {x : RecordExpect} (h : r.Conforms x record)
    (hrec : s.controller.records[r.id.index]? = some record) (hkind : r.kind? = some .object)
    {value : Value} (hat : record.fields.at? r.path = some value) {next : BodyStep η}
    (hnext : r.reactObject e s = .ok next) :
    Continues r record (e.name?.bind fun reference =>
      if reference = "null" then some (r.path, .set (.object none))
      else (s.resolve reference .object).1.map fun asset => (r.path, .set (.object (some asset))))
      next := by
  unfold reactObject at hnext
  cases hname : e.name? with
  | none =>
    rw [hname] at hnext
    cases hnext
  | some reference =>
    rw [hname] at hnext
    dsimp only at hnext
    rw [Option.bind_some]
    by_cases hnull : reference = "null"
    · rw [if_pos hnull] at hnext ⊢
      obtain rfl := Except.ok.inj hnext
      refine .write h hat rfl hkind (.object none) (records_modifyValue hrec hat _) fun fields _ hat => ?_
      exact ⟨_, _, hkind, hat, .object none⟩
    · rw [if_neg hnull] at hnext ⊢
      have hrec' : (s.resolve reference .object).2.controller.records[r.id.index]? = some record := hrec
      rcases hresolve : s.resolve reference .object with ⟨_ | asset, s₁⟩
      · rw [hresolve] at hnext hrec'
        obtain rfl := Except.ok.inj hnext
        obtain ⟨kind, hkind', hof⟩ := exists_kind h.kinds hat
        exact .keep h hrec' ⟨kind, value, hkind', hat, hof⟩
      · rw [hresolve] at hnext hrec'
        obtain rfl := Except.ok.inj hnext
        refine .write h hat rfl hkind (.object (some asset)) (records_modifyValue hrec' hat _)
          fun fields _ hat => ?_
        exact ⟨_, _, hkind, hat, .object (some asset)⟩

omit [Host η] in
/-- The closing bracket of an array removes the item that was begun. -/
theorem continues_popItem {x : RecordExpect} (h : r.Conforms x record)
    (hrec : s.controller.records[r.id.index]? = some record) (hin : r.inArray = true)
    {value : Value} (hat : record.fields.at? r.path = some value) :
    Continues r record (some (r.path.dropLast, .pop))
      (r.pop, .afterValue, r.pop.modifyValue s (·.popItem)) := by
  obtain ⟨element, hkind⟩ : ∃ element, r.schema.kindAt? r.path.dropLast = some (.array element) := by
    unfold inArray at hin
    split at hin
    · exact ⟨_, ‹_›⟩
    · cases hin
  rcases exists_pop hat with hp | ⟨outer, i, houter, -, hitem⟩
  · rw [show r.path.dropLast = [] from hp] at hkind
    cases hkind
  obtain ⟨kind, hkind', hof⟩ := exists_kind h.kinds houter
  obtain rfl : FieldKind.array element = kind := Option.some.inj (hkind.symm.trans hkind')
  cases hof with
  | @array items _ hitems =>
    have hnonempty : items.isEmpty = false := by
      cases items with
      | nil => simp [Value.below?] at hitem
      | cons _ _ => rfl
    have hrest : (Value.array items.dropLast).OfKind (.array element) :=
      .array fun item hmem => hitems item (List.dropLast_subset _ hmem)
    refine .write h houter (by simp [Write.result?, hnonempty]) hkind hrest
      (records_modifyValue (r := r.pop) hrec houter _) fun fields _ hat => ?_
    exact ⟨_, _, hkind, hat, hrest⟩

omit [Host η] in
theorem continues_scalar {x : RecordExpect} (h : r.Conforms x record)
    (hrec : s.controller.records[r.id.index]? = some record) {kind : FieldKind}
    (hkind : r.kind? = some kind) {value : Value} (hat : record.fields.at? r.path = some value)
    {next : BodyStep η}
    (hnext : (match scalar? e kind with
      | some value => .ok (r, .afterValue, r.modifyValue s fun _ => value)
      | none => .error (e.invalidValue s!"a {kind.noun}") : Except Diagnostic (BodyStep η)) = .ok next) :
    Continues r record ((scalar? e kind).map fun value => (r.path, .set value)) next := by
  cases hscalar : scalar? e kind with
  | none =>
    rw [hscalar] at hnext
    cases hnext
  | some value =>
    rw [hscalar] at hnext
    obtain rfl := Except.ok.inj hnext
    have hof := scalar?_ofKind hscalar
    refine .write h hat rfl hkind hof (records_modifyValue hrec hat _) fun fields _ hat => ?_
    exact ⟨_, _, hkind, hat, hof⟩

theorem reactValue_continues (h : r.Conforms .value record)
    (hrec : s.controller.records[r.id.index]? = some record) {next : BodyStep η}
    (hnext : r.reactValue e s = .ok next) : Continues r record (r.write? e s .value) next := by
  obtain ⟨kind, value, hkind, hat, hof⟩ := h.placed
  unfold reactValue at hnext
  rw [write?, hkind, Option.bind_some]
  rw [hkind] at hnext
  dsimp only at hnext
  by_cases hclose : (e.isSymbol ']' && r.inArray) = true
  · rw [if_pos hclose] at hnext ⊢
    obtain rfl := Except.ok.inj hnext
    exact continues_popItem h hrec (Bool.and_eq_true_iff.1 hclose).2 hat
  rw [if_neg hclose] at hnext ⊢
  cases kind with
  | record schema =>
    dsimp only at hnext
    split at hnext
    · obtain rfl := Except.ok.inj hnext
      obtain ⟨inner, rfl⟩ := hof.exists_record
      exact .keep h hrec (.inr ⟨schema, inner, hkind, hat⟩)
    · cases hnext
  | array element =>
    dsimp only at hnext ⊢
    split at hnext
    · obtain rfl := Except.ok.inj hnext
      obtain ⟨items, rfl, -⟩ := hof.exists_array
      rw [if_pos ‹_›]
      exact continues_pushItem h hrec rfl hkind hat
    · cases hnext
  | mask names =>
    dsimp only at hnext ⊢
    cases hbits : maskBits? e names with
    | none =>
      rw [hbits] at hnext
      cases hnext
    | some bits =>
      rw [hbits] at hnext
      obtain rfl := Except.ok.inj hnext
      cases hof with
      | mask old =>
        refine .write h hat rfl hkind (.mask _ names) (records_modifyValue hrec hat _)
          fun fields _ hat => ?_
        exact ⟨_, _, hkind, hat, .mask _ names⟩
  | object => exact reactObject_continues h hrec hkind hat hnext
  | _ => exact continues_scalar h hrec hkind hat hnext

/-- A mask may have further bits, an array further items. -/
theorem reactAfterValue_continues (h : r.Conforms .afterValue record)
    (hrec : s.controller.records[r.id.index]? = some record) {next : BodyStep η}
    (hnext : r.reactAfterValue e s = .ok next) :
    Continues r record (r.write? e s .afterValue) next := by
  obtain ⟨kind, value, hkind, hat, hof⟩ := h.placed
  unfold reactAfterValue at hnext
  extract_lets isMask at hnext
  by_cases hstop : e.isSymbol ';' = true
  · have hcomma : e.isSymbol ',' = false := by
      simp only [Token.isSymbol, Bool.and_eq_true, beq_iff_eq] at hstop ⊢
      simp [hstop.2]
    rw [hcomma, Bool.false_and, if_neg Bool.false_ne_true, hstop, if_neg (by simp)] at hnext
    rw [write?, if_pos hstop]
    by_cases harray : ∃ element, r.pop.kind? = some (.array element)
    · obtain ⟨element, hpop⟩ := harray
      rw [hpop] at hnext ⊢
      obtain rfl := Except.ok.inj hnext
      obtain ⟨items, hitems⟩ := exists_items h.kinds hat hpop
      exact continues_pushItem h hrec rfl hpop hitems
    · have hnone : r.pop.kind?.bind FieldKind.element? = none := by
        cases hpop : r.pop.kind? with
        | none => rfl
        | some outer =>
          cases outer with
          | array element => exact absurd ⟨element, hpop⟩ harray
          | _ => rfl
      rw [hnone]
      split at hnext
      · exact absurd ⟨_, ‹_›⟩ harray
      · obtain rfl := Except.ok.inj hnext
        exact .keep h hrec (placed_pop h.kinds hat fun element hpop => harray ⟨element, hpop⟩)
  · rw [write?, if_neg hstop]
    by_cases hcomma : (e.isSymbol ',' && isMask) = true
    · rw [if_pos hcomma] at hnext
      obtain rfl := Except.ok.inj hnext
      exact .keep h hrec ⟨kind, value, hkind, hat, hof⟩
    · rw [if_neg hcomma, if_pos (by simpa using hstop)] at hnext
      cases hnext

end

/-! ## Every token -/

section

variable {η : Type} [Host η] {s s' : Session η} {e : Event}

/-- An open record conforms, and no token fails because there is no field to give a value to. -/
theorem Conforms.react_continues {expect : RecordExpect} (h : r.Conforms expect record)
    (hrec : s.controller.records[r.id.index]? = some record) {rule : RecordRule}
    {control : Control Frame} (hstep : (RecordRule.body r expect).react e s = .ok (rule, s', control)) :
    ∃ r' expect', rule = .body r' expect' ∧
      Continues r record (r.write? e s expect) (r', expect', s') := by
  cases expect with
  | field =>
    obtain ⟨next, hnext, hstep⟩ := except_map_ok.1 hstep
    obtain ⟨rfl, rfl, -⟩ := by simpa using hstep
    exact ⟨_, _, rfl, reactField_continues h hrec hnext⟩
  | operator =>
    simp only [RecordRule.react] at hstep
    split at hstep
    · obtain ⟨rfl, rfl, -⟩ := by simpa using hstep
      exact ⟨_, _, rfl, .keep h hrec h.placed⟩
    · cases hstep
  | value =>
    obtain ⟨next, hnext, hstep⟩ := except_map_ok.1 hstep
    obtain ⟨rfl, rfl, -⟩ := by simpa using hstep
    exact ⟨_, _, rfl, reactValue_continues h hrec hnext⟩
  | afterValue =>
    obtain ⟨next, hnext, hstep⟩ := except_map_ok.1 hstep
    obtain ⟨rfl, rfl, -⟩ := by simpa using hstep
    exact ⟨_, _, rfl, reactAfterValue_continues h hrec hnext⟩
  | stop =>
    simp only [RecordRule.react] at hstep
    split at hstep
    · obtain ⟨rfl, rfl, -⟩ := by simpa using hstep
      exact ⟨_, _, rfl, .keep h hrec h.placed⟩
    · cases hstep

/-- A value that does not fit is the only reason for which a value is refused. -/
theorem reactValue_error {kind : FieldKind} (hkind : r.kind? = some kind) {d : Diagnostic}
    (h : r.reactValue e s = .error d) : d.code = some .invalidValue := by
  unfold reactValue at h
  rw [hkind] at h
  dsimp only at h
  have hscalar : (match scalar? e kind with
      | some value => .ok (r, .afterValue, r.modifyValue s fun _ => value)
      | none => .error (e.invalidValue s!"a {kind.noun}") : Except Diagnostic (BodyStep η)) =
        .error d → d.code = some .invalidValue := by
    intro h
    split at h <;> cases h
    rfl
  split at h
  · cases h
  · cases kind with
    | record schema =>
      dsimp only at h
      split at h
      · cases h
      · exact hscalar h
    | array element =>
      dsimp only at h
      split at h
      · cases h
      · exact hscalar h
    | mask names =>
      dsimp only at h
      split at h <;> cases h
      rfl
    | object =>
      dsimp only [reactObject] at h
      split at h
      · cases h
        rfl
      · split at h
        · cases h
        · split at h <;> cases h
    | _ => exact hscalar h

/-- Why the rule of an open record refuses a token: the name is that of no field, the value does not
fit, or the token is none of those that the rule waits for. -/
theorem Conforms.react_error {expect : RecordExpect} (h : r.Conforms expect record) {d : Diagnostic}
    (herror : (RecordRule.body r expect).react e s = .error d) :
    d.code = some .unknownField ∨ d.code = some .invalidValue ∨
      ∃ expected ∈ ["a field name or `\x7d`", "`=`", "`;`"], d = e.unexpected expected := by
  have hmap {x : Except Diagnostic (BodyStep η)} {f : BodyStep η → Step RecordRule η}
      (h : x.map f = .error d) : x = .error d := by
    cases x <;> cases h
    rfl
  cases expect with
  | field =>
    have herror := hmap herror
    unfold reactField at herror
    split at herror
    · cases herror
    · cases hname : e.name? with
      | none =>
        simp only [Event.name, hname, bind, Except.bind] at herror
        cases herror
        exact .inr (.inr ⟨_, by simp, rfl⟩)
      | some name =>
        simp only [Event.name, hname, bind, Except.bind] at herror
        split at herror
        · cases herror
          exact .inl rfl
        · split at herror <;> cases herror
  | value =>
    obtain ⟨kind, value, hkind, -⟩ := h.placed
    exact .inr (.inl (reactValue_error hkind (hmap herror)))
  | afterValue =>
    have herror := hmap herror
    unfold reactAfterValue at herror
    extract_lets isMask at herror
    split at herror
    · cases herror
    · split at herror
      · cases herror
        exact .inr (.inr ⟨_, by simp, rfl⟩)
      · split at herror <;> cases herror
  | operator | stop =>
    simp only [RecordRule.react] at herror
    split at herror <;> cases herror
    exact .inr (.inr ⟨_, by simp, rfl⟩)

/-- No token is refused because the indices lead to no field. -/
theorem Conforms.react_ne_no_field {expect : RecordExpect} (h : r.Conforms expect record) :
    (RecordRule.body r expect).react e s ≠ .error (e.unexpected "a field") := by
  intro herror
  rcases h.react_error herror with hcode | hcode | ⟨expected, hmem, hd⟩
  · cases hcode
  · cases hcode
  · rw [← e.unexpected_injective hd] at hmem
    exact absurd hmem (by decide)

end

end OpenRecord

/-! ## Whole records -/

theorem except_exists_ok {ε α : Type} {x : Except ε α} (h : x.isOk = true) : ∃ a, x = .ok a := by
  cases x with
  | error => cases h
  | ok a => exact ⟨a, rfl⟩

namespace RecordRule

variable {η : Type} [Host η]

/-- The rule of a record and the session behind some tokens. -/
def feed (rule : RecordRule) (s : Session η) : List Event → Except Diagnostic (RecordRule × Session η)
  | [] => .ok (rule, s)
  | e :: events => do
    let (rule, s, _) ← rule.react e s
    rule.feed s events

theorem attach_records (s : Session η) (scope : Scope) (record : Record) :
    (attach s scope record).2.controller.records = s.controller.records.push record := by
  unfold attach
  cases scope.state <;> rfl

/-- A record starts as the last one of the table, with the zero values of its schema. -/
theorem openBody_new {outer : Option Scope} {name : String} {e : Event} {s s' : Session η}
    {rule : RecordRule} {control : Control Frame}
    (h : openBody outer name e s = .ok (rule, s', control)) :
    ∃ schema, Host.schema? s.host name = some schema ∧
      rule = .body ⟨name, schema, ⟨s.controller.records.size⟩, []⟩ .field ∧
      s'.controller.records[s.controller.records.size]? = some (.new name schema) := by
  unfold openBody at h
  cases hschema : Host.schema? s.host name with
  | none =>
    rw [hschema] at h
    cases h
  | some schema =>
    rw [hschema] at h
    cases outer with
    | none => cases h
    | some scope =>
      obtain ⟨rfl, rfl, -⟩ := by simpa using h
      exact ⟨schema, rfl, rfl, by rw [attach_records, Array.getElem?_push_size]⟩

theorem openBody_conforms {outer : Option Scope} {name : String} {e : Event} {s s' : Session η}
    {rule : RecordRule} {control : Control Frame}
    (h : openBody outer name e s = .ok (rule, s', control)) :
    ∃ r record, rule = .body r .field ∧ Host.schema? s.host name = some r.schema ∧
      s'.controller.records[r.id.index]? = some record ∧ r.Conforms .field record := by
  obtain ⟨schema, hschema, rfl, hrec⟩ := openBody_new h
  exact ⟨_, .new name schema, rfl, hschema, hrec, rfl, rfl, FieldKind.zeroFields_ofKind schema, .inl rfl⟩

/-- From its opening brace on, a record fits its schema after any tokens: it has the fields of the
schema in order, each with a value of its kind, and the indices that the rule keeps lead to a record
where a name is expected, to a value of the kind that the schema gives there where an operator, a
value or the end of a value is expected, and nowhere where the record has ended. So no token is
refused because there is no field, and every change of a value that a token asks for has its
effect. -/
theorem feed_conforms {outer : Option Scope} {name : String} {e : Event} {s s₁ s₂ : Session η}
    {rule rule' : RecordRule} {control : Control Frame} {events : List Event}
    (hopen : openBody outer name e s = .ok (rule, s₁, control))
    (hfeed : rule.feed s₁ events = .ok (rule', s₂)) :
    ∃ r expect record, rule' = .body r expect ∧ Host.schema? s.host name = some r.schema ∧
      s₂.controller.records[r.id.index]? = some record ∧ r.Conforms expect record ∧
      (∀ e, rule'.react e s₂ ≠ .error (e.unexpected "a field")) ∧
      ∀ e rule'' s₃ control, rule'.react e s₂ = .ok (rule'', s₃, control) →
        ∃ record', s₃.controller.records[r.id.index]? = some record' ∧
          OpenRecord.TakesEffect record.fields record'.fields (r.write? e s₂ expect) := by
  obtain ⟨r, record, rfl, hschema, hrec, hr⟩ := openBody_conforms hopen
  clear hopen
  -- By induction on the tokens, from any state of the rule that conforms.
  generalize RecordExpect.field = expect at hr hfeed
  induction events generalizing r record expect s₁ with
  | nil =>
    obtain ⟨rfl, rfl⟩ := Prod.mk.inj (Except.ok.inj hfeed)
    refine ⟨r, expect, record, rfl, hschema, hrec, hr, fun e => hr.react_ne_no_field, ?_⟩
    intro e rule'' s₃ control hstep
    obtain ⟨r', expect', -, -, -, record', hrec', -, heffect⟩ := hr.react_continues hrec hstep
    exact ⟨record', hrec', heffect⟩
  | cons e events ih =>
    obtain ⟨⟨rule, s', control⟩, hstep, hfeed⟩ := except_bind_ok.1 hfeed
    obtain ⟨r', expect', rfl, hid, hschema', record', hrec', hr', -⟩ := hr.react_continues hrec hstep
    have hrec' : s'.controller.records[r'.id.index]? = some record' := by rw [hid, hrec']
    exact ih r' record' (hschema'.symm ▸ hschema) hrec' expect' hr' hfeed

/-- A session with a type whose records list records with masks. -/
def listedMasks : Session MemoryHost where
  controller := { name := "Hero", machines := #[{ name := "L" }] }
  host := { registry := ⟨[("T", [("items", .array (.record [("bits", .mask ["low", "high"])]))])]⟩ }

/-- The tokens of a record of that type. -/
def listedTokens : List Event :=
  Event.ofTokens
    (Lexer.tokenize .document "items = [ \x7b bits = low, high; \x7d; \x7b \x7d; ]; \x7d").tokens

theorem feed_conforms_listed :
    ∃ rule s₁ control rule' s₂,
      openBody (some ⟨[], 0, ⟨0⟩, none, .root⟩) "T"
        ⟨⟨.symbol, "\x7b", ⟨0, 1⟩, ⟨0, 0⟩⟩, true, 0⟩ listedMasks = .ok (rule, s₁, control) ∧
      rule.feed s₁ listedTokens = .ok (rule', s₂) ∧
      ∃ r expect record, rule' = .body r expect ∧
        s₂.controller.records[r.id.index]? = some record ∧ r.Conforms expect record := by
  obtain ⟨⟨rule', s₂⟩, hboth⟩ : ∃ next, (openBody (some ⟨[], 0, ⟨0⟩, none, .root⟩) "T"
      ⟨⟨.symbol, "\x7b", ⟨0, 1⟩, ⟨0, 0⟩⟩, true, 0⟩ listedMasks >>= fun step =>
        step.1.feed step.2.1 listedTokens) = .ok next :=
    except_exists_ok (by decide +kernel)
  obtain ⟨⟨rule, s₁, control⟩, hopen, hfeed⟩ := except_bind_ok.1 hboth
  obtain ⟨r, expect, record, hrule, -, hrec, hr, -⟩ := feed_conforms hopen hfeed
  exact ⟨rule, s₁, control, rule', s₂, hopen, hfeed, r, expect, record, hrule, hrec, hr⟩

end RecordRule

end MotionScript
