import MotionScript.Proofs.Records.Spelling
/-!
# One token of a record

What each token does to the values of an open record and to the rule, in terms of what the token spells.
-/

namespace MotionScript

namespace OpenRecord

variable {η : Type} [Host η] {r : OpenRecord} {s s' : Session η} {root : Value} {e : Event}

/-- A rule within a record that conforms and whose fields are those of `root`. -/
def Holds (r : OpenRecord) (expect : RecordExpect) (s : Session η) (root : Value) : Prop :=
  ∃ record, s.controller.records[r.id.index]? = some record ∧ r.Conforms expect record ∧
    Value.record record.fields = root

omit [Host η] in
theorem Continues.holds_keep {record : Record} {next : BodyStep η}
    (h : Continues r record none next) :
    next.1.Holds next.2.1 next.2.2 (.record record.fields) := by
  obtain ⟨hid, -, record', hrec, hconforms, heffect⟩ := h
  exact ⟨record', by rw [hid, hrec], hconforms, congrArg Value.record heffect⟩

omit [Host η] in
theorem Continues.holds_write {record : Record} {path : List Nat} {write : Write} {next : BodyStep η}
    (h : Continues r record (some (path, write)) next) {f : Value → Value}
    (hf : ∀ old new, write.result? old = some new → f old = new) :
    next.1.Holds next.2.1 next.2.2 ((Value.record record.fields).modifyBelow f path) := by
  obtain ⟨hid, -, record', hrec, hconforms, old, new, hat, hnew, hfields, -⟩ := h
  refine ⟨record', by rw [hid, hrec], hconforms, ?_⟩
  rw [hfields, Fields.record_modifyAt _ (Fields.ne_nil_of_at? hat)]
  exact Value.modifyBelow_congr (Fields.below?_of_at? hat) (hf old new hnew).symm

/-! ## One token -/

/-- What a token where a value is expected does. -/
inductive ValueStep (r : OpenRecord) (kind : FieldKind) (root : Value) (e : Event) (s s' : Session η) :
    RecordRule → Prop
  | close (hclose : (e.isSymbol ']' && r.inArray) = true) (hhost : s'.host = s.host)
    (h : r.pop.Holds .afterValue s' (root.modifyBelow Value.popItem r.pop.path)) :
    ValueStep r kind root e s s' (.body r.pop .afterValue)
  | plain {w : ValueTree} (hmask : ∀ names, kind ≠ .mask names)
    (hspells : ∀ rest, SpellsValue r.inArray kind s.host (e :: rest) w s'.host rest)
    (h : r.Holds .afterValue s' (root.modifyBelow (w.assign kind) r.path)) :
    ValueStep r kind root e s s' (.body r .afterValue)
  | bits {names : List String} {bits : UInt64} (hkind : kind = .mask names)
    (hitem : (e.isSymbol ']' && r.inArray) = false) (hbits : maskBits? e names = some bits)
    (hhost : s'.host = s.host)
    (h : r.Holds .afterValue s' (root.modifyBelow (·.addBits bits) r.path)) :
    ValueStep r kind root e s s' (.body r .afterValue)
  | record {schema : Schema} (hkind : kind = .record schema) (hbrace : e.isSymbol '{' = true)
    (hhost : s'.host = s.host) (h : r.Holds .field s' root) :
    ValueStep r kind root e s s' (.body r .field)
  | array {element : FieldKind} {items : List Value} (hkind : kind = .array element)
    (hitems : root.below? r.path = some (.array items)) (hbracket : e.isSymbol '[' = true) (hhost : s'.host = s.host)
    (h : (r.below items.length).Holds .value s'
      (root.modifyBelow (·.pushItem element.zero) r.path)) :
    ValueStep r kind root e s s' (.body (r.below items.length) .value)

omit [Host η] in
theorem pushItem_eq {record : Record} (hrec : s.controller.records[r.id.index]? = some record)
    {items : List Value} (hitems : record.fields.at? r.path = some (.array items))
    (element : FieldKind) : r.pushItem s element =
      (r.below items.length, r.modifyValue s (·.pushItem element.zero)) := by
  have hget : (s.controller.record r.id).fields.at? r.path = some (.array items) := by
    simp [Controller.record, Array.getD_eq_getD_getElem?, hrec, hitems]
  simp only [pushItem, hget]
  rfl

theorem Write.set_result (value : Value) (f : Value → Value) (hf : ∀ old, f old = value) :
    ∀ old new, (Write.set value).result? old = some new → f old = new := by
  rintro old new hnew
  rw [hf, Option.some.inj hnew]

theorem scalar_step {kind : FieldKind} {record : Record}
    (hmask : ∀ names, kind ≠ .mask names) (hitem : (e.isSymbol ']' && r.inArray) = false)
    {next : BodyStep η}
    (hnext : (match scalar? e kind with
      | some value => .ok (r, .afterValue, r.modifyValue s fun _ => value)
      | none => .error (e.invalidValue s!"a {kind.noun}") : Except Diagnostic (BodyStep η)) = .ok next)
    (hc : Continues r record ((scalar? e kind).map fun value => (r.path, .set value)) next) :
    ValueStep r kind (.record record.fields) e s next.2.2 (.body next.1 next.2.1) := by
  cases hscalar : scalar? e kind with
  | none =>
    rw [hscalar] at hnext
    cases hnext
  | some value =>
    rw [hscalar] at hnext hc
    obtain rfl := Except.ok.inj hnext
    exact .plain hmask (fun _ => .scalar hitem hscalar)
      (hc.holds_write (Write.set_result value _ fun _ => rfl))

theorem object_step {record : Record} (hitem : (e.isSymbol ']' && r.inArray) = false)
    {next : BodyStep η} (hnext : r.reactObject e s = .ok next)
    (hc : Continues r record (e.name?.bind fun reference =>
      if reference = "null" then some (r.path, .set (.object none))
      else (s.resolve reference .object).1.map fun asset => (r.path, .set (.object (some asset))))
      next)
    {v : Value} (hv : (Value.record record.fields).below? r.path = some v) :
    ValueStep r .object (.record record.fields) e s next.2.2 (.body next.1 next.2.1) := by
  unfold reactObject at hnext
  cases hname : e.name? with
  | none =>
    rw [hname] at hnext
    cases hnext
  | some reference =>
    rw [hname] at hnext hc
    rw [Option.bind_some] at hc
    dsimp only at hnext
    by_cases hnull : reference = "null"
    · rw [if_pos hnull] at hnext hc
      obtain rfl := Except.ok.inj hnext
      exact .plain (by simp) (fun _ => .null hitem (hnull ▸ hname))
        (hc.holds_write (Write.set_result _ _ fun _ => rfl))
    · rw [if_neg hnull] at hnext hc
      rcases hresolve : Host.resolve s.host reference .object with ⟨_ | asset, host⟩
      · simp only [Session.resolve, hresolve] at hnext hc
        obtain rfl := Except.ok.inj hnext
        refine .plain (w := .missing) (by simp) (fun _ => .missing hitem hname hnull hresolve) ?_
        have hself : (Value.record record.fields).modifyBelow (ValueTree.missing.assign .object) r.path =
            .record record.fields :=
          (Value.modifyBelow_congr (g := fun _ => v) hv rfl).trans (Value.modifyBelow_self hv)
        rw [hself]
        exact hc.holds_keep
      · simp only [Session.resolve, hresolve] at hnext hc
        obtain rfl := Except.ok.inj hnext
        exact .plain (by simp) (fun _ => .found hitem hname hnull hresolve)
          (hc.holds_write (Write.set_result _ _ fun _ => rfl))

theorem Holds.value_step {kind : FieldKind} {rule : RecordRule} {control : Control Frame}
    (h : r.Holds .value s root) (hkind : r.kind? = some kind)
    (hstep : (RecordRule.body r .value).react e s = .ok (rule, s', control)) :
    ValueStep r kind root e s s' rule := by
  obtain ⟨record, hrec, hr, rfl⟩ := h
  obtain ⟨next, hnext, hstep⟩ := except_map_ok.1 hstep
  obtain ⟨rfl, rfl, -⟩ := by simpa using hstep
  have hc := reactValue_continues hr hrec hnext
  obtain ⟨kind', value, hkind', hat, hof⟩ := hr.placed
  obtain rfl := Option.some.inj (hkind.symm.trans hkind')
  rw [write?, hkind, Option.bind_some] at hc
  unfold reactValue at hnext
  rw [hkind] at hnext
  dsimp only at hnext
  -- A closing bracket is no item, whatever the kind of the items is.
  by_cases hclose : (e.isSymbol ']' && r.inArray) = true
  · rw [if_pos hclose] at hnext hc
    obtain rfl := Except.ok.inj hnext
    refine .close hclose rfl (hc.holds_write fun old new hnew => ?_)
    cases old with
    | array items =>
      simp only [Write.result?] at hnew
      split at hnew
      · cases hnew
      · exact Option.some.inj hnew
    | _ => cases hnew
  rw [if_neg hclose] at hnext hc
  have hitem : (e.isSymbol ']' && r.inArray) = false := Bool.not_eq_true _ ▸ hclose
  cases kind with
  | record schema =>
    dsimp only at hnext hc
    split at hnext
    · obtain rfl := Except.ok.inj hnext
      exact .record rfl ‹_› rfl hc.holds_keep
    · cases hnext
  | array element =>
    dsimp only at hnext hc
    split at hnext
    · rename_i hbracket
      obtain ⟨items, rfl, -⟩ := hof.exists_array
      rw [if_pos hbracket] at hc
      rw [pushItem_eq hrec hat] at hnext
      obtain rfl := Except.ok.inj hnext
      refine .array rfl (Fields.below?_of_at? hat) hbracket rfl (hc.holds_write fun old new hnew => ?_)
      cases old <;> cases hnew
      rfl
    · cases hnext
  | mask names =>
    dsimp only at hnext hc
    cases hbits : maskBits? e names with
    | none =>
      rw [hbits] at hnext
      cases hnext
    | some bits =>
      rw [hbits] at hnext hc
      obtain rfl := Except.ok.inj hnext
      refine .bits rfl hitem hbits rfl (hc.holds_write fun old new hnew => ?_)
      cases old <;> cases hnew
      rfl
  | object => exact object_step hitem hnext hc (Fields.below?_of_at? hat)
  | _ => exact scalar_step (by simp) hitem hnext hc

/-- What a token behind a value does. -/
inductive AfterStep (r : OpenRecord) (root : Value) (e : Event) (s s' : Session η) : RecordRule → Prop
  | comma {names : List String} (hkind : r.kind? = some (.mask names)) (hcomma : e.isSymbol ',' = true)
    (hhost : s'.host = s.host) (h : r.Holds .value s' root) :
    AfterStep r root e s s' (.body r .value)
  | item {element : FieldKind} {items : List Value} (hpop : r.pop.kind? = some (.array element))
    (hitems : root.below? r.pop.path = some (.array items)) (hsemicolon : e.isSymbol ';' = true)
    (hhost : s'.host = s.host)
    (h : (r.pop.below items.length).Holds .value s'
      (root.modifyBelow (·.pushItem element.zero) r.pop.path)) :
    AfterStep r root e s s' (.body (r.pop.below items.length) .value)
  | field (hpop : ∀ element, r.pop.kind? ≠ some (.array element)) (hsemicolon : e.isSymbol ';' = true)
    (hhost : s'.host = s.host) (h : r.pop.Holds .field s' root) :
    AfterStep r root e s s' (.body r.pop .field)

omit [Host η] in
theorem isSymbol_ne {c d : Char} (h : e.isSymbol c = true) (hne : c ≠ d) : e.isSymbol d = false := by
  simp only [Token.isSymbol, Bool.and_eq_true, beq_iff_eq] at h
  simp [Token.isSymbol, h.2, ← String.toList_inj, Char.toString, hne]

theorem Holds.after_step {rule : RecordRule} {control : Control Frame}
    (h : r.Holds .afterValue s root)
    (hstep : (RecordRule.body r .afterValue).react e s = .ok (rule, s', control)) :
    AfterStep r root e s s' rule := by
  obtain ⟨record, hrec, hr, rfl⟩ := h
  obtain ⟨next, hnext, hstep⟩ := except_map_ok.1 hstep
  obtain ⟨rfl, rfl, -⟩ := by simpa using hstep
  have hc := reactAfterValue_continues hr hrec hnext
  obtain ⟨kind, value, hkind, hat, -⟩ := hr.placed
  rw [write?] at hc
  unfold reactAfterValue at hnext
  extract_lets isMask at hnext
  by_cases hcomma : (e.isSymbol ',' && isMask) = true
  · rw [if_pos hcomma] at hnext
    rw [Bool.and_eq_true] at hcomma
    rw [isSymbol_ne hcomma.1 (by decide), if_neg Bool.false_ne_true] at hc
    obtain rfl := Except.ok.inj hnext
    have hmask : ∃ names, r.kind? = some (.mask names) := by
      have hm := hcomma.2
      dsimp only [isMask] at hm
      split at hm
      · exact ⟨_, ‹_›⟩
      · cases hm
    obtain ⟨names, hmask⟩ := hmask
    exact .comma hmask hcomma.1 rfl hc.holds_keep
  · rw [if_neg hcomma] at hnext
    cases hsemicolon : e.isSymbol ';' with
    | false =>
      rw [hsemicolon, Bool.not_false, if_pos rfl] at hnext
      cases hnext
    | true =>
      rw [hsemicolon, if_pos rfl] at hc
      rw [hsemicolon, Bool.not_true, if_neg Bool.false_ne_true] at hnext
      by_cases harray : ∃ element, r.pop.kind? = some (.array element)
      · obtain ⟨element, hpop⟩ := harray
        rw [hpop] at hnext hc
        obtain ⟨items, hitems⟩ := exists_items hr.kinds hat hpop
        simp only [pushItem_eq (r := r.pop) hrec hitems] at hnext
        obtain rfl := Except.ok.inj hnext
        refine .item hpop (Fields.below?_of_at? hitems) hsemicolon rfl
          (hc.holds_write fun old new hnew => ?_)
        cases old <;> cases hnew
        rfl
      · have hnone : r.pop.kind?.bind FieldKind.element? = none := by
          cases hpop : r.pop.kind? with
          | none => rfl
          | some outer =>
            cases outer with
            | array element => exact absurd ⟨element, hpop⟩ harray
            | _ => rfl
        rw [hnone] at hc
        split at hnext
        · exact absurd ⟨_, ‹_›⟩ harray
        · obtain rfl := Except.ok.inj hnext
          exact .field (fun element hpop => harray ⟨element, hpop⟩) hsemicolon rfl hc.holds_keep

/-- What is expected behind the brace that closes a record. -/
def behind (r : OpenRecord) : RecordExpect := if r.path.isEmpty then .stop else .afterValue

/-- What a token where a name is expected does. -/
inductive FieldStep (r : OpenRecord) (root : Value) (e : Event) (s s' : Session η) : RecordRule → Prop
  | close (hbrace : e.isSymbol '}' = true) (hhost : s'.host = s.host) (h : r.Holds r.behind s' root) :
    FieldStep r root e s s' (.body r r.behind)
  | name {name : String} {schema : Schema} {index : Nat} {kind : FieldKind}
    (hname : e.name? = some name) (hschema : r.fields? = some schema)
    (hfield : schema.field? name = some (index, kind)) (hhost : s'.host = s.host)
    (h : (r.below index).Holds .operator s' (root.modifyBelow kind.named (r.below index).path)) :
    FieldStep r root e s s' (.body (r.below index) .operator)

theorem Holds.field_step {rule : RecordRule} {control : Control Frame}
    (h : r.Holds .field s root)
    (hstep : (RecordRule.body r .field).react e s = .ok (rule, s', control)) :
    FieldStep r root e s s' rule := by
  obtain ⟨record, hrec, hr, rfl⟩ := h
  obtain ⟨next, hnext, hstep⟩ := except_map_ok.1 hstep
  obtain ⟨rfl, rfl, -⟩ := by simpa using hstep
  have hc := reactField_continues hr hrec hnext
  rw [write?] at hc
  unfold reactField at hnext
  by_cases hbrace : e.isSymbol '}' = true
  · rw [if_pos hbrace] at hnext hc
    obtain rfl := Except.ok.inj hnext
    exact .close hbrace rfl hc.holds_keep
  · rw [if_neg hbrace] at hnext hc
    obtain ⟨name, hname, hnext⟩ := except_bind_ok.1 hnext
    have hname' : e.name? = some name := Event.name_eq hname
    rw [hname', Option.bind_some] at hc
    cases hfield : r.fields?.bind (Schema.field? · name) with
    | none =>
      rw [hfield] at hnext
      cases hnext
    | some found =>
      obtain ⟨index, kind⟩ := found
      rw [hfield] at hnext hc
      obtain ⟨schema, hschema, hfield'⟩ := Option.bind_eq_some_iff.1 hfield
      obtain ⟨-, value, hat⟩ := hr.exists_field hfield
      have hself (hnamed : kind.named value = value) :
          (Value.record record.fields).modifyBelow kind.named (r.below index).path =
            .record record.fields :=
        (Value.modifyBelow_congr (g := fun _ => value) (Fields.below?_of_at? hat) hnamed).trans
          (Value.modifyBelow_self (Fields.below?_of_at? hat))
      cases kind with
      | mask names =>
        obtain rfl := Except.ok.inj hnext
        exact .name hname' hschema hfield' rfl
          (hc.holds_write (Write.set_result _ _ fun _ => rfl))
      | _ =>
        obtain rfl := Except.ok.inj hnext
        exact .name hname' hschema hfield' rfl (by rw [hself rfl]; exact hc.holds_keep)

theorem Holds.operator_step {rule : RecordRule} {control : Control Frame}
    (h : r.Holds .operator s root)
    (hstep : (RecordRule.body r .operator).react e s = .ok (rule, s', control)) :
    e.isSymbol '=' = true ∧ rule = .body r .value ∧ s' = s ∧ r.Holds .value s root := by
  obtain ⟨record, hrec, hr, rfl⟩ := h
  simp only [RecordRule.react] at hstep
  split at hstep
  · obtain ⟨rfl, rfl, -⟩ := by simpa using hstep
    exact ⟨‹_›, rfl, rfl, record, hrec, ⟨hr.typeName, hr.schema, hr.kinds, hr.placed⟩, rfl⟩
  · cases hstep

end OpenRecord

end MotionScript
