import MotionScript.Proofs.Records.Reading
/-!
# Arrays hold what was written

The values of a record, from the trees that its tokens spell: every field by itself, whatever stands
between its assignments. An array holds the items of all its assignments, so it is what was last written
if nothing is written for it before.
-/

namespace MotionScript

/-! ## Values of fields -/

namespace ValueTree

def plain? : ValueTree → Option Value
  | plain value => some value
  | _ => none

def bits : ValueTree → UInt64
  | mask bits => bits
  | _ => 0

def entries : ValueTree → List (Nat × ValueTree)
  | record entries => entries
  | _ => []

def items : ValueTree → List ValueTree
  | array items _ => items
  | _ => []

/-- The bits of an item without an end. -/
def loose : ValueTree → Option UInt64
  | array _ loose => loose
  | _ => none

/-- What is written for one field. -/
def ofField (index : Nat) (entries : List (Nat × ValueTree)) : List ValueTree :=
  entries.filterMap fun (i, w) => if i = index then some w else none

/-- The items of all assignments. -/
def allItems (ws : List ValueTree) : List ValueTree := ws.flatMap items

/-- All that is written between the brackets of the last assignment. -/
def lastItems (ws : List ValueTree) : List ValueTree :=
  match ws.getLast? with
  | some w => w.items ++ (w.loose.map mask).toList
  | none => []

end ValueTree

open ValueTree

namespace FieldKind

mutual

/-- The value of what is written for it, one assignment after the other, where an array has the items
that are `chosen` of its assignments: a record has for each field what all its assignments write for
it, and a reference that is not found leaves what was there. -/
def valueOf (chosen : List ValueTree → List ValueTree) : FieldKind → List ValueTree → Value
  | .record schema, ws => .record (fieldsOf chosen schema 0 (ws.flatMap entries))
  | .array element, ws => .array ((chosen ws).map fun w => valueOf chosen element [w])
  | .mask _, ws => .mask ((ws.getLast?.map bits).getD 0)
  | kind, ws => (ws.reverse.findSome? plain?).getD kind.zero

/-- The values of fields from an index on. -/
def fieldsOf (chosen : List ValueTree → List ValueTree) :
    List (String × FieldKind) → Nat → List (Nat × ValueTree) → Fields
  | [], _, _ => []
  | (name, kind) :: schema, index, entries =>
    (name, valueOf chosen kind (ofField index entries)) :: fieldsOf chosen schema (index + 1) entries

end

mutual

/-- Whether arrays are written once: before the last assignment no items are, and in the last one there
is no item without an end. -/
def Once : FieldKind → List ValueTree → Prop
  | .record schema, ws => FieldsOnce schema 0 (ws.flatMap entries)
  | .array element, ws => (∀ w ∈ ws.dropLast, w.items = []) ∧ (∀ w ∈ ws.getLast?, w.loose = none) ∧
    ∀ item ∈ allItems ws, Once element [item]
  | _, _ => True

def FieldsOnce : List (String × FieldKind) → Nat → List (Nat × ValueTree) → Prop
  | [], _, _ => True
  | (_, kind) :: schema, index, entries =>
    Once kind (ofField index entries) ∧ FieldsOnce schema (index + 1) entries

end

/-! ## Zero values -/

mutual

theorem valueOf_nil (chosen : List ValueTree → List ValueTree) (h : chosen [] = []) :
    ∀ kind : FieldKind, valueOf chosen kind [] = kind.zero
  | .bool | .integer | .float | .string | .enum _ | .object | .mask _ => by
    simp [valueOf, zero]
  | .record schema => by
    rw [valueOf, zero, List.flatMap_nil, fieldsOf_nil chosen h schema]
  | .array _ => by rw [valueOf, zero, h, List.map_nil]

theorem fieldsOf_nil (chosen : List ValueTree → List ValueTree) (h : chosen [] = []) :
    ∀ (schema : List (String × FieldKind)) (index : Nat),
      fieldsOf chosen schema index [] = zeroFields schema
  | [], _ => by rw [fieldsOf, zeroFields]
  | (_, kind) :: schema, index => by
    rw [fieldsOf, zeroFields, ofField, List.filterMap_nil, valueOf_nil chosen h kind,
      fieldsOf_nil chosen h schema]

end

theorem zero_named : ∀ kind : FieldKind, kind.named kind.zero = kind.zero
  | .mask _ => by rw [named, zero]
  | .bool | .integer | .float | .string | .enum _ | .object | .record _ | .array _ => rfl

/-! ## Fields by index -/

section

variable {chosen : List ValueTree → List ValueTree} {schema : Schema} {entries : List (Nat × ValueTree)}
  {name : String} {kind : FieldKind}

theorem getElem?_fieldsOf (schema : List (String × FieldKind)) (first i : Nat) :
    (fieldsOf chosen schema first entries)[i]? =
      schema[i]?.map fun (name, kind) => (name, valueOf chosen kind (ofField (first + i) entries)) := by
  induction schema generalizing first i with
  | nil => rw [fieldsOf]; rfl
  | cons field schema ih =>
    rw [fieldsOf]
    cases i with
    | zero => rfl
    | succ i => rw [List.getElem?_cons_succ, List.getElem?_cons_succ, ih, Nat.add_right_comm, Nat.add_assoc]

theorem ofField_append (index : Nat) (entries more : List (Nat × ValueTree)) :
    ofField index (entries ++ more) = ofField index entries ++ ofField index more :=
  List.filterMap_append

/-- One more entry is about its own field only. -/
theorem assign_first {index : Nat} (hentry : schema[index]? = some (name, kind)) {w : ValueTree}
    {more : List (Nat × ValueTree)}
    (hassign : w.assign kind (kind.named (valueOf chosen kind (ofField index entries))) =
      valueOf chosen kind (ofField index entries ++ [w])) :
    assignEntries ((index, w) :: more) schema (fieldsOf chosen schema 0 entries) =
      assignEntries more schema (fieldsOf chosen schema 0 (entries ++ [(index, w)])) := by
  rw [assignEntries]
  congr 1
  refine List.ext_getElem? fun i => ?_
  rw [List.getElem?_modify, getElem?_fieldsOf, getElem?_fieldsOf, Nat.zero_add, ofField_append]
  by_cases hi : index = i
  · subst hi
    have hitem : ofField index [(index, w)] = [w] := by simp [ofField]
    simp only [hitem, hentry, Option.map_some, Option.map_eq_map, if_true, hassign]
  · simp [hi, ofField]

end

end FieldKind

/-! ## What is written, assigned -/

section

variable {η : Type} [Host η]

mutual

/-- A value that is assigned behind others. -/
theorem SpellsValue.assign_valueOf {inArray : Bool} {kind : FieldKind} {host host' : η}
    {tokens rest : List Event} {w : ValueTree} :
    SpellsValue inArray kind host tokens w host' rest → ∀ ws,
      w.assign kind (kind.named (kind.valueOf allItems ws)) = kind.valueOf allItems (ws ++ [w])
  | .scalar _ hvalue, ws => by
    cases kind with
    | record | array | mask | object => cases hvalue
    | _ => simp [ValueTree.assign, FieldKind.valueOf, List.findSome?_cons, plain?]
  | .null _ _, ws | .found _ _ _ _, ws => by
    simp [ValueTree.assign, FieldKind.valueOf, List.findSome?_cons, plain?]
  | .missing _ _ _ _, ws => by
    simp [ValueTree.assign, FieldKind.valueOf, FieldKind.named, List.findSome?_cons, plain?]
  | .mask _, ws => by
    simp [ValueTree.assign, FieldKind.valueOf, FieldKind.named, Value.addBits, ValueTree.bits]
  | .record _ h _, ws => by
    simp [FieldKind.valueOf, FieldKind.named, ValueTree.assign, h.assign_fieldsOf, ValueTree.entries]
  | .array _ h, ws => by
    simp [FieldKind.valueOf, FieldKind.named, ValueTree.assign, h.assignItems_eq, allItems,
      ValueTree.items]

/-- Entries that are assigned behind others. -/
theorem SpellsEntries.assign_fieldsOf {schema : Schema} {host host' : η} {tokens rest : List Event}
    {entries : List (Nat × ValueTree)} :
    SpellsEntries schema host tokens entries host' rest → ∀ done,
      assignEntries entries schema (FieldKind.fieldsOf allItems schema 0 done) =
        FieldKind.fieldsOf allItems schema 0 (done ++ entries)
  | .nil, done => by rw [assignEntries, List.append_nil]
  | .last _ hfield _ hvalue, done => by
    rw [FieldKind.assign_first (Schema.getElem?_of_field? hfield) (hvalue.assign_valueOf _),
      assignEntries]
  | .entry _ hfield _ hvalue _ h, done => by
    rw [FieldKind.assign_first (Schema.getElem?_of_field? hfield) (hvalue.assign_valueOf _),
      h.assign_fieldsOf, List.append_assoc, List.singleton_append]

/-- Every item is assigned to a new value. -/
theorem SpellsItems.assignItems_eq {element : FieldKind} {host host' : η} {tokens rest : List Event}
    {items : List ValueTree} {loose : Option UInt64} :
    SpellsItems element host tokens items loose host' rest →
      assignItems items element = items.map fun w => element.valueOf allItems [w]
  | .close _ | .loose _ _ _ => by rw [assignItems, List.map_nil]
  | .item hvalue _ h => by
    have hassign := hvalue.assign_valueOf []
    rw [FieldKind.valueOf_nil _ rfl, FieldKind.zero_named, List.nil_append] at hassign
    rw [assignItems, List.map_cons, hassign, h.assignItems_eq]

end

end

/-! ## Arrays that are written once -/

theorem allItems_eq_lastItems {ws : List ValueTree} (hitems : ∀ w ∈ ws.dropLast, w.items = [])
    (hloose : ∀ w ∈ ws.getLast?, w.loose = none) : allItems ws = lastItems ws := by
  rcases List.eq_nil_or_concat ws with rfl | ⟨before, w, rfl⟩
  · rfl
  · rw [List.concat_eq_append, List.dropLast_concat] at hitems
    rw [List.concat_eq_append, List.getLast?_concat] at hloose
    have hnone : before.flatMap items = [] := List.flatMap_eq_nil_iff.2 hitems
    simp [allItems, lastItems, hnone, hloose w rfl]

namespace FieldKind

mutual

theorem Once.valueOf_eq : ∀ {kind : FieldKind} {ws : List ValueTree}, Once kind ws →
    valueOf allItems kind ws = valueOf lastItems kind ws
  | .bool, _, _ | .integer, _, _ | .float, _, _ | .string, _, _ | .enum _, _, _ | .object, _, _
  | .mask _, _, _ => by simp [valueOf]
  | .record schema, ws, h => by
    rw [Once] at h
    rw [valueOf, valueOf, FieldsOnce.fieldsOf_eq h]
  | .array element, ws, h => by
    rw [Once] at h
    obtain ⟨hitems, hloose, honce⟩ := h
    rw [valueOf, valueOf, ← allItems_eq_lastItems hitems hloose]
    exact congrArg Value.array (List.map_congr_left fun w hw => Once.valueOf_eq (honce w hw))

theorem FieldsOnce.fieldsOf_eq : ∀ {schema : List (String × FieldKind)} {index : Nat}
    {entries : List (Nat × ValueTree)}, FieldsOnce schema index entries →
    fieldsOf allItems schema index entries = fieldsOf lastItems schema index entries
  | [], _, _, _ => by rw [fieldsOf, fieldsOf]
  | (_, kind) :: schema, index, entries, h => by
    rw [FieldsOnce] at h
    rw [fieldsOf, fieldsOf, Once.valueOf_eq h.1, FieldsOnce.fieldsOf_eq h.2]

end

end FieldKind

/-! ## Whole records -/

/-- Where the tokens of a record end, which of them belong to no entry, and in which field they end if
they do within its value. -/
inductive EndsAt (schema : Schema) : OpenRecord → RecordExpect → List Event → Option Nat → Prop
  | closed {r : OpenRecord} {close : Event} {rest : List Event} (hpath : r.path = [])
    (hclose : close.isSymbol '}' = true) (hrest : ∀ e ∈ rest, e.isSymbol ';' = true) :
    EndsAt schema r .stop (close :: rest) none
  | entry {r : OpenRecord} (hpath : r.path = []) : EndsAt schema r .field [] none
  | behind {r : OpenRecord} {index : Nat} (hpath : r.path = [index]) :
    EndsAt schema r .afterValue [] none
  | within {r : OpenRecord} {expect : RecordExpect} {e : Event} {rest : List Event} {name : String}
    {index : Nat} {kind : FieldKind} (hname : e.name? = some name)
    (hfield : schema.field? name = some (index, kind)) (hpath : [index] <+: r.path)
    (hexpect : r.path = [index] → expect ≠ .afterValue) :
    EndsAt schema r expect (e :: rest) (some index)

namespace RecordRule

variable {η : Type} [Host η]

/-- Behind the brace of a record there are semicolons. -/
theorem feed_stop {r : OpenRecord} {s : Session η} {tokens : List Event}
    {final : RecordRule × Session η} (h : (body r .stop).feed s tokens = .ok final) :
    final = (body r .stop, s) ∧ ∀ e ∈ tokens, e.isSymbol ';' = true := by
  induction tokens with
  | nil => exact ⟨(Except.ok.inj h).symm, by simp⟩
  | cons e tokens ih =>
    obtain ⟨⟨rule, s', control⟩, hstep, h⟩ := except_bind_ok.1 h
    simp only [react] at hstep
    split at hstep
    · obtain ⟨rfl, rfl, -⟩ := by simpa using hstep
      obtain ⟨hfinal, hrest⟩ := ih h
      exact ⟨hfinal, List.forall_mem_cons.2 ⟨‹_›, hrest⟩⟩
    · cases hstep

omit [Host η] in
/-- Where the tokens end among the entries of a whole record, only the field in which they end has
changed further. -/
theorem unread_endsAt {r : OpenRecord} (hpath : r.path = []) {schema : Schema} {fields : Fields}
    {rule : RecordRule} {s : Session η} {unread : List Event} {unfinished : Option Nat}
    (h : r.Unread schema (.record fields) (rule, s) unread unfinished) :
    ∃ r' expect record, rule = body r' expect ∧ EndsAt schema r' expect unread unfinished ∧
      s.controller.records[r.id.index]? = some record ∧
      ∀ index, unfinished ≠ some index → record.fields[index]? = fields[index]? := by
  have hbelow (index : Nat) : (r.below index).path = [index] := by
    rw [OpenRecord.below, hpath, List.nil_append]
  cases h with
  | field hrule h =>
    obtain ⟨record, hrec, -, hfields⟩ := h
    exact ⟨r, .field, record, hrule, .entry hpath, hrec, fun _ _ => by rw [Value.record.inj hfields]⟩
  | @behind index hrule h =>
    obtain ⟨record, hrec, -, hfields⟩ := h
    exact ⟨_, .afterValue, record, hrule, .behind (hbelow index), hrec,
      fun _ _ => by rw [Value.record.inj hfields]⟩
  | @within e rest name index kind hname hfield h =>
    obtain ⟨r', expect, f, hrule, hid, hprefix, hexpect, record, hrec, -, hfields⟩ := h
    rw [hbelow] at hprefix hexpect hfields
    rw [hid] at hrec
    refine ⟨r', expect, record, hrule, .within hname hfield hprefix hexpect, hrec, fun i hi => ?_⟩
    have hne : index ≠ i := fun h => hi (congrArg some h)
    simp [Value.record.inj hfields, hne]

/-- Whatever tokens a record reads, they spell entries, and every field that they do not end in has what
is written for it. -/
theorem feed_written {outer : Option Scope} {name : String} {e : Event} {s s₁ s₂ : Session η}
    {rule rule' : RecordRule} {control : Control Frame} {tokens : List Event}
    (hopen : openBody outer name e s = .ok (rule, s₁, control))
    (hfeed : rule.feed s₁ tokens = .ok (rule', s₂)) :
    ∃ r expect schema entries host rest unfinished record,
      rule' = body r expect ∧ Host.schema? s.host name = some schema ∧
      SpellsEntries schema s₁.host tokens entries host rest ∧
      EndsAt schema r expect rest unfinished ∧
      s₂.controller.records[s.controller.records.size]? = some record ∧
      ∀ index, unfinished ≠ some index →
        record.fields[index]? = (FieldKind.fieldsOf allItems schema 0 entries)[index]? := by
  obtain ⟨schema, hschema, rfl, hrec⟩ := openBody_new hopen
  have hholds : OpenRecord.Holds ⟨name, schema, ⟨s.controller.records.size⟩, []⟩ .field s₁
      (.record (FieldKind.fieldsOf allItems schema 0 [])) := by
    refine ⟨_, hrec, ⟨rfl, rfl, FieldKind.zeroFields_ofKind schema, .inl rfl⟩, ?_⟩
    rw [FieldKind.fieldsOf_nil _ rfl]
    rfl
  cases hholds.reads_entries (OpenRecord.readsValues _ _) le_rfl rfl hfeed with
  | closed hspells hclose hclosed hend =>
    obtain ⟨hfinal, hrest⟩ := feed_stop hend
    obtain ⟨rfl, rfl⟩ := Prod.mk.inj hfinal
    obtain ⟨record, hrec, -, hfields⟩ := hclosed
    rw [Value.modifyBelow, ValueTree.assign, hspells.assign_fieldsOf, List.nil_append] at hfields
    exact ⟨_, .stop, schema, _, _, _, none, record, rfl, hschema, hspells, .closed rfl hclose hrest,
      hrec, fun _ _ => by rw [Value.record.inj hfields]⟩
  | unread hspells hunread =>
    rw [Value.modifyBelow, ValueTree.assign, hspells.assign_fieldsOf, List.nil_append] at hunread
    obtain ⟨r', expect, record, hrule, hends, hrec, hfields⟩ := unread_endsAt rfl hunread
    exact ⟨r', expect, schema, _, _, _, _, record, hrule, hschema, hspells, hends, hrec, hfields⟩

/-- For every type and whatever tokens its record reads, also when the text ends before the record
does, the tokens spell entries, and every field that they do not end in depends on nothing but what is
written for it: an array has the items of all its assignments in their order. If its assignments before
the last one have no items, and no bits stand between the last comma and the bracket of the last one,
it has exactly what stands between the brackets of the last assignment; so have the arrays within a
field all of whose arrays are written that way. -/
theorem arrays_written {outer : Option Scope} {name : String} {e : Event} {s s₁ s₂ : Session η}
    {rule rule' : RecordRule} {control : Control Frame} {tokens : List Event}
    (hopen : openBody outer name e s = .ok (rule, s₁, control))
    (hfeed : rule.feed s₁ tokens = .ok (rule', s₂)) :
    ∃ r expect schema entries host rest unfinished record,
      rule' = body r expect ∧ Host.schema? s.host name = some schema ∧
      SpellsEntries schema s₁.host tokens entries host rest ∧
      EndsAt schema r expect rest unfinished ∧
      s₂.controller.records[s.controller.records.size]? = some record ∧
      ∀ index field kind, schema[index]? = some (field, kind) → unfinished ≠ some index →
        record.fields[index]? = some (field, kind.valueOf allItems (ofField index entries)) ∧
        (kind.Once (ofField index entries) →
          record.fields[index]? = some (field, kind.valueOf lastItems (ofField index entries))) := by
  obtain ⟨r, expect, schema, entries, host, rest, unfinished, record, hrule, hschema, hspells, hends,
    hrec, hfields⟩ := feed_written hopen hfeed
  refine ⟨r, expect, schema, entries, host, rest, unfinished, record, hrule, hschema, hspells, hends,
    hrec, fun index field kind hentry hfinished => ?_⟩
  have hvalue : record.fields[index]? =
      some (field, kind.valueOf allItems (ofField index entries)) := by
    rw [hfields index hfinished, FieldKind.getElem?_fieldsOf, hentry, Nat.zero_add]
    rfl
  exact ⟨hvalue, fun honce => by rw [hvalue, honce.valueOf_eq]⟩

/-- What a record that lists two records with masks reads from its tokens. -/
def listedRead : Except Diagnostic (RecordRule × Session MemoryHost) :=
  openBody (some ⟨[], 0, ⟨0⟩, none, .root⟩) "T" ⟨⟨.symbol, "\x7b", ⟨0, 1⟩, ⟨0, 0⟩⟩, true, 0⟩
    listedMasks >>= fun step => step.1.feed step.2.1 listedTokens

theorem arrays_written_listed :
    ∃ rule s₁ control rule' s₂,
      openBody (some ⟨[], 0, ⟨0⟩, none, .root⟩) "T"
        ⟨⟨.symbol, "\x7b", ⟨0, 1⟩, ⟨0, 0⟩⟩, true, 0⟩ listedMasks = .ok (rule, s₁, control) ∧
      rule.feed s₁ listedTokens = .ok (rule', s₂) ∧
      ∃ (schema : Schema) (entries : List (Nat × ValueTree)) (rest : List Event) (r : OpenRecord)
        (expect : RecordExpect) (unfinished : Option Nat) (record : Record),
        EndsAt schema r expect rest unfinished ∧ s₂.controller.records[0]? = some record ∧
        record.fields =
          [("items", .array [.record [("bits", .mask 3)], .record [("bits", .mask 0)]])] ∧
        ∀ index field kind, schema[index]? = some (field, kind) → unfinished ≠ some index →
          record.fields[index]? = some (field, kind.valueOf allItems (ofField index entries)) := by
  obtain ⟨⟨rule', s₂⟩, hread⟩ : ∃ next, listedRead = .ok next :=
    except_exists_ok (by decide +kernel)
  have hvalues : (listedRead.toOption.bind fun next =>
      next.2.controller.records[0]?.map (·.fields)) =
      some [("items", .array [.record [("bits", .mask 3)], .record [("bits", .mask 0)]])] := by
    with_unfolding_all rfl
  rw [hread] at hvalues
  obtain ⟨⟨rule, s₁, control⟩, hopen, hfeed⟩ := except_bind_ok.1 hread
  obtain ⟨r, expect, schema, entries, host, rest, unfinished, record, hrule, hschema, hspells, hends,
    hrec, hfields⟩ := arrays_written hopen hfeed
  obtain ⟨record', hrec', hvalues⟩ := Option.map_eq_some_iff.1 hvalues
  obtain rfl : record' = record := Option.some.inj (hrec'.symm.trans hrec)
  exact ⟨rule, s₁, control, rule', s₂, hopen, hfeed, schema, entries, rest, r, expect, unfinished,
    record', hends, hrec, hvalues,
    fun index field kind hentry hne => (hfields index field kind hentry hne).1⟩

/-! ## An array that is written twice -/

/-- A session with a type whose records have a list of names. -/
def listedTags : Session MemoryHost where
  controller := { name := "Hero", machines := #[{ name := "L" }] }
  host := { registry := ⟨[("T", [("tags", .array .string)])]⟩ }

/-- A token in a row without indent. -/
def tokenAt (kind : TokenKind) (text : String) (start stop : Nat) : Event :=
  ⟨⟨kind, text, ⟨start, stop⟩, ⟨0, start⟩⟩, start == 0, 0⟩

/-- The tokens of a record that names one tag and then another one. -/
def tagTokens : List Event :=
  [tokenAt .identifier "tags" 0 4, tokenAt .symbol "=" 5 6, tokenAt .symbol "[" 7 8,
    tokenAt .double "a" 8 11, tokenAt .symbol ";" 11 12, tokenAt .symbol "]" 12 13,
    tokenAt .symbol ";" 13 14, tokenAt .identifier "tags" 15 19, tokenAt .symbol "=" 20 21,
    tokenAt .symbol "[" 22 23, tokenAt .double "b" 23 26, tokenAt .symbol ";" 26 27,
    tokenAt .symbol "]" 27 28, tokenAt .symbol ";" 28 29, tokenAt .symbol "\x7d" 30 31]

/-- What a record of that type reads from them. -/
def tagsRead : Except Diagnostic (RecordRule × Session MemoryHost) :=
  openBody (some ⟨[], 0, ⟨0⟩, none, .root⟩) "T" (tokenAt .symbol "\x7b" 0 1) listedTags >>= fun step =>
    step.1.feed step.2.1 tagTokens

example : tagTokens = Event.ofTokens
    (Lexer.tokenize .document "tags = [\"a\";]; tags = [\"b\";]; \x7d").tokens := by
  decide +kernel

/-- One tag, spelled. -/
theorem spells_tag {schema : Schema} {host : MemoryHost} {e eq bracket item semicolon close end' : Event}
    {name text : String} {index : Nat} {more rest : List Event} {entries : List (Nat × ValueTree)}
    (hname : e.name? = some name) (hfield : schema.field? name = some (index, .array .string))
    (hitem : item.name? = some text)
    (hsymbols : eq.isSymbol '=' ∧ bracket.isSymbol '[' ∧ item.isSymbol ']' = false ∧
      semicolon.isSymbol ';' ∧ close.isSymbol ']' ∧ end'.isSymbol ';')
    (h : SpellsEntries schema host more entries host rest) :
    SpellsEntries schema host (e :: eq :: bracket :: item :: semicolon :: close :: end' :: more)
      ((index, .array [.plain (.string text)] none) :: entries) host rest := by
  obtain ⟨heq, hbracket, hsymbol, hsemicolon, hclose, hend⟩ := hsymbols
  refine .entry hname hfield heq (.array hbracket (.item (.scalar ?_ ?_) hsemicolon (.close hclose)))
    hend h
  · rw [hsymbol, Bool.false_and]
  · rw [scalar?, hitem, Option.map_some]

theorem not_last_written : ¬ ∀ (outer : Option Scope) (name : String) (e close : Event)
    (s s₁ s₂ : Session MemoryHost) (rule rule' : RecordRule) (control : Control Frame)
    (tokens : List Event) (schema : Schema) (host : MemoryHost) (entries : List (Nat × ValueTree))
    (record : Record),
    openBody outer name e s = .ok (rule, s₁, control) →
    rule.feed s₁ tokens = .ok (rule', s₂) →
    Host.schema? s.host name = some schema →
    SpellsEntries schema s₁.host tokens entries host [close] → close.isSymbol '}' = true →
    s₂.controller.records[s.controller.records.size]? = some record →
    ∀ index field element, schema[index]? = some (field, .array element) →
      record.fields[index]? =
        some (field, (FieldKind.array element).valueOf lastItems (ofField index entries)) := by
  intro hlast
  obtain ⟨⟨rule', s₂⟩, hread⟩ : ∃ next, tagsRead = .ok next := except_exists_ok (by decide +kernel)
  have hcount : (tagsRead.toOption.bind fun next => next.2.controller.records[0]?.map fun record =>
      record.fields.map (·.2.itemCount)) = some [2] := by decide +kernel
  rw [hread] at hcount
  obtain ⟨⟨rule, s₁, control⟩, hopen, hfeed⟩ := except_bind_ok.1 hread
  obtain ⟨record, hrec, hcount⟩ := Option.map_eq_some_iff.1 hcount
  have hspells : SpellsEntries [("tags", .array .string)] s₁.host tagTokens
      [(0, .array [.plain (.string "a")] none), (0, .array [.plain (.string "b")] none)] s₁.host
      [tokenAt .symbol "\x7d" 30 31] :=
    spells_tag rfl rfl rfl (by decide) (spells_tag rfl rfl rfl (by decide) .nil)
  have hfield := hlast _ "T" _ _ _ _ _ _ rule' _ tagTokens _ _ _ record hopen hfeed rfl hspells rfl
    hrec 0 "tags" .string rfl
  have hfirst := congrArg (·[0]?) hcount
  rw [List.getElem?_map, hfield] at hfirst
  cases hfirst

end RecordRule

end MotionScript
