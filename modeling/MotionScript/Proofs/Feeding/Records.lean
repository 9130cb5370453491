import MotionScript.Proofs.Feeding.Items
import MotionScript.Proofs.Feeding.Values
import MotionScript.Proofs.Graph.Ranges
/-!
# Reading records

A written record is read back in the block it is written in, with the fields it has.
-/

namespace MotionScript

open Canonical (Line typeNameParts)
open TransitionRule (starters)

variable {κ : Knowledge}

/-! ## Type names -/

/-- Whether a character separates the parts of a type name. -/
def IsJoint (c : Char) : Prop := c = '.' ∨ c = ',' ∨ c = ':'

/-- The parts of a type name behind its first one, with the separators in front of them. -/
theorem Canonical.exists_typeNameParts (cs : List Char) :
    ∃ (first : List Char) (more : List (Char × List Char)),
    cs = first ++ more.flatMap (fun x => x.1 :: x.2) ∧
      typeNameParts cs = first :: more.map (·.2) ∧ ∀ x ∈ more, IsJoint x.1 := by
  induction cs with
  | nil => exact ⟨[], [], rfl, rfl, by simp⟩
  | cons c cs ih =>
    obtain ⟨first, more, hcs, hparts, hmore⟩ := ih
    unfold typeNameParts at hparts ⊢
    rw [List.splitOnP_cons_eq_if_modifyHead, hparts]
    split
    · rename_i hc
      refine ⟨[], (c, first) :: more, by simp [hcs], rfl, List.forall_mem_cons.2 ⟨?_, hmore⟩⟩
      simpa [IsJoint, or_assoc] using hc
    · exact ⟨c :: first, more, by simp [hcs], rfl, hmore⟩

/-- A bare name is one part. -/
theorem typeNameParts_of_isBare {cs : List Char} (h : Canonical.isBare cs = true) :
    typeNameParts cs = [cs] := by
  obtain ⟨first, more, hcs, hparts, hmore⟩ := Canonical.exists_typeNameParts cs
  cases more with
  | nil => simpa [← show cs = first by simpa using hcs] using hparts
  | cons x more =>
    have hx : x.1 ∈ cs := by simp [hcs]
    have hid : Text.isIdentifierChar x.1 = true := by
      cases cs with
      | nil => cases hx
      | cons c cs =>
        simp only [Canonical.isBare, Bool.and_eq_true, List.all_eq_true] at h
        rcases List.mem_cons.1 hx with hx | hx
        · rw [hx]
          exact h.1.1
        · exact h.2 _ hx
    rcases hmore x List.mem_cons_self with hx | hx | hx <;> rw [hx] at hid <;> cases hid

/-- Whether a type name can be written in a block: the name has parts, and the first one does not
start another item. -/
structure TypeNameWritable (words : List String) (text : String) : Prop where
  ne_empty : text ≠ ""
  first : (typeNameParts text.toList).all Canonical.isBare = true →
    ∀ part ∈ (typeNameParts text.toList).head?, Avoids (String.ofList part) (words ++ starters)

namespace RecordRule

/-- The pieces of further parts of a type name. -/
def partPieces (x : Char × List Char) : List Piece :=
  [(Form.symbol x.1).joined, (Form.word (String.ofList x.2)).joined]

theorem chunk_parts {cs : List Char} {ps : List Piece} {more : List (Char × List Char)}
    (h : Chunk cs ps) (he : ∀ c, IsJoint c → Ends ps c) (hj : ∀ x ∈ more, IsJoint x.1)
    (hb : ∀ x ∈ more, Canonical.isBare x.2 = true) :
    Chunk (cs ++ more.flatMap fun x => x.1 :: x.2) (ps ++ more.flatMap partPieces) := by
  induction more generalizing cs ps with
  | nil => simpa using h
  | cons x more ih =>
    rw [List.forall_mem_cons] at hj hb
    rw [List.flatMap_cons, List.flatMap_cons, ← List.append_assoc, ← List.append_assoc]
    have hsymbol : SymbolSet.document.contains x.1 = true := by
      rcases hj.1 with h | h | h <;> rw [h] <;> rfl
    have hpart : Chunk (x.1 :: x.2) (partPieces x) := by
      refine ⟨by simp [partPieces], ?_⟩
      simpa [partPieces] using ⟨hsymbol, hb.1⟩
    refine ih (h.append hpart fun p hp q hq => ?_) (fun c _ => ?_) hj.2 hb.2
    · obtain rfl : (Form.symbol x.1).joined = q := by simpa [partPieces] using hq
      simpa using he x.1 hj.1 p hp
    · have hends : Ends ((ps ++ [(Form.symbol x.1).joined]) ++
          [(Form.word (String.ofList x.2)).joined]) c := Ends.append_singleton_iff.2 (by simp)
      simpa [partPieces] using hends

/-- Further parts are appended to a type name. -/
theorem passes_parts {outer : Option Scope} {rest : List Frame} {more : List (Char × List Char)}
    (hj : ∀ x ∈ more, IsJoint x.1) (text : String) :
    Passes (more.flatMap partPieces) (.record (typeName outer (some .identifiers) text) :: rest)
      (.record (typeName outer (some .identifiers)
        (text ++ String.ofList (more.flatMap fun x => x.1 :: x.2))) :: rest) := by
  induction more generalizing text with
  | nil => simpa using Passes.nil _
  | cons x more ih =>
    rw [List.forall_mem_cons] at hj
    refine .read (.record (typeName outer (some .identifiers) (text ++ String.ofList [x.1])))
      (by simp) (fun e s he => ?_) (.read (.record (typeName outer (some .identifiers)
        (text ++ String.ofList (x.1 :: x.2)))) (by simp) (fun e s he => ?_) ?_)
    · have he := he.is
      have hopen : (x.1 == '\x7b') = false := by
        rcases hj.1 with h | h | h <;> rw [h] <;> rfl
      have htext : e.text = String.ofList [x.1] := by rw [he.symbol_text]; rfl
      have hjoint : (x.1 == '.' || x.1 == ',' || x.1 == ':') = true := by
        rcases hj.1 with h | h | h <;> rw [h] <;> rfl
      simp only [Frame.react, react, he.symbol_isSymbol, hopen, Bool.false_and, Bool.false_eq_true,
        if_false, extendTypeName, he.symbol_kind, hjoint, if_true, htext]
      rfl
    · have he := he.is
      simp only [Frame.react, react, he.word_isSymbol, Bool.false_and, Bool.false_eq_true, if_false,
        extendTypeName, he.word_kind, he.word_text]
      rw [String.append_assoc, ← String.ofList_append]
      rfl
    · have hpasses := ih hj.2 (text ++ String.ofList (x.1 :: x.2))
      rw [String.append_assoc, ← String.ofList_append] at hpasses
      rw [List.flatMap_cons]
      exact hpasses

/-- A type name whose parts are bare is written with its first part and the others. -/
theorem exists_bareName {text : String}
    (h : (typeNameParts text.toList).all Canonical.isBare = true) :
    ∃ (first : List Char) (more : List (Char × List Char)),
      (typeNameParts text.toList).head? = some first ∧
      text = String.ofList (first ++ more.flatMap fun x => x.1 :: x.2) ∧
      (∀ x ∈ more, IsJoint x.1) ∧
      Chunk (Canonical.typeName text).toList
        ((Form.word (String.ofList first)).joined :: more.flatMap partPieces) := by
  obtain ⟨first, more, htext, hparts, hmore⟩ := Canonical.exists_typeNameParts text.toList
  have hwritten : Canonical.typeName text = text := if_pos h
  rw [hparts] at h
  simp only [List.all_cons, Bool.and_eq_true, List.all_eq_true, List.mem_map,
    forall_exists_index, and_imp, forall_apply_eq_imp_iff₂] at h
  refine ⟨first, more, by rw [hparts]; rfl, by rw [← htext, String.ofList_toList], hmore, ?_⟩
  rw [hwritten, htext]
  have hword : Chunk first [(Form.word (String.ofList first)).joined] :=
    ⟨by simp, by simpa using h.1⟩
  exact chunk_parts hword (fun c _ => by simp) hmore h.2

/-- A bare type name is read. -/
theorem passes_bare {outer : Option Scope} {rest : List Frame} {more : List (Char × List Char)}
    (hj : ∀ x ∈ more, IsJoint x.1) (first : List Char) :
    Passes ((Form.word (String.ofList first)).joined :: more.flatMap partPieces)
      (.record (typeName outer none "") :: rest)
      (.record (typeName outer (some .identifiers)
        (String.ofList (first ++ more.flatMap fun x => x.1 :: x.2))) :: rest) := by
  refine .read (.record (typeName outer (some .identifiers) (String.ofList first))) (by simp)
    (fun e s he => ?_) ?_
  · have he := he.is
    simp only [Frame.react, react, he.word_isSymbol, Bool.false_and, Bool.false_eq_true,
      if_false, extendTypeName, he.word_kind, he.word_text, String.empty_append]
    rfl
  · rw [String.ofList_append]
    exact passes_parts hj _

/-- A type name that is written as a string is read. -/
theorem passes_string (outer : Option Scope) (rest : List Frame) (text : String) :
    Passes [(Form.string text).joined] (.record (typeName outer none "") :: rest)
      (.record (typeName outer (some .strings) text) :: rest) := by
  refine .read _ (by simp) (fun e s he => ?_) (.nil _)
  have he := he.is
  have hkind : e.kind = .single ∨ e.kind = .double := by
    have := he.string_isString
    cases hk : e.kind <;> simp_all [TokenKind.isString]
  rcases hkind with hk | hk
  all_goals
    simp only [Frame.react, react, he.string_isSymbol, Bool.false_and, Bool.false_eq_true,
      if_false, extendTypeName, hk, he.string_text, String.empty_append]
    rfl

theorem chunk_string (text : String) :
    Chunk (Canonical.string text).toList [(Form.string text).joined] :=
  ⟨by simp, by simp⟩

/-- A written type name is read, and a block takes its first piece for the start of a record. -/
theorem exists_typeName {words : List String} {text : String} (h : TypeNameWritable words text) :
    ∃ f ps, Chunk (Canonical.typeName text).toList (f.joined :: ps) ∧
      (∀ {scope : Scope} {top : Frame}, top.Block scope words →
        ∀ {η : Type} [Host η] (e : Event) (s : Session η), e.Is f →
          top.react e s = .ok (top, s, some (.attach (.record (.typeName none none "")) true))) ∧
      ∀ (outer : Option Scope) (rest : List Frame), ∃ mode,
        Passes (f.joined :: ps) (.record (typeName outer none "") :: rest)
          (.record (typeName outer mode text) :: rest) := by
  by_cases hall : (typeNameParts text.toList).all Canonical.isBare = true
  · obtain ⟨first, more, hhead, htext, hmore, hchunk⟩ := exists_bareName hall
    have hfirst : Avoids (String.ofList first) (words ++ starters) := h.first hall first hhead
    refine ⟨.word (String.ofList first), more.flatMap partPieces, hchunk, ?_, ?_⟩
    · exact fun hb _ _ e s he => hb.word _ hfirst e s he
    · intro outer rest
      have hpasses := @passes_bare outer rest more hmore first
      rw [← htext] at hpasses
      exact ⟨_, hpasses⟩
  · have hwritten : Canonical.typeName text = Canonical.string text := if_neg hall
    have hbare : Canonical.isBare text.toList = false :=
      Bool.eq_false_iff.2 fun hb => hall (by simpa [typeNameParts_of_isBare hb] using hb)
    refine ⟨.string text, [], ?_, ?_, ?_⟩
    · rw [hwritten]
      exact chunk_string text
    · exact fun hb _ _ e s he => hb.string text hbare e s he
    · exact fun outer rest => ⟨_, passes_string outer rest text⟩

end RecordRule

/-! ## Records -/

/-- An outline with a further record in the list of a scope. -/
def Outline.addRecord (o : Outline) (scope : Scope) (record : Record) : Outline :=
  let (id, c) := o.controller.addRecord record
  { o with
    controller :=
      match scope.state with
      | some state => c.modifyState state fun st => { st with records := st.records ++ [id] }
      | none => c.modifyMachine scope.machine fun m => { m with records := m.records ++ [id] } }

/-- Whether a record of a known type can be written in a block. -/
structure Record.Writable (registry : Registry) (words : List String) (r : Record) : Prop where
  typeName : TypeNameWritable words r.typeName
  schema : registry.schema? r.typeName = some r.schema
  fields : (Value.record r.fields).Fits (.record r.schema)

namespace RecordRule

theorem outline_attach {η : Type} [Host η] (s : Session η) (scope : Scope) (record : Record) :
    (attach s scope record).1 = ⟨s.outline.controller.records.size⟩ ∧
      (attach s scope record).2.outline = s.outline.addRecord scope record := by
  refine ⟨rfl, ?_⟩
  simp only [attach, Session.outline_persist, Outline.addRecord]
  cases scope.state with
  | some state =>
    simp only [Session.outline]
    rw [Controller.unlinked_modifyState]
    · rfl
    · exact fun st => rfl
  | none =>
    simp only [Session.outline]
    rw [Controller.unlinked_modifyMachine]
    · rfl
    · exact fun m => rfl

/-- The fields of the record that has been added last. -/
theorem addRecord_value? (o : Outline) (scope : Scope) (typeName : String) (schema : Schema)
    (fields : Fields) :
    (o.addRecord scope ⟨typeName, schema, fields⟩).value?
      ⟨typeName, schema, ⟨o.controller.records.size⟩, []⟩ = some (.record fields) := by
  unfold Outline.value? Outline.addRecord
  cases scope.state <;> simp [Controller.addRecord, Controller.modifyState,
    Controller.modifyMachine, Value.below?]

theorem addRecord_put (o : Outline) (scope : Scope) (typeName : String) (schema : Schema)
    (fields fields' : Fields) :
    (o.addRecord scope ⟨typeName, schema, fields⟩).put
        ⟨typeName, schema, ⟨o.controller.records.size⟩, []⟩ (.record fields') =
      o.addRecord scope ⟨typeName, schema, fields'⟩ := by
  unfold Outline.put Outline.addRecord
  cases scope.state <;> simp [Controller.addRecord, Controller.modifyState,
    Controller.modifyMachine, Controller.modifyRecord, Value.modifyBelow, modify_push_size,
    Value.fields]

/-- A header: a written type name and a brace. -/
theorem chunk_header {text : String} {f : Form} {ps : List Piece}
    (h : Chunk text.toList (f.joined :: ps)) :
    Chunk (text ++ " \x7b").toList (f.joined :: (ps ++ [(Form.symbol '\x7b').spaced])) := by
  have hbrace : Chunk [' ', '\x7b'] [(Form.symbol '\x7b').spaced] := ⟨rfl, by simp +decide⟩
  rw [String.toList_append, ← List.cons_append]
  refine h.append hbrace fun p _ q hq => ?_
  obtain rfl : (Form.symbol '\x7b').spaced = q := by simpa using hq
  exact p.follows_spaced _

/-- The brace behind the name of a known type opens its body. -/
theorem react_brace {η : Type} [Host η] {e : Event} {s : Session η} {name : String}
    {schema : Schema} (he : e.Is (.symbol '\x7b')) (hn : name ≠ "")
    (hs : Host.schema? s.host name = some schema) (scope : Scope) (mode : Option TypeNameMode) :
    (Frame.record (typeName (some scope) mode name)).react e s =
      .ok (.record (body ⟨name, schema, (attach s scope (.new name schema)).1, []⟩ .field),
        (attach s scope (.new name schema)).2, none) := by
  simp only [Frame.react, react, he.symbol_isSymbol, Frame.lift, beq_self_eq_true,
    bne_iff_ne.2 hn, Bool.and_self, if_true, openBody, hs, Except.map]

theorem settles_typeName (outer : Option Scope) {η : Type} [Host η] (e : Event) (s : Session η) :
    (Frame.record (typeName outer none "")).Settles e s := by
  unfold Frame.Settles
  simp only [Frame.react, react, Frame.lift, bne_self_eq_false, Bool.and_false, Bool.false_eq_true,
    if_false]
  cases extendTypeName none "" e <;> trivial

end RecordRule

/-- The body of a record that can be written is read into a record that has just been opened. -/
theorem RecordRule.exists_bodyPieces {schema : Schema} {fields : Fields}
    (hk : (Value.record fields).OfKind (.record schema))
    (hw : (Value.record fields).Writable (κ.finds · .object) (.record schema)) (indent : Nat) :
    ∃ qs, Spells (Canonical.fieldLines schema fields indent) qs ∧
      ∀ (r : OpenRecord) (o : Outline) (rest : List Frame), r.fields? = some schema →
        o.value? r = some (.record schema.zero) →
          Leads κ qs (r.frame .field :: rest) o (r.frame .field :: rest) (o.put r (.record fields))
            {} := by
  cases hk with
  | record hf hv =>
    obtain ⟨qs, hspells, hleads⟩ := Value.exists_fieldPieces hf
      (fun i field entry hi he => (hv i field entry hi he).rereads (hw.field hi he)) indent
    exact ⟨qs, hspells, fun r o rest hr hzero => hleads r o rest [] [] hr hw.here rfl hzero⟩

open RecordRule in
/-- A record that is written in a block joins the list of its scope. -/
theorem Keeps.record {F : Frame → Prop} {scope : Scope} {words : List String}
    (hF : ∀ f, F f → f.Block scope words) {r : Record} (hn : TypeNameWritable words r.typeName)
    (hs : κ.has r.typeName r.schema) (hk : (Value.record r.fields).OfKind (.record r.schema))
    (hw : (Value.record r.fields).Writable (κ.finds · .object) (.record r.schema)) (o : Outline)
    (indent : Nat) : Keeps κ (Canonical.record r indent) F o (o.addRecord scope r) {} := by
  obtain ⟨name, schema, fields⟩ := r
  obtain ⟨f, ps, hchunk, hstarts, hname⟩ := exists_typeName hn
  obtain ⟨qs, hspells, hleads⟩ := exists_bodyPieces hk hw (indent + 1)
  have hclose : Chunk "\x7d;".toList [(Form.symbol '\x7d').joined, (Form.symbol ';').joined] :=
    ⟨by simp, by simp +decide⟩
  refine ⟨_, ((chunk_header hchunk).line indent |>.append hspells).append (hclose.line indent),
    fun top rest hF' => ?_⟩
  have hblock := hF top hF'
  obtain ⟨mode, hname⟩ := hname (some scope) (top :: rest)
  -- The record that has just been opened.
  let r : OpenRecord := ⟨name, schema, ⟨o.controller.records.size⟩, []⟩
  have hbrace : Leads κ [(Form.symbol '\x7b').spaced]
      (.record (.typeName (some scope) mode name) :: top :: rest) o (r.frame .field :: top :: rest)
      (o.addRecord scope (.new name schema)) {} := by
    refine .ask (r.frame .field) (by simp) (fun e s he hs' ho => ?_) (.nil _ _)
    obtain ⟨hid, hattach⟩ := outline_attach s scope (.new name schema)
    rw [ho] at hid hattach
    refine ⟨_, ?_, hattach⟩
    rw [react_brace he.is hn.ne_empty (hs'.schema hs), hid]
  have hfields : Leads κ qs (r.frame .field :: top :: rest) (o.addRecord scope (.new name schema))
      (r.frame .field :: top :: rest) (o.addRecord scope ⟨name, schema, fields⟩) {} := by
    rw [← addRecord_put o scope name schema (FieldKind.zeroFields schema) fields]
    refine hleads r _ (top :: rest) rfl ?_
    exact addRecord_value? o scope name schema (FieldKind.zeroFields schema)
  have hend : Leads κ [(Form.symbol '\x7d').joined, (Form.symbol ';').joined]
      (r.frame .field :: top :: rest) (o.addRecord scope ⟨name, schema, fields⟩) (top :: rest)
      (o.addRecord scope ⟨name, schema, fields⟩) {} := by
    refine .read (r.frame .stop) (by simp) (fun e s he => ?_)
      (.detach (r.frame .stop) (by simp) fun e s he ho => ⟨s, ?_, ho, rfl⟩)
    · simp [Frame.react, react, OpenRecord.reactField, he.is.symbol_isSymbol, Except.map,
        Frame.lift, r]
    · simp [Frame.react, react, he.is.symbol_isSymbol, Except.map, Frame.lift]
  refine Leads.forwardTo (f := .record (.typeName none none "")) hblock.quiet
    (fun e s he => hstarts hblock e s he.is) (fun s => ?_)
    (settles_typeName (some scope)) ?_
  · rw [hblock.context]
    rfl
  · simpa using (hname.leads κ o).append (hbrace.append (hfields.append hend))

/-- A record that can be written for a host without asset root. -/
theorem Record.Writable.keeps {registry : Registry} {F : Frame → Prop} {scope : Scope}
    {words : List String} (hF : ∀ f, F f → f.Block scope words) {r : Record}
    (h : r.Writable registry words) (o : Outline) (indent : Nat) :
    Keeps (.rootless registry) (Canonical.record r indent) F o (o.addRecord scope r) {} :=
  Keeps.record hF h.typeName h.schema h.fields.ofKind h.fields.writable o indent

/-! ## Bodies -/

namespace RecordRule

/-- Bodies of records are read back. The lines that are written for the fields of a record are split
into tokens, and a rule that has just been opened on the schema of the record reads them into exactly
this record, through any nesting of records and arrays; the rest of the graph stays as it is, and the
rule waits for the next field. The record has to be of the kind that the schema says, numbers finite,
names of fields distinct, and enumerations not empty and within the range of an index; the last bit of
a mask is unset or has a name of its own, and the host finds every object that is referred to. -/
theorem body_read {η : Type} [Host η] {s : Session η} {typeName : String} {schema : Schema}
    {fields : Fields} {id : RecordId} (hk : (Value.record fields).OfKind (.record schema))
    (hw : (Value.record fields).Writable (Host.Finds s.host · .object) (.record schema))
    (hr : s.controller.records[id.index]? = some (.new typeName schema)) (depth : Nat)
    (below : List Frame) (p : Position) :
    let stream := Lexer.tokenize .document
      (Canonical.render (Canonical.fieldLines schema fields depth))
    let rule : Frame := .record (.body ⟨typeName, schema, id, []⟩ .field)
    stream.failure = none ∧ ∃ s' p',
      (Grammar.document η).feed (Event.ofTokens stream.tokens) ⟨rule :: below, s, p, none⟩ =
        ⟨rule :: below, s', p', none⟩ ∧
      s'.controller.records[id.index]? = some ⟨typeName, schema, fields⟩ ∧
      s'.outline = { s.outline with
        controller := s.outline.controller.modifyRecord id ({ · with fields }) } := by
  obtain ⟨qs, hspells, hleads⟩ := @exists_bodyPieces (.of s.host) _ _ hk hw depth
  let r : OpenRecord := ⟨typeName, schema, id, []⟩
  have hzero : s.outline.value? r = some (.record schema.zero) := by
    show (s.controller.records[id.index]?).bind _ = _
    rw [hr]
    rfl
  have hput : s.outline.put r (.record fields) = { s.outline with
      controller := s.outline.controller.modifyRecord id ({ · with fields }) } := rfl
  obtain ⟨hfailure, s', p', hfeed, ho⟩ :=
    (hleads r s.outline below rfl hzero).feed_render hspells (Knowledge.of_holds s.host) rfl p
  rw [hput] at ho
  refine ⟨hfailure, s', p', hfeed, ?_, ho⟩
  show s'.outline.controller.records[id.index]? = _
  have hrecord : s.outline.controller.records[id.index]? = some (.new typeName schema) := hr
  rw [ho, Controller.modifyRecord, Array.getElem?_modify, if_pos rfl, hrecord]
  rfl

/-- Fields with names that collide, read as numbers or are empty. -/
def stepSchema : Schema :=
  [("surface", .enum ["stone", "Stone", "7"]), ("", .mask ["low", "LOW", "3"]), ("sound", .object),
    ("0x1", .array (.record [("at", .float), ("label", .string)]))]

def stepFields : Fields :=
  [("surface", .enum 1), ("", .mask 7), ("sound", .object (some ⟨"step.wav", .object⟩)),
    ("0x1", .array [.record [("at", .float (.ofInt 1)), ("label", .string "left \"foot\"")],
      .record [("at", .float .zero), ("label", .string "")]])]

example : Canonical.fieldLines stepSchema stepFields 1 =
    [.text 1 "surface = 1;", .text 1 "\"\" = low, \"3\", 2;", .text 1 "sound = \"step.wav\";",
      .text 1 "\"0x1\" = [", .text 2 "\x7b", .text 3 "at = 1;", .text 3 "label = 'left \"foot\"';",
      .text 2 "\x7d;", .text 2 "\x7b", .text 3 "at = 0;", .text 3 "label = \"\";", .text 2 "\x7d;",
      .text 1 "];"] := by decide +kernel

/-- A session with a record on that schema that has just been opened. -/
def stepSession : Session MemoryHost where
  controller := { name := "Hero", records := #[.new "Steps" stepSchema] }
  host := {}

theorem body_read_nested : ∃ (s' : Session MemoryHost) (p' : Position),
    (Grammar.document MemoryHost).feed (Event.ofTokens (Lexer.tokenize .document
        (Canonical.render (Canonical.fieldLines stepSchema stepFields 1))).tokens)
        ⟨[.record (.body ⟨"Steps", stepSchema, ⟨0⟩, []⟩ .field)], stepSession, ⟨0, 0⟩, none⟩ =
      ⟨[.record (.body ⟨"Steps", stepSchema, ⟨0⟩, []⟩ .field)], s', p', none⟩ ∧
      s'.controller.records[0]? = some ⟨"Steps", stepSchema, stepFields⟩ := by
  have hitem (x : Double) (hx : x.isFinite = true) (label : String) :
      (Value.record [("at", .float x), ("label", .string label)]).Fits
        (.record [("at", .float), ("label", .string)]) := by
    refine .record (by decide) rfl fun i field entry hf he => ?_
    rcases i with _ | _ | i <;> cases hf <;> cases he
    · exact .float hx
    · exact .string label
  have hfits : (Value.record stepFields).Fits (.record stepSchema) := by
    refine .record (by decide) rfl fun i field entry hf he => ?_
    rcases i with _ | _ | _ | _ | i <;> cases hf <;> cases he
    · exact .enum (by decide) (by decide)
    · exact .mask (.inl (by decide))
    · exact .object (.inr (by decide)) (by decide)
    · refine .array fun item hi => ?_
      rcases List.mem_cons.1 hi with rfl | hi
      · exact hitem (.ofInt 1) (by decide +kernel) _
      · obtain rfl := List.mem_singleton.1 hi
        exact hitem .zero (by decide) _
  have hw : (Value.record stepFields).Writable (Host.Finds stepSession.host · .object)
      (.record stepSchema) :=
    hfits.writable.mono fun _ hr => MemoryHost.finds rfl hr .object
  have hopened : stepSession.controller.records[(⟨0⟩ : RecordId).index]? =
      some (.new "Steps" stepSchema) := rfl
  obtain ⟨-, s', p', hfeed, hrecord, -⟩ := body_read hfits.ofKind hw hopened 1 [] ⟨0, 0⟩
  exact ⟨s', p', hfeed, hrecord⟩

end RecordRule

end MotionScript
