import MotionScript.Proofs.Feeding.Masks
import MotionScript.Proofs.Feeding.OpenRecords
import MotionScript.Proofs.Records.Kinds
/-!
# Reading values

A written value is read back in the field or array it was written for.
-/

namespace MotionScript

open Canonical (Line valueLines fieldLines itemLines)

variable {κ : Knowledge}

namespace Value

/-- Whether a written value is read back in a place that holds the zero value of its kind. -/
def Rereads (κ : Knowledge) (v : Value) (k : FieldKind) : Prop :=
  ∀ (key : String) (ps : List Piece) (lead : Form → Piece), LeadIn key ps lead → ∀ indent,
    ∃ f qs, Spells (valueLines key v k indent) (ps ++ lead f :: (qs ++ [(Form.symbol ';').joined])) ∧
      ∀ (r : OpenRecord) (o : Outline) (rest : List Frame), r.kind? = some k → r.path ≠ [] →
        o.value? r = some k.zero →
          Leads κ (lead f :: qs) (r.frame .value :: rest) o (r.frame .afterValue :: rest) (o.put r v) {}

/-! ## Values on one line -/

/-- Records and arrays are the only values that take more than a line. -/
theorem valueLines_one {v : Value} (hrecord : ∀ fields, v ≠ .record fields)
    (harray : ∀ items, v ≠ .array items) (k : FieldKind) (key : String) (indent : Nat) :
    valueLines key v k indent = [.text indent (key ++ (Canonical.scalar v k ++ ";"))] := by
  cases v with
  | record fields => exact absurd rfl (hrecord fields)
  | array items => exact absurd rfl (harray items)
  | _ => exact congrArg (fun text => [Line.text indent text]) (String.append_assoc ..)

/-- A value that is one form. -/
theorem rereads_form {v : Value} {k : FieldKind} {f : Form} (hvalid : f.Valid)
    (hjoins : f.Joins (.symbol ';')) (hrecord : ∀ fields, v ≠ .record fields)
    (harray : ∀ items, v ≠ .array items) (htext : Canonical.scalar v k = String.ofList f.chars)
    (h : ∀ {η : Type} [Host η] (r : OpenRecord) (e : Event) (s : Session η), e.Is f →
      r.kind? = some k → r.path ≠ [] → s.outline.value? r = some k.zero → κ.Holds s.host →
      ∃ s', r.reactValue e s = .ok (r, .afterValue, s') ∧ s'.outline = s.outline.put r v) :
    v.Rereads κ k := by
  intro key ps lead hlead indent
  refine ⟨f, [], ?_, fun r o rest hk hp hv => ?_⟩
  · rw [valueLines_one hrecord harray, htext]
    exact hlead.line indent ⟨by simp, by simpa +decide using ⟨hvalid, hjoins⟩⟩
  · refine .ask (m := o.put r v) (r.frame .afterValue) (by simp) (fun e s he hs ho => ?_) (.nil _ _)
    subst ho
    obtain ⟨s', hs, ho⟩ := h r e s (hlead.form f ▸ he.is) hk hp hv hs
    refine ⟨s', ?_, ho⟩
    rw [Frame.react, RecordRule.react, hs]
    rfl

/-- A value that is read as a scalar. -/
theorem rereads_scalar {v : Value} {k : FieldKind} {f : Form} (hvalid : f.Valid)
    (hjoins : f.Joins (.symbol ';')) (hrecord : ∀ fields, v ≠ .record fields)
    (harray : ∀ items, v ≠ .array items) (htext : Canonical.scalar v k = String.ofList f.chars)
    (hbracket : ∀ e, Event.Is e f → e.isSymbol ']' = false)
    (hscalar : ∀ e, Event.Is e f → scalar? e k = some v)
    (hk : k = .bool ∨ k = .integer ∨ k = .float ∨ k = .string ∨ ∃ names, k = .enum names) :
    v.Rereads κ k := by
  refine rereads_form hvalid hjoins hrecord harray htext fun r e s he hkind hp hv _ => ?_
  refine ⟨r.modifyValue s fun _ => v, ?_, OpenRecord.outline_modifyValue _ hp hv⟩
  rw [OpenRecord.reactValue, hkind]
  simp only [hbracket e he, Bool.false_and, Bool.false_eq_true, if_false]
  rcases hk with rfl | rfl | rfl | rfl | ⟨names, rfl⟩
  all_goals simp only [hscalar e he]

theorem rereads_bool (b : Bool) : (Value.bool b).Rereads κ .bool := by
  have hword (w : String) (hw : (if b then "true" else "false") = w)
      (hvalid : (Form.word w).Valid) (h : ∀ e, Event.Is e (.word w) →
        scalar? e .bool = some (.bool b)) : (Value.bool b).Rereads κ .bool := by
    refine rereads_scalar hvalid (by simp) (by simp) (by simp) ?_ (fun e he => he.word_isSymbol _) h
      (.inl rfl)
    simp [Canonical.scalar, hw]
  cases b with
  | true =>
    refine hword "true" rfl (by simp +decide) fun e he => ?_
    simp +decide [scalar?, he.word_isKeyword]
  | false =>
    refine hword "false" rfl (by simp +decide) fun e he => ?_
    simp +decide [scalar?, he.word_isKeyword]

theorem rereads_integer {n : Int} (hl : -2 ^ 63 ≤ n) (hu : n < 2 ^ 63) :
    (Value.integer n).Rereads κ .integer := by
  refine rereads_scalar (f := .int n) (by simp) (by simp) (by simp) (by simp) ?_
    (fun e he => he.number_isSymbol _) (fun e he => ?_) (.inr (.inl rfl))
  · simp [Canonical.scalar]
  · rw [scalar?, he.int_integer? hl hu]
    rfl

theorem rereads_float {x : Double} (h : x.isFinite = true) : (Value.float x).Rereads κ .float := by
  refine rereads_scalar (f := .float x) (Form.valid_double h) (by simp) (by simp) (by simp) ?_
    (fun e he => he.number_isSymbol _) (fun e he => ?_) (.inr (.inr (.inl rfl)))
  · simp [Canonical.scalar]
  · have hd : e.double? = some x := he.float_numeral? (by decide) h
    rw [scalar?, hd]
    rfl

theorem rereads_string (text : String) : (Value.string text).Rereads κ .string := by
  refine rereads_scalar (f := .string text) (by simp) (by simp) (by simp) (by simp) ?_
    (fun e he => he.string_isSymbol _) (fun e he => ?_) (.inr (.inr (.inr (.inl rfl))))
  · simp [Canonical.scalar]
  · rw [scalar?, he.string_name?]
    rfl

theorem rereads_enum {index : Nat} {names : List String} (h : index < names.length)
    (hn : names.length < 2 ^ 63) : (Value.enum index).Rereads κ (.enum names) := by
  -- The name is written if it is the first one that reads as it does.
  by_cases hname : ∃ name, names[index]? = some name ∧
      names.findIdx? (Text.equalsIgnoringCase · name) = some index
  · obtain ⟨name, hget, hfirst⟩ := hname
    refine rereads_scalar (f := .name name) (by simp) (by simp) (by simp) (by simp) ?_
      (fun e he => he.name_isSymbol _) (fun e he => ?_) (.inr (.inr (.inr (.inr ⟨names, rfl⟩))))
    · simp [Canonical.scalar, Canonical.keyword, hget, hfirst]
    · rw [scalar?, he.name_kind_ne, he.name_text, indexOfName?, hfirst]
      rfl
  · refine rereads_scalar (f := .int index) (by simp) (by simp) (by simp) (by simp) ?_
      (fun e he => he.number_isSymbol _) (fun e he => ?_) (.inr (.inr (.inr (.inr ⟨names, rfl⟩))))
    · rw [show String.ofList (Form.int index).chars = toString index from String.ofList_toList,
        Canonical.scalar, Canonical.keyword]
      split
      · rename_i name hget
        exact if_neg fun hfirst => hname ⟨name, hget, hfirst⟩
      · rfl
    · have hi : e.integer? = some (index : Int) := he.int_integer? (by omega) (by omega)
      have hk : (e.kind == .number) = true := by rw [he.number_kind]; rfl
      simp [scalar?, hk, hi, h]

theorem rereads_null : (Value.object none).Rereads κ .object := by
  refine rereads_form (f := .word "null") (by simp +decide) (by simp) (by simp) (by simp) ?_
    fun r e s he hkind hp hv _ => ?_
  · simp [Canonical.scalar]
  · refine ⟨r.modifyValue s fun _ => .object none, ?_, OpenRecord.outline_modifyValue _ hp hv⟩
    rw [OpenRecord.reactValue, hkind]
    simp [he.word_isSymbol, OpenRecord.reactObject, he.word_name?]

theorem rereads_object {reference : String} (h : κ.finds reference .object)
    (hn : reference ≠ "null") : (Value.object (some ⟨reference, .object⟩)).Rereads κ .object := by
  refine rereads_form (f := .string reference) (by simp) (by simp) (by simp) (by simp) ?_
    fun r e s he hkind hp hv hs => ?_
  · simp [Canonical.scalar]
  · obtain ⟨s', hs, ho, -⟩ := Session.exists_resolve hs h
    refine ⟨r.modifyValue s' fun _ => .object (some ⟨reference, .object⟩), ?_, ?_⟩
    · rw [OpenRecord.reactValue, hkind]
      simp [he.string_isSymbol, OpenRecord.reactObject, he.string_name?, hn, hs]
    · rw [← ho] at hv ⊢
      exact OpenRecord.outline_modifyValue _ hp hv

/-! ## Masks -/

/-- Bits are added to a mask. -/
theorem leads_bits {r : OpenRecord} {names : List String} {f : Form} {x b : UInt64}
    (hf : f.ReadsBits names x) {p : Piece} (hp : p.form = f) (hk : r.kind? = some (.mask names))
    (hr : r.path ≠ []) {o : Outline} (hv : o.value? r = some (.mask b)) (rest : List Frame) :
    Leads κ [p] (r.frame .value :: rest) o (r.frame .afterValue :: rest) (o.put r (.mask (b ||| x)))
      {} := by
  refine .stay (m := o.put r (.mask (b ||| x))) (r.frame .afterValue) (by simp)
    (fun e s he ho => ?_) (.nil _ _)
  subst ho
  have he : e.Is f := hp ▸ he.is
  refine ⟨r.modifyValue s (·.addBits x), ?_, OpenRecord.outline_modifyValue (·.addBits x) hr hv⟩
  simp only [Frame.react, RecordRule.react, OpenRecord.reactValue, hk, hf.noBracket e he,
    hf.bits e he, Bool.false_and, Bool.false_eq_true, if_false]
  rfl

theorem leads_moreBits {r : OpenRecord} {names : List String} {parts : List (Form × UInt64)}
    (hf : ∀ p ∈ parts, p.1.ReadsBits names p.2) (hk : r.kind? = some (.mask names))
    (hr : r.path ≠ []) {o : Outline} {b : UInt64} (hv : o.value? r = some (.mask b))
    (rest : List Frame) :
    Leads κ (parts.flatMap fun p => [(Form.symbol ',').joined, p.1.spaced]) (r.frame .afterValue :: rest)
      o (r.frame .afterValue :: rest) (o.put r (.mask ((parts.map (·.2)).foldl (· ||| ·) b))) {} := by
  induction parts generalizing o b with
  | nil =>
    rw [List.map_nil, List.foldl_nil, Outline.put_self hv]
    exact .nil _ _
  | cons p parts ih =>
    rw [List.forall_mem_cons] at hf
    have hcomma : Leads κ [(Form.symbol ',').joined] (r.frame .afterValue :: rest) o
        (r.frame .value :: rest) o {} := by
      refine .read (r.frame .value) (by simp) (fun e s he => ?_) (.nil _ _)
      simp [Frame.react, RecordRule.react, OpenRecord.reactAfterValue, hk, he.is.symbol_isSymbol,
        Except.map, Frame.lift]
    have hmore := ih hf.2 (Outline.value?_put (v := .mask (b ||| p.2)) hv fun h => absurd h hr)
    rw [Outline.put_put] at hmore
    exact hcomma.append ((leads_bits hf.1 (p := p.1.spaced) rfl hk hr hv rest).append hmore)

theorem rereads_mask {names : List String} {bits : UInt64} (h : MaskWritable names bits) :
    (Value.mask bits).Rereads κ (.mask names) := by
  obtain ⟨first, parts, htext, hparts, hall⟩ := exists_maskForms h
  rw [List.forall_mem_cons] at hparts
  -- The forms behind commas, and the semicolon.
  have hchunk (parts : List (Form × UInt64)) (hf : ∀ p ∈ parts, p.1.ReadsBits names p.2)
      {cs : List Char} {ps : List Piece} (hc : Chunk cs ps) (he : ∀ c, c = ',' ∨ c = ';' → Ends ps c) :
      Chunk (cs ++ (parts.flatMap fun p => ',' :: ' ' :: p.1.chars) ++ [';'])
        (ps ++ (parts.flatMap fun p => [(Form.symbol ',').joined, p.1.spaced]) ++
          [(Form.symbol ';').joined]) := by
    induction parts generalizing cs ps with
    | nil => simpa using hc.close (by decide) (he ';' (.inr rfl))
    | cons p parts ih =>
      rw [List.forall_mem_cons] at hf
      have hpart : Chunk (' ' :: p.1.chars) [p.1.spaced] := ⟨by simp, by simpa using hf.1.valid⟩
      have hcomma := (hc.close (by decide) (he ',' (.inl rfl))).append hpart fun q _ q' hq => by
        obtain rfl : p.1.spaced = q' := by simpa using hq
        exact q.follows_spaced p.1
      simpa using ih hf.2 hcomma fun c hc => Ends.append_singleton_iff.2 (hf.1.joins c hc)
  intro key ps lead hlead indent
  refine ⟨first.1, parts.flatMap fun p => [(Form.symbol ',').joined, p.1.spaced], ?_,
    fun r o rest hk hr hv => ?_⟩
  · rw [valueLines_one (by simp) (by simp), Canonical.scalar]
    refine hlead.line indent ?_
    have hfirst : Chunk first.1.chars [first.1.joined] :=
      ⟨by simp, by simpa using hparts.1.valid⟩
    have := hchunk parts hparts.2 hfirst fun c hc => by simpa using hparts.1.joins c hc
    rw [String.toList_append, htext]
    simpa using this
  · have hput := Outline.value?_put (v := .mask (0 ||| first.2)) hv fun h => absurd h hr
    rw [← hall, List.map_cons, List.foldl_cons, ← Outline.put_put o r (.mask (0 ||| first.2))]
    exact (leads_bits hparts.1 (hlead.form first.1) hk hr (b := 0) hv rest).append
      (leads_moreBits hparts.2 hk hr hput rest)

/-! ## Records in records -/

end Value

/-- A name is looked up among the fields behind others that have other names. -/
theorem Schema.field?_append {pre schema : Schema} {name : String} {kind : FieldKind}
    (h : name ∉ pre.map (·.1)) :
    Schema.field? (pre ++ (name, kind) :: schema) name = some (pre.length, kind) := by
  have hfrom (k : Nat) : ((pre ++ (name, kind) :: schema).zipIdx k).findSome?
      (fun entry => if entry.1.1 = name then some (entry.2, entry.1.2) else none) =
        some (k + pre.length, kind) := by
    induction pre generalizing k with
    | nil => simp
    | cons x pre ih =>
      rw [List.map_cons, List.mem_cons, not_or] at h
      have hne : ¬x.1 = name := fun heq => h.1 heq.symm
      simp only [List.cons_append, List.zipIdx_cons, List.findSome?_cons, if_neg hne]
      rw [ih h.2, List.length_cons]
      congr 2
      omega
  exact (hfrom 0).trans (by rw [Nat.zero_add])

namespace Value

/-- The name of a field and what stands in front of its value. -/
theorem leads_field {r : OpenRecord} {pre schema : Schema} {name : String} {kind : FieldKind}
    (hr : r.fields? = some (pre ++ (name, kind) :: schema)) (hn : name ∉ pre.map (·.1)) {o : Outline}
    (hv : o.value? (r.below pre.length) = some kind.zero) (rest : List Frame) :
    Leads κ [(Form.name name).joined, (Form.symbol '=').spaced] (r.frame .field :: rest) o
      ((r.below pre.length).frame .value :: rest) o {} := by
  have hp : (r.below pre.length).path ≠ [] := by simp [OpenRecord.below]
  refine .stay (m := o) ((r.below pre.length).frame .operator) (by simp) (fun e s he ho => ?_) ?_
  · subst ho
    have hlookup : r.fields?.bind (Schema.field? · name) = some (pre.length, kind) := by
      rw [hr, Option.bind_some, Schema.field?_append hn]
    simp only [Frame.react, RecordRule.react, OpenRecord.reactField, he.is.name_isSymbol,
      he.is.name_name, Bool.false_eq_true, if_false, bind, Except.bind, hlookup]
    cases kind with
    | mask names =>
      -- The bits of a mask start anew.
      refine ⟨_, rfl, ?_⟩
      show ((r.below pre.length).modifyValue s fun _ => .mask 0).outline = s.outline
      rw [OpenRecord.outline_modifyValue _ hp hv]
      exact Outline.put_self hv
    | _ => exact ⟨s, rfl, rfl⟩
  · refine .read ((r.below pre.length).frame .value) (by simp) (fun e s he => ?_) (.nil _ _)
    simp [Frame.react, RecordRule.react, he.is.symbol_isSymbol, Frame.lift, Except.map]

/-- The semicolon behind the value of a field. -/
theorem leads_fieldEnd {r : OpenRecord} {schema : Schema} (hr : r.fields? = some schema) (i : Nat)
    (o : Outline) (rest : List Frame) :
    Leads κ [(Form.symbol ';').joined] ((r.below i).frame .afterValue :: rest) o
      (r.frame .field :: rest) o {} := by
  refine .read (r.frame .field) (by simp) (fun e s he => ?_) (.nil _ _)
  simp only [Frame.react, RecordRule.react, OpenRecord.reactAfterValue, he.is.symbol_isSymbol,
    OpenRecord.pop_below]
  simp only [show (';' == ',') = false from rfl, show (';' == ';') = true from rfl, Bool.false_and,
    Bool.not_true, Bool.false_eq_true, if_false]
  split
  · rename_i element hk
    exact absurd hk (OpenRecord.kind?_of_fields? hr element)
  · rfl

/-- The fields of a record are read back one after another. -/
theorem exists_fieldPieces {schema : Schema} {fields : Fields}
    (hnames : fields.map (·.1) = schema.map (·.1))
    (h : ∀ (i : Nat) (field : String × Value) (entry : String × FieldKind),
      fields[i]? = some field → schema[i]? = some entry → field.2.Rereads κ entry.2) (indent : Nat) :
    ∃ qs, Spells (fieldLines schema fields indent) qs ∧
      ∀ (r : OpenRecord) (o : Outline) (rest : List Frame) (pre : Schema) (done : Fields),
        r.fields? = some (pre ++ schema) → ((pre ++ schema).map (·.1)).Nodup →
        done.length = pre.length →
        o.value? r = some (.record (done ++ FieldKind.zeroFields schema)) →
          Leads κ qs (r.frame .field :: rest) o (r.frame .field :: rest)
            (o.put r (.record (done ++ fields))) {} := by
  induction schema generalizing fields with
  | nil =>
    obtain rfl : fields = [] := by simpa using hnames
    refine ⟨[], .nil, fun r o rest pre done _ _ _ hv => ?_⟩
    rw [FieldKind.zeroFields] at hv
    rw [Outline.put_self hv]
    exact .nil _ _
  | cons entry schema ih =>
    obtain ⟨name, kind⟩ := entry
    cases fields with
    | nil => cases hnames
    | cons field fields =>
      obtain ⟨name', v⟩ := field
      obtain ⟨rfl, htail⟩ : name' = name ∧ fields.map (·.1) = schema.map (·.1) :=
        List.cons.inj hnames
      obtain ⟨qs', hspells', hleads'⟩ := ih htail fun i field entry hf he =>
        h (i + 1) field entry hf he
      have hlead : LeadIn (Canonical.name name' ++ " =" ++ " ")
          [(Form.name name').joined, (Form.symbol '=').spaced] Form.spaced :=
        .spaced ⟨by simp, by simp +decide⟩
      obtain ⟨f, qs, hspells, hleads⟩ := h 0 (name', v) (name', kind) rfl rfl _ _ _ hlead indent
      refine ⟨[(Form.name name').joined, (Form.symbol '=').spaced] ++
        f.spaced :: (qs ++ [(Form.symbol ';').joined]) ++ qs', ?_,
        fun r o rest pre done hr hn hlen hv => ?_⟩
      · have hkey : Canonical.name name' ++ " =" ++ " " = Canonical.name name' ++ " = " := by
          rw [String.append_assoc]
          rfl
        rw [hkey] at hspells
        exact hspells.append hspells'
      · have hnew : name' ∉ pre.map (·.1) := by
          rw [List.map_append, List.nodup_append] at hn
          exact fun hm => hn.2.2 _ hm _ (by simp) rfl
        have hzero : o.value? (r.below pre.length) = some kind.zero := by
          rw [Outline.value?_below_record hv, ← hlen, FieldKind.zeroFields]
          simp
        have hput : o.put (r.below pre.length) v =
            o.put r (.record ((done ++ [(name', v)]) ++ FieldKind.zeroFields schema)) := by
          rw [Outline.put_below_record hv, ← hlen, FieldKind.zeroFields,
            modify_length, List.append_assoc]
          rfl
        have hvalue := hleads (r.below pre.length) o rest (OpenRecord.kind?_below_field hr (by simp))
          (by simp [OpenRecord.below]) hzero
        rw [hput] at hvalue
        have hrest := hleads' r _ rest (pre ++ [(name', kind)]) (done ++ [(name', v)])
          (by simpa using hr) (by simpa using hn) (by simp [hlen])
          (Outline.value?_put hv (.record r _))
        rw [Outline.put_put] at hrest
        have hall := (leads_field hr hnew hzero rest).append
          (hvalue.append ((leads_fieldEnd hr pre.length _ rest).append hrest))
        simpa using hall

theorem rereads_record {schema : Schema} {fields : Fields} (hn : (schema.map (·.1)).Nodup)
    (hnames : fields.map (·.1) = schema.map (·.1))
    (h : ∀ (i : Nat) (field : String × Value) (entry : String × FieldKind),
      fields[i]? = some field → schema[i]? = some entry → field.2.Rereads κ entry.2) :
    (Value.record fields).Rereads κ (.record schema) := by
  intro key ps lead hlead indent
  obtain ⟨qs, hspells, hleads⟩ := exists_fieldPieces hnames h (indent + 1)
  refine ⟨.symbol '\x7b', qs ++ [(Form.symbol '\x7d').joined], ?_, fun r o rest hk hp hv => ?_⟩
  · have hbrace : Chunk "\x7b".toList [(Form.symbol '\x7b').joined] :=
      ⟨by simp, by simp +decide⟩
    have hopen := hlead.line indent hbrace
    have hclose : Chunk "\x7d;".toList [(Form.symbol '\x7d').joined, (Form.symbol ';').joined] :=
      ⟨by simp, by simp +decide⟩
    have hlines : valueLines key (.record fields) (.record schema) indent =
        Line.text indent (key ++ "\x7b") :: fieldLines schema fields (indent + 1) ++
          [.text indent "\x7d;"] := rfl
    rw [hlines]
    simpa using hopen.append (hspells.append (hclose.line indent))
  · have hr : r.fields? = some schema := by
      rw [OpenRecord.fields?, if_neg (by simpa using hp), hk]
    refine .read (r.frame .field) (by simp) (fun e s he => ?_) ?_
    · have he := hlead.form _ ▸ he.is
      simp [Frame.react, RecordRule.react, OpenRecord.reactValue, hk, he.symbol_isSymbol, Except.map,
        Frame.lift]
    · have hfields := hleads r o rest [] [] hr hn rfl hv
      refine hfields.append (.read (r.frame .afterValue) (by simp) (fun e s he => ?_) (.nil _ _))
      have hempty : r.path.isEmpty = false := by simpa using hp
      simp [Frame.react, RecordRule.react, OpenRecord.reactField, he.is.symbol_isSymbol, hempty,
        Except.map, Frame.lift]

/-! ## Arrays -/

end Value

theorem OpenRecord.exists_pushItem {η : Type} {r : OpenRecord} {s : Session η}
    {items : List Value} (hp : r.path ≠ []) (h : s.outline.value? r = some (.array items))
    (element : FieldKind) :
    ∃ s', r.pushItem s element = (r.below items.length, s') ∧
      s'.outline = s.outline.put r (.array (items ++ [element.zero])) := by
  obtain ⟨record, hrecord, hv⟩ := Option.bind_eq_some_iff.1 h
  have hget : s.controller.record r.id = record := by
    have hrecord : s.controller.records[r.id.index]? = some record := hrecord
    rw [Controller.record, Array.getD_eq_getD_getElem?, hrecord, Option.getD_some]
  have hat : record.fields.at? r.path = some (.array items) := by
    cases hr : r.path with
    | nil => exact absurd hr hp
    | cons i path => rw [hr] at hv; exact hv
  refine ⟨r.modifyValue s (·.pushItem element.zero), ?_, outline_modifyValue _ hp h⟩
  simp only [pushItem, hget, hat]
  rfl

namespace Value

/-- The items of an array are read back one after another. In front of each there is room for it. -/
theorem exists_itemPieces {element : FieldKind} {items : List Value}
    (h : ∀ item ∈ items, item.Rereads κ element) (indent : Nat) :
    ∃ qs, Spells (itemLines element items indent) qs ∧
      ∀ (r : OpenRecord) (o : Outline) (rest : List Frame) (done : List Value),
        r.kind? = some (.array element) → r.path ≠ [] →
        o.value? r = some (.array (done ++ [element.zero])) →
          Leads κ qs ((r.below done.length).frame .value :: rest) o
            ((r.below (done ++ items).length).frame .value :: rest)
            (o.put r (.array (done ++ items ++ [element.zero]))) {} := by
  induction items with
  | nil =>
    refine ⟨[], .nil, fun r o rest done _ _ hv => ?_⟩
    rw [List.append_nil, Outline.put_self hv]
    exact .nil _ _
  | cons item items ih =>
    rw [List.forall_mem_cons] at h
    obtain ⟨qs', hspells', hleads'⟩ := ih h.2
    obtain ⟨f, qs, hspells, hleads⟩ := h.1 "" [] Form.joined .nothing indent
    refine ⟨_, hspells.append hspells', fun r o rest done hk hp hv => ?_⟩
    have hput : o.put (r.below done.length) item = o.put r (.array (done ++ [item])) := by
      rw [Outline.put_below_array hv, modify_length]
    have hvalue := hleads (r.below done.length) o rest (OpenRecord.kind?_below_item hk _)
      (by simp [OpenRecord.below]) (by rw [Outline.value?_below_array hv]; simp)
    rw [hput] at hvalue
    have hdone := Outline.value?_put (v := .array (done ++ [item])) hv fun h => absurd h hp
    -- Behind the semicolon there is room for a further item.
    have hend : Leads κ [(Form.symbol ';').joined] ((r.below done.length).frame .afterValue :: rest)
        (o.put r (.array (done ++ [item]))) ((r.below (done ++ [item]).length).frame .value :: rest)
        (o.put r (.array (done ++ [item] ++ [element.zero]))) {} := by
      refine .stay (m := o.put r (.array (done ++ [item] ++ [element.zero])))
        ((r.below (done ++ [item]).length).frame .value) (by simp) (fun e s he ho => ?_) (.nil _ _)
      rw [← ho] at hdone
      obtain ⟨s', hs, ho'⟩ := OpenRecord.exists_pushItem hp hdone element
      refine ⟨s', ?_, by rw [ho', ho, Outline.put_put]⟩
      simp [Frame.react, RecordRule.react, OpenRecord.reactAfterValue, he.is.symbol_isSymbol, hk, hs,
        Except.map, Frame.lift]
    have hrest := hleads' r _ rest (done ++ [item]) hk hp
      (Outline.value?_put (v := .array (done ++ [item] ++ [element.zero])) hv fun h => absurd h hp)
    rw [Outline.put_put] at hrest
    simpa using hvalue.append (hend.append hrest)

theorem rereads_array {element : FieldKind} {items : List Value}
    (h : ∀ item ∈ items, item.Rereads κ element) : (Value.array items).Rereads κ (.array element) := by
  intro key ps lead hlead indent
  obtain ⟨qs, hspells, hleads⟩ := exists_itemPieces h (indent + 1)
  refine ⟨.symbol '[', qs ++ [(Form.symbol ']').joined], ?_, fun r o rest hk hp hv => ?_⟩
  · have hbracket : Chunk "[".toList [(Form.symbol '[').joined] := ⟨by simp, by simp +decide⟩
    have hopen := hlead.line indent hbracket
    have hclose : Chunk "];".toList [(Form.symbol ']').joined, (Form.symbol ';').joined] :=
      ⟨by simp, by simp +decide⟩
    have hlines : valueLines key (.array items) (.array element) indent =
        Line.text indent (key ++ "[") :: itemLines element items (indent + 1) ++
          [.text indent "];"] := rfl
    rw [hlines]
    simpa using hopen.append (hspells.append (hclose.line indent))
  · refine .stay (m := o.put r (.array [element.zero])) ((r.below 0).frame .value) (by simp)
      (fun e s he ho => ?_) ?_
    · subst ho
      have he := hlead.form _ ▸ he.is
      obtain ⟨s', hs, ho⟩ := OpenRecord.exists_pushItem hp hv element
      refine ⟨s', ?_, ho⟩
      simp [Frame.react, RecordRule.react, OpenRecord.reactValue, hk, he.symbol_isSymbol, hs,
        Except.map, Frame.lift]
    · have hroom := Outline.value?_put (v := .array [element.zero]) hv fun h => absurd h hp
      have hitems := hleads r _ rest [] hk hp hroom
      rw [Outline.put_put] at hitems
      refine hitems.append (.stay (m := o.put r (.array items)) (r.frame .afterValue) (by simp)
        (fun e s he ho => ?_) (.nil _ _))
      have hfull := Outline.value?_put (v := .array ([] ++ items ++ [element.zero])) hv
        fun h => absurd h hp
      rw [← ho] at hfull
      refine ⟨r.modifyValue s popItem, ?_, ?_⟩
      · simp [Frame.react, RecordRule.react, OpenRecord.reactValue, OpenRecord.kind?_below_item hk,
          OpenRecord.inArray_below hk, he.is.symbol_isSymbol, Except.map, Frame.lift]
      · rw [OpenRecord.outline_modifyValue _ hp hfull, ho, Outline.put_put]
        simp [popItem]

/-- A value that can be written is read back. -/
theorem OfKind.rereads {v : Value} {k : FieldKind} (h : v.OfKind k)
    (hw : v.Writable (κ.finds · .object) k) : v.Rereads κ k := by
  induction h with
  | bool b => exact rereads_bool b
  | integer hl hu => exact rereads_integer hl hu
  | float x => exact rereads_float hw.here
  | string text => exact rereads_string text
  | enum h => exact rereads_enum (h.resolve_right fun hnil => hw.here.1 hnil.1) hw.here.2
  | mask bits names => exact rereads_mask hw.here
  | object asset =>
    cases asset with
    | none => exact rereads_null
    | some asset =>
      obtain ⟨reference, kind⟩ := asset
      obtain ⟨rfl, hn, hfinds⟩ : kind = .object ∧ reference ≠ "null" ∧ κ.finds reference .object :=
        hw.here
      exact rereads_object hfinds hn
  | record hf _ ih =>
    exact rereads_record hw.here hf fun i field entry hi he => ih i field entry hi he (hw.field hi he)
  | array _ ih => exact rereads_array fun item hi => ih item hi (hw.item hi)

end Value

end MotionScript
