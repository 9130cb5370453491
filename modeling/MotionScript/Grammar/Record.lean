import MotionScript.Grammar.Frame
/-!
# Records

A record is written as its type name and the values of some of its fields. The schema of the type
says which fields there are and what their values may be; all other fields keep their zero value.
-/

namespace MotionScript

/-! ## Values -/

/-- The diagnostic for a token that is no value of a kind. -/
def Event.invalidValue (e : Event) (expected : String) : Diagnostic :=
  ((Diagnostic.error s!"invalid value `{e.text}`").withCode .invalidValue
    |>.withLabel e.span s!"expected {expected}").withPosition e.position

/-- The index of the first name equal to a text, ignoring case. -/
def indexOfName? (names : List String) (text : String) : Option Nat :=
  names.findIdx? (Text.equalsIgnoringCase · text)

/-- The value that a token stands for as a boolean, a number, a string or an enum variant. -/
def scalar? (e : Event) : FieldKind → Option Value
  | .bool =>
    if e.isKeyword "true" then some (.bool true)
    else if e.isKeyword "false" then some (.bool false)
    else e.double?.map fun x => .bool (x != .zero)
  | .integer => e.integer?.map .integer
  | .float => e.double?.map .float
  | .string => e.name?.map .string
  | .enum names =>
    if e.kind == .number then
      e.integer?.bind fun n =>
        if 0 ≤ n ∧ n < names.length then some (.enum n.toNat) else none
    else (indexOfName? names e.text).map .enum
  | _ => none

/-- The bits that a token stands for in a mask. -/
def maskBits? (e : Event) (names : List String) : Option UInt64 :=
  if e.kind == .number then
    e.integer?.bind fun n => if 0 ≤ n then some (UInt64.ofNat n.toNat) else none
  else
    (indexOfName? names e.text).bind fun bit =>
      if bit < 64 then some (1 <<< UInt64.ofNat bit) else none

namespace Value

/-- Adds bits to a mask. -/
def addBits (bits : UInt64) : Value → Value
  | .mask old => .mask (old ||| bits)
  | value => value

/-- Adds an item to an array. -/
def pushItem (value item : Value) : Value :=
  match value with
  | .array items => .array (items ++ [item])
  | value => value

/-- Removes the last item of an array. -/
def popItem : Value → Value
  | .array items => .array items.dropLast
  | value => value

/-- The number of items of an array. -/
def itemCount : Value → Nat
  | .array items => items.length
  | _ => 0

end Value

/-! ## The type name -/

namespace RecordRule

/-- The type name with a token appended, if the token can continue it: identifiers joined by
`.`, `,` or `:`, or quoted strings. -/
def extendTypeName (mode : Option TypeNameMode) (text : String) (e : Event) :
    Option (TypeNameMode × String) :=
  match mode, e.kind with
  | none, .identifier | some .identifiers, .identifier => some (.identifiers, text ++ e.text)
  | none, .single | none, .double | some .strings, .single | some .strings, .double =>
    some (.strings, text ++ e.text)
  | some .identifiers, .symbol =>
    if e.isSymbol '.' || e.isSymbol ',' || e.isSymbol ':' then some (.identifiers, text ++ e.text)
    else none
  | _, _ => none

/-- The part of a type name behind its last `.`, `,` or `:`. -/
def shortName (name : String) : String :=
  String.ofList (name.toList.reverse.takeWhile fun c => !(c == '.' || c == ',' || c == ':')).reverse

variable {η : Type} [Host η]

/-- Attaches a record to the enclosing state or machine. -/
def attach (s : Session η) (scope : Scope) (record : Record) : RecordId × Session η :=
  let (id, c) := s.controller.addRecord record
  let c :=
    match scope.state with
    | some state => c.modifyState state fun st => { st with records := st.records ++ [id] }
    | none => c.modifyMachine scope.machine fun m => { m with records := m.records ++ [id] }
  (id, { s with controller := c }.persist scope.hint (.record id) (shortName record.typeName))

/-- Opens a record of the type that was named. -/
def openBody (outer : Option Scope) (name : String) (e : Event) (s : Session η) :
    Except Diagnostic (Step RecordRule η) :=
  match Host.schema? s.host name with
  | none =>
    .error (((Diagnostic.error s!"unknown behaviour type `{name}`").withCode .unknownRecordType
      |>.withLabel e.span "record starts here").withPosition e.position)
  | some schema =>
    match outer with
    | none => .error (e.outOfPlace "a behaviour")
    | some scope =>
      let (id, s) := attach s scope (.new name schema)
      .ok (body ⟨name, schema, id, []⟩ .field, s, none)

end RecordRule

/-! ## The body -/

namespace OpenRecord

/-- The kind of the current value. -/
def kind? (r : OpenRecord) : Option FieldKind := r.schema.kindAt? r.path

/-- The fields among which the next name is looked up. -/
def fields? (r : OpenRecord) : Option Schema :=
  if r.path.isEmpty then some r.schema
  else
    match r.kind? with
    | some (.record fields) => some fields
    | _ => none

/-- Whether the current value is an item of an array. -/
def inArray (r : OpenRecord) : Bool :=
  match r.schema.kindAt? r.path.dropLast with
  | some (.array _) => true
  | _ => false

def pop (r : OpenRecord) : OpenRecord := { r with path := r.path.dropLast }

variable {η : Type} [Host η]

omit [Host η] in
/-- Changes the current value. -/
def modifyValue (r : OpenRecord) (s : Session η) (f : Value → Value) : Session η :=
  s.modify (·.modifyRecord r.id fun record =>
    { record with fields := record.fields.modifyAt f r.path })

omit [Host η] in
/-- Adds an item with the zero value of its kind to the current array and goes on to it. -/
def pushItem (r : OpenRecord) (s : Session η) (element : FieldKind) : OpenRecord × Session η :=
  match (s.controller.record r.id).fields.at? r.path with
  | some (.array items) =>
    ({ r with path := r.path ++ [items.length] }, r.modifyValue s (·.pushItem element.zero))
  | _ => (r, s)

abbrev BodyStep (η : Type) := OpenRecord × RecordExpect × Session η

omit [Host η] in
def reactField (r : OpenRecord) (e : Event) (s : Session η) : Except Diagnostic (BodyStep η) :=
  if e.isSymbol '}' then .ok (r, if r.path.isEmpty then .stop else .afterValue, s)
  else do
    let name ← e.name "a field name or `\x7d`"
    match r.fields?.bind (Schema.field? · name) with
    | none =>
      let d := Diagnostic.error s!"unknown field `{name}` in `{r.typeName}`"
      .error ((d.withCode .unknownField).withLabel e.span "not a field of this record"
        |>.withPosition e.position)
    | some (index, kind) =>
      let r := { r with path := r.path ++ [index] }
      match kind with
      | .mask _ => .ok (r, .operator, r.modifyValue s fun _ => .mask 0)
      | _ => .ok (r, .operator, s)

/-- The asset a token stands for: `null` is none, and one that is not found leaves the value. -/
def reactObject (r : OpenRecord) (e : Event) (s : Session η) : Except Diagnostic (BodyStep η) :=
  match e.name? with
  | none => .error (e.invalidValue "an object reference or `null`")
  | some reference =>
    if reference = "null" then .ok (r, .afterValue, r.modifyValue s fun _ => .object none)
    else
      match s.resolve reference .object with
      | (some asset, s) => .ok (r, .afterValue, r.modifyValue s fun _ => .object (some asset))
      | (none, s) => .ok (r, .afterValue, s)

def reactValue (r : OpenRecord) (e : Event) (s : Session η) : Except Diagnostic (BodyStep η) :=
  match r.kind? with
  | none => .error (e.unexpected "a field")
  | some kind =>
    if e.isSymbol ']' && r.inArray then .ok (r.pop, .afterValue, r.pop.modifyValue s (·.popItem))
    else
      let scalar : Except Diagnostic (BodyStep η) :=
        match scalar? e kind with
        | some value => .ok (r, .afterValue, r.modifyValue s fun _ => value)
        | none => .error (e.invalidValue s!"a {kind.noun}")
      match kind with
      | .record _ => if e.isSymbol '{' then .ok (r, .field, s) else scalar
      | .array element =>
        if e.isSymbol '[' then
          let (r, s) := r.pushItem s element
          .ok (r, .value, s)
        else scalar
      | .mask names =>
        match maskBits? e names with
        | some bits => .ok (r, .afterValue, r.modifyValue s (·.addBits bits))
        | none =>
          .error (e.invalidValue
            (if e.kind == .number then "a mask bit pattern" else "a mask bit name"))
      | .object => r.reactObject e s
      | _ => scalar

omit [Host η] in
/-- What follows a value: a comma and another bit name, or the semicolon. Behind the semicolon of an
array item a further item is expected. -/
def reactAfterValue (r : OpenRecord) (e : Event) (s : Session η) : Except Diagnostic (BodyStep η) :=
  let isMask :=
    match r.kind? with
    | some (.mask _) => true
    | _ => false
  if e.isSymbol ',' && isMask then .ok (r, .value, s)
  else if !e.isSymbol ';' then .error (e.unexpected "`;`")
  else
    match r.pop.kind? with
    | some (.array element) =>
      let (r, s) := r.pop.pushItem s element
      .ok (r, .value, s)
    | _ => .ok (r.pop, .field, s)

end OpenRecord

namespace RecordRule

variable {η : Type} [Host η]

def react (e : Event) (s : Session η) : RecordRule → Except Diagnostic (Step RecordRule η)
  | typeName outer mode text =>
    if e.isSymbol '{' && text != "" then openBody outer text e s
    else
      match extendTypeName mode text e with
      | some (mode, text) => .ok (typeName outer (some mode) text, s, none)
      | none => .error (e.unexpected "a behaviour type name followed by `\x7b`")
  | body r expect =>
    match expect with
    | .field => (r.reactField e s).map fun (r, expect, s) => (body r expect, s, none)
    | .operator =>
      if e.isSymbol '=' then .ok (body r .value, s, none) else .error (e.unexpected "`=`")
    | .value => (r.reactValue e s).map fun (r, expect, s) => (body r expect, s, none)
    | .afterValue => (r.reactAfterValue e s).map fun (r, expect, s) => (body r expect, s, none)
    | .stop =>
      if e.isSymbol ';' then .ok (body r .stop, s, some (.detach false))
      else .error (e.unexpected "`;`")

end RecordRule

end MotionScript
