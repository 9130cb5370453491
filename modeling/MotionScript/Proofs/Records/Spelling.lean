import MotionScript.Proofs.Records.Conforming
/-!
# What is written in a record

The tokens of the body of a record spell a tree: entries with values, the items of arrays and the bits
of masks. What the tree makes of the values of a record, entry by entry, is said without the rule
that reads it.
-/

namespace MotionScript

/-- What is written for a value. -/
inductive ValueTree where
  /-- A value of one token. -/
  | plain (value : Value)
  /-- A reference to an asset that is not found. -/
  | missing
  /-- Bits of a mask, with commas between them. -/
  | mask (bits : UInt64)
  /-- Entries between braces: the index of a field and its value. -/
  | record (entries : List (Nat × ValueTree))
  /-- Items between brackets, each with its semicolon. The bits of a mask are `loose` if a comma
  stands between them and the bracket. -/
  | array (items : List ValueTree) (loose : Option UInt64)

/-! ## Tokens -/

section

variable {η : Type} [Host η]

/-- The bits of a mask. A closing bracket is none of them within an array. -/
inductive SpellsBits (inArray : Bool) (names : List String) :
    List Event → UInt64 → List Event → Prop
  | last {e : Event} {bits : UInt64} {rest : List Event}
    (hitem : (e.isSymbol ']' && inArray) = false) (hbits : maskBits? e names = some bits) :
    SpellsBits inArray names (e :: rest) bits rest
  | more {e comma : Event} {bits bits' : UInt64} {tokens rest : List Event}
    (hitem : (e.isSymbol ']' && inArray) = false) (hbits : maskBits? e names = some bits)
    (hcomma : comma.isSymbol ',' = true) (h : SpellsBits inArray names tokens bits' rest) :
    SpellsBits inArray names (e :: comma :: tokens) (bits ||| bits') rest

mutual

/-- The tokens of a value of a kind and what follows it, with the host before and behind it. -/
inductive SpellsValue : Bool → FieldKind → η → List Event → ValueTree → η → List Event → Prop
  | scalar {inArray : Bool} {kind : FieldKind} {host : η} {e : Event} {value : Value}
    {rest : List Event} (hitem : (e.isSymbol ']' && inArray) = false)
    (hvalue : scalar? e kind = some value) :
    SpellsValue inArray kind host (e :: rest) (.plain value) host rest
  | null {inArray : Bool} {host : η} {e : Event} {rest : List Event}
    (hitem : (e.isSymbol ']' && inArray) = false) (hname : e.name? = some "null") :
    SpellsValue inArray .object host (e :: rest) (.plain (.object none)) host rest
  | found {inArray : Bool} {host host' : η} {e : Event} {reference : String} {asset : Asset}
    {rest : List Event} (hitem : (e.isSymbol ']' && inArray) = false)
    (hname : e.name? = some reference) (hnull : reference ≠ "null")
    (hasset : Host.resolve host reference .object = (some asset, host')) :
    SpellsValue inArray .object host (e :: rest) (.plain (.object (some asset))) host' rest
  | missing {inArray : Bool} {host host' : η} {e : Event} {reference : String}
    {rest : List Event} (hitem : (e.isSymbol ']' && inArray) = false)
    (hname : e.name? = some reference) (hnull : reference ≠ "null")
    (hasset : Host.resolve host reference .object = (none, host')) :
    SpellsValue inArray .object host (e :: rest) .missing host' rest
  | mask {inArray : Bool} {names : List String} {host : η} {bits : UInt64}
    {tokens rest : List Event} (h : SpellsBits inArray names tokens bits rest) :
    SpellsValue inArray (.mask names) host tokens (.mask bits) host rest
  | record {inArray : Bool} {schema : Schema} {host host' : η} {e : Event}
    {close : Event} {entries : List (Nat × ValueTree)} {tokens rest : List Event}
    (hbrace : e.isSymbol '{' = true)
    (h : SpellsEntries schema host tokens entries host' (close :: rest))
    (hclose : close.isSymbol '}' = true) :
    SpellsValue inArray (.record schema) host (e :: tokens) (.record entries) host' rest
  | array {inArray : Bool} {element : FieldKind} {host host' : η} {e : Event} {items : List ValueTree}
    {loose : Option UInt64} {tokens rest : List Event} (hbracket : e.isSymbol '[' = true)
    (h : SpellsItems element host tokens items loose host' rest) :
    SpellsValue inArray (.array element) host (e :: tokens) (.array items loose) host' rest

/-- Entries and what follows them. Where there are no more tokens, the last semicolon may be missing. -/
inductive SpellsEntries : Schema → η → List Event → List (Nat × ValueTree) → η → List Event → Prop
  | nil {schema : Schema} {host : η} {tokens : List Event} :
    SpellsEntries schema host tokens [] host tokens
  | last {schema : Schema} {host host' : η} {e eq : Event} {name : String} {index : Nat}
    {kind : FieldKind} {w : ValueTree} {tokens : List Event} (hname : e.name? = some name)
    (hfield : schema.field? name = some (index, kind)) (heq : eq.isSymbol '=' = true)
    (hvalue : SpellsValue false kind host tokens w host' []) :
    SpellsEntries schema host (e :: eq :: tokens) [(index, w)] host' []
  | entry {schema : Schema} {host host' host'' : η} {e eq semicolon : Event} {name : String}
    {index : Nat} {kind : FieldKind} {w : ValueTree} {entries : List (Nat × ValueTree)}
    {tokens more rest : List Event} (hname : e.name? = some name)
    (hfield : schema.field? name = some (index, kind)) (heq : eq.isSymbol '=' = true)
    (hvalue : SpellsValue false kind host tokens w host' (semicolon :: more))
    (hsemicolon : semicolon.isSymbol ';' = true)
    (h : SpellsEntries schema host' more entries host'' rest) :
    SpellsEntries schema host (e :: eq :: tokens) ((index, w) :: entries) host'' rest

/-- Items up to a closing bracket. -/
inductive SpellsItems :
    FieldKind → η → List Event → List ValueTree → Option UInt64 → η → List Event → Prop
  | close {element : FieldKind} {host : η} {e : Event} {rest : List Event}
    (hbracket : e.isSymbol ']' = true) : SpellsItems element host (e :: rest) [] none host rest
  | loose {names : List String} {host : η} {e comma : Event} {bits : UInt64}
    {tokens rest : List Event} (hbits : SpellsBits true names tokens bits (comma :: e :: rest))
    (hcomma : comma.isSymbol ',' = true) (hbracket : e.isSymbol ']' = true) :
    SpellsItems (.mask names) host tokens [] (some bits) host rest
  | item {element : FieldKind} {host host' host'' : η} {semicolon : Event} {w : ValueTree}
    {items : List ValueTree} {loose : Option UInt64} {tokens more rest : List Event}
    (hvalue : SpellsValue true element host tokens w host' (semicolon :: more))
    (hsemicolon : semicolon.isSymbol ';' = true)
    (h : SpellsItems element host' more items loose host'' rest) :
    SpellsItems element host tokens (w :: items) loose host'' rest

end

variable {inArray : Bool} {names : List String} {host host' : η} {e comma : Event} {bits : UInt64}
  {tokens rest : List Event}

theorem SpellsValue.exists_bits {w : ValueTree}
    (h : SpellsValue inArray (.mask names) host tokens w host' rest) :
    ∃ bits, w = .mask bits ∧ host' = host ∧ SpellsBits inArray names tokens bits rest := by
  cases h with
  | scalar _ hvalue => cases hvalue
  | mask h => exact ⟨_, rfl, rfl, h⟩

/-- Bits in front of a closing bracket belong to an item without an end. -/
theorem SpellsItems.more_bits {loose : Option UInt64} (hitem : (e.isSymbol ']' && true) = false)
    (hbits : maskBits? e names = some bits) (hcomma : comma.isSymbol ',' = true)
    (h : SpellsItems (.mask names) host tokens [] loose host' rest) :
    ∃ loose, SpellsItems (.mask names) host (e :: comma :: tokens) [] loose host' rest := by
  cases h with
  | close hbracket => exact ⟨_, .loose (.last hitem hbits) hcomma hbracket⟩
  | loose h hcomma' hbracket => exact ⟨_, .loose (.more hitem hbits hcomma h) hcomma' hbracket⟩

end

/-! ## Assignments -/

/-- What the name of a field makes of its value: a mask starts without bits. -/
def FieldKind.named : FieldKind → Value → Value
  | .mask _, _ => .mask 0
  | _, value => value

namespace ValueTree

mutual

/-- What a value becomes when something is written for it. -/
def assign : ValueTree → FieldKind → Value → Value
  | plain value, _, _ => value
  | missing, _, value => value
  | mask bits, _, value => value.addBits bits
  | record entries, .record schema, .record fields => .record (assignEntries entries schema fields)
  | array items _, .array element, .array values => .array (values ++ assignItems items element)
  | _, _, value => value

/-- What the fields of a record become. -/
def assignEntries : List (Nat × ValueTree) → Schema → Fields → Fields
  | [], _, fields => fields
  | (index, w) :: entries, schema, fields =>
    assignEntries entries schema (fields.modify index fun (name, value) =>
      (name, match schema[index]? with
        | some (_, kind) => w.assign kind (kind.named value)
        | none => value))

/-- The values of items, each from the zero value. -/
def assignItems : List ValueTree → FieldKind → List Value
  | [], _ => []
  | w :: items, element => w.assign element element.zero :: assignItems items element

end

variable {schema : Schema} {index : Nat} {name : String} {kind element : FieldKind}

/-- No entries change nothing. -/
theorem assign_nil (schema : Schema) : (record []).assign (.record schema) = fun value => value := by
  funext value
  cases value <;> simp [assign, assignEntries]

theorem assign_entry (h : schema[index]? = some (name, kind)) (w : ValueTree)
    (entries : List (Nat × ValueTree)) (fields : Fields) :
    (record entries).assign (.record schema)
        ((Value.record fields).modifyBelow (w.assign kind ∘ kind.named) [index]) =
      (record ((index, w) :: entries)).assign (.record schema) (.record fields) := by
  simp only [assign, assignEntries, Value.modifyBelow, h]
  rfl

end ValueTree

end MotionScript
