import MotionScript.Graph.Asset
import MotionScript.Number.Binary
/-!
# Records

A record is a typed bag of values attached to a state or a machine. The embedding application
describes the fields of every record type by a schema.
-/

namespace MotionScript

/-- The type of a field. -/
inductive FieldKind where
  | bool
  | integer
  | float
  | string
  /-- Variant names in index order. -/
  | enum (names : List String)
  /-- Bit names: the name at index `i` stands for bit `i`. -/
  | mask (names : List String)
  /-- An asset of any kind, or none. -/
  | object
  | record (fields : List (String × FieldKind))
  | array (element : FieldKind)
deriving BEq, Repr, Inhabited

/-- The fields of a record type, in order. -/
abbrev Schema := List (String × FieldKind)

/-- The value of a field. -/
inductive Value where
  | bool (value : Bool)
  | integer (value : Int)
  | float (value : Double)
  | string (text : String)
  /-- Index of a variant. -/
  | enum (index : Nat)
  | mask (bits : UInt64)
  | object (asset : Option Asset)
  | record (fields : List (String × Value))
  | array (items : List Value)
deriving BEq, Repr, Inhabited

/-- The values of a record with the names of their fields, in schema order. -/
abbrev Fields := List (String × Value)

namespace FieldKind

mutual
/-- The zero value of a kind. -/
def zero : FieldKind → Value
  | bool => .bool false
  | integer => .integer 0
  | float => .float .zero
  | string => .string ""
  | enum _ => .enum 0
  | mask _ => .mask 0
  | object => .object none
  | record fields => .record (zeroFields fields)
  | array _ => .array []

/-- The zero value of every field. -/
def zeroFields : List (String × FieldKind) → Fields
  | [] => []
  | (name, kind) :: rest => (name, zero kind) :: zeroFields rest
end

/-- What a value of this kind is called in messages. -/
def noun : FieldKind → String
  | bool => "boolean"
  | integer => "integer"
  | float => "number"
  | string => "string"
  | enum _ => "enum variant"
  | mask _ => "mask"
  | object => "object reference"
  | record _ => "record"
  | array _ => "array"

end FieldKind

namespace Schema

/-- Finds the first field with a name, and its index. -/
def field? (schema : Schema) (name : String) : Option (Nat × FieldKind) :=
  schema.zipIdx.findSome? fun ((field, kind), index) =>
    if field = name then some (index, kind) else none

/-- The record with the zero value of every field. -/
def zero (schema : Schema) : Fields := FieldKind.zeroFields schema

/-- The kind of what a list of indices leads to, from a kind down through records and arrays. -/
def kindBelow? (kind : FieldKind) : List Nat → Option FieldKind
  | [] => some kind
  | index :: rest =>
    match kind with
    | .record fields => (fields[index]?).bind fun (_, kind) => kindBelow? kind rest
    | .array element => kindBelow? element rest
    | _ => none

/-- The kind of the field or element that a non-empty list of indices leads to. -/
def kindAt? (schema : Schema) : List Nat → Option FieldKind
  | [] => none
  | index :: rest => (schema[index]?).bind fun (_, kind) => kindBelow? kind rest

end Schema

namespace Value

/-- Changes the value that a list of indices leads to. -/
def modifyBelow (f : Value → Value) (value : Value) : List Nat → Value
  | [] => f value
  | index :: rest =>
    match value with
    | .record fields => .record (fields.modify index fun (name, v) => (name, modifyBelow f v rest))
    | .array items => .array (items.modify index (modifyBelow f · rest))
    | value => value

/-- The value that a list of indices leads to. -/
def below? (value : Value) : List Nat → Option Value
  | [] => some value
  | index :: rest =>
    match value with
    | .record fields => (fields[index]?).bind fun (_, v) => below? v rest
    | .array items => (items[index]?).bind (below? · rest)
    | _ => none

end Value

namespace Fields

/-- The first value with a name. -/
def get? (fields : Fields) (name : String) : Option Value := fields.lookup name

/-- Changes the value that a non-empty list of indices leads to. -/
def modifyAt (fields : Fields) (f : Value → Value) : List Nat → Fields
  | [] => fields
  | index :: rest => fields.modify index fun (name, value) => (name, value.modifyBelow f rest)

/-- The value that a non-empty list of indices leads to. -/
def at? (fields : Fields) : List Nat → Option Value
  | [] => none
  | index :: rest => (fields[index]?).bind fun (_, value) => value.below? rest

end Fields

/-- A record attached to a state or a machine. -/
structure Record where
  typeName : String
  schema : Schema
  fields : Fields
deriving BEq, Repr, Inhabited

/-- A record with the zero value of every field. -/
def Record.new (typeName : String) (schema : Schema) : Record := ⟨typeName, schema, schema.zero⟩

/-- Record types by qualified name, in the order of first registration. -/
structure Registry where
  types : List (String × Schema) := []
deriving Repr, Inhabited

namespace Registry

def size (r : Registry) : Nat := r.types.length

/-- The place of a type in the order of first registration. -/
def slot? (r : Registry) (name : String) : Option Nat := r.types.findIdx? (·.1 == name)

def schema? (r : Registry) (name : String) : Option Schema := r.types.lookup name

/-- Adds a type. A type of the same name keeps its place and gets the new schema. -/
def register (r : Registry) (name : String) (schema : Schema) : Registry :=
  if (r.schema? name).isSome then
    ⟨r.types.map fun (other, old) => (other, if other = name then schema else old)⟩
  else ⟨r.types ++ [(name, schema)]⟩

end Registry

end MotionScript
