import MotionScript.Canonical.Line
import MotionScript.Canonical.Quoted
import MotionScript.Graph.Record
/-!
# Written records
-/

namespace MotionScript.Canonical

/-- The parts of a text between `.`, `,` and `:`. -/
def typeNameParts (cs : List Char) : List (List Char) :=
  cs.splitOnP fun c => c == '.' || c == ',' || c == ':'

/-- A type name as joined identifiers if every part is one, quoted otherwise. -/
def typeName (text : String) : String :=
  if (typeNameParts text.toList).all isBare then text else string text

/-- The name at an index, or the index if there is none or an earlier name would be read instead. -/
def keyword (names : List String) (index : Nat) : String :=
  match names[index]? with
  | some text =>
    if names.findIdx? (Text.equalsIgnoringCase · text) = some index then name text
    else toString index
  | none => toString index

/-- Whether a text is digits, with at most a plus in front, of a 64-bit number. -/
def isWord (text : String) : Bool :=
  let digits :=
    match text.toList with
    | '+' :: rest => rest
    | cs => cs
  !digits.isEmpty && digits.all Char.isDigit && decide (ofDigits digits < 0x10000000000000000)

/-- The bits of a mask that are written by name, with their names. -/
def namedBits (names : List String) (bits : UInt64) : List (Nat × String) :=
  (List.range (min names.length 64)).filterMap fun index =>
    let text := keyword names index
    if bits &&& (1 <<< UInt64.ofNat index) != 0 && !isWord text then some (index, text) else none

/-- A mask: names for the bits that have one, and one number for the rest. -/
def mask (names : List String) (bits : UInt64) : String :=
  let named := namedBits names bits
  let rest := named.foldl (fun rest (index, _) => rest &&& ~~~(1 <<< UInt64.ofNat index)) bits
  let parts := named.map (·.2)
  ", ".intercalate (if rest != 0 || parts.isEmpty then parts ++ [toString rest.toNat] else parts)

/-- A value that fits on a line. -/
def scalar (value : Value) (kind : FieldKind) : String :=
  match value, kind with
  | .bool b, _ => if b then "true" else "false"
  | .integer n, _ => toString n
  | .float x, _ => toString x
  | .string text, _ => string text
  | .enum index, .enum names => keyword names index
  | .enum index, _ => toString index
  | .mask bits, .mask names => mask names bits
  | .mask bits, _ => toString bits.toNat
  | .object (some asset), _ => string asset.reference
  | .object none, _ => "null"
  | .record _, _ | .array _, _ => ""

mutual
/-- A value behind the text `label`. -/
def valueLines (label : String) (value : Value) (kind : FieldKind) (depth : Nat) : List Line :=
  match value, kind with
  | .record fields, .record schema =>
    Line.text depth (label ++ "\x7b") :: fieldLines schema fields (depth + 1) ++
      [.text depth "\x7d;"]
  | .array items, .array element =>
    Line.text depth (label ++ "[") :: itemLines element items (depth + 1) ++ [.text depth "];"]
  | value, kind => [.text depth (label ++ scalar value kind ++ ";")]

/-- The fields of a record. -/
def fieldLines (schema : List (String × FieldKind)) (fields : List (String × Value)) (depth : Nat) :
    List Line :=
  match schema, fields with
  | (_, kind) :: schema, (field, value) :: fields =>
    valueLines (name field ++ " = ") value kind depth ++ fieldLines schema fields depth
  | _, _ => []

/-- The items of an array. -/
def itemLines (element : FieldKind) (items : List Value) (depth : Nat) : List Line :=
  match items with
  | [] => []
  | item :: items => valueLines "" item element depth ++ itemLines element items depth
end

/-- A record. -/
def record (r : Record) (depth : Nat) : List Line :=
  Line.text depth (typeName r.typeName ++ " \x7b") :: fieldLines r.schema r.fields (depth + 1) ++
    [.text depth "\x7d;"]

end MotionScript.Canonical
