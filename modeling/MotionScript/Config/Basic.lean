import MotionScript.Config.Setting
import MotionScript.Graph.Record
import MotionScript.Layout.Settings
/-!
# Configuration

The constants of the layout, the directory of the assets, and the record types a document may use.
What is not set has its default.
-/

namespace MotionScript

/-- A record type by its qualified name. -/
structure RecordType where
  name : String
  schema : Schema
deriving BEq, Repr, Inhabited

structure Config where
  layout : LayoutSettings := {}
  /-- Directory under which assets are looked up. -/
  assetRoot : Option String := none
  recordTypes : List RecordType := []
deriving BEq, Repr, Inhabited

/-- The registry of the record types, registered in order. -/
def Config.registry (c : Config) : Registry :=
  c.recordTypes.foldl (fun r t => r.register t.name t.schema) {}

namespace Setting

/-! ## Kinds of fields -/

/-- The kind with a name that has no parameter. -/
def plainKind? : String → Option FieldKind
  | "bool" => some .bool
  | "integer" => some .integer
  | "float" => some .float
  | "string" => some .string
  | "object" => some .object
  | _ => none

variable (d : Dialect)

mutual
/-- A kind of field: its name, or a table from its name to its parameter. -/
def fieldKind? : Setting → Option FieldKind
  | text name => plainKind? name
  | table [("enum", list names)] => (names.mapM text?).map .enum
  | table [("mask", list names)] => (names.mapM text?).map .mask
  | table [("record", schema)] => (schema? schema).map .record
  | table [("array", element)] => (fieldKind? element).map .array
  | table [(name, setting)] => if d.isVoid setting then plainKind? name else none
  | _ => none

/-- A schema: a table with the entry `fields`. -/
def schema? : Setting → Option Schema
  | table entries => fieldsEntry? entries
  | moment => some []
  | list [] => some []
  | list (setting :: rest) => if d.surplus || rest.isEmpty then fieldList? setting else none
  | _ => none

/-- The fields under the first entry `fields`; without one there are none. -/
def fieldsEntry? : List (String × Setting) → Option Schema
  | [] => some []
  | (name, setting) :: rest => if name = "fields" then fieldList? setting else fieldsEntry? rest

def fieldList? : Setting → Option Schema
  | list items => fields? items
  | _ => none

def fields? : List Setting → Option Schema
  | [] => some []
  | setting :: rest => do return (← field? setting) :: (← fields? rest)

/-- A field: a table with the entries `name` and `kind`. -/
def field? : Setting → Option (String × FieldKind)
  | table entries => do return (← readEntry entries "name" text? none, ← kindEntry? entries)
  | list (text name :: kind :: rest) =>
    if d.surplus || rest.isEmpty then (fieldKind? kind).map (name, ·) else none
  | _ => none

/-- The kind under the first entry `kind`. -/
def kindEntry? : List (String × Setting) → Option FieldKind
  | [] => none
  | (name, setting) :: rest => if name = "kind" then fieldKind? setting else kindEntry? rest
end

/-! ## The parts of a configuration -/

/-- A record type: a table with the entries `name` and `fields`. -/
def recordType? (s : Setting) : Option RecordType := do
  let entries ← s.entries? d ["name", "fields"]
  return ⟨← readEntry entries "name" text? none, ← fieldsEntry? d entries⟩

def layout? (s : Setting) : Option LayoutSettings := do
  let entries ← s.entries? d ["unit_distance", "min_distance", "epsilon", "attractive_strength",
    "repulsive_strength", "damping", "iterations", "seed"]
  let standard : LayoutSettings := {}
  let number (name : String) (absent : Single) := readEntry entries name single? (some absent)
  return {
    unitDistance := ← number "unit_distance" standard.unitDistance
    minDistance := ← number "min_distance" standard.minDistance
    epsilon := ← number "epsilon" standard.epsilon
    attraction := ← number "attractive_strength" standard.attraction
    repulsion := ← number "repulsive_strength" standard.repulsion
    damping := ← number "damping" standard.damping
    iterations := ← readEntry entries "iterations" natural? (some standard.iterations)
    seed := ← readEntry entries "seed" (fun s => s.natural?.map UInt64.ofNat) (some standard.seed) }

/-- The asset directory: a table with the entry `root`. -/
def assetRoot? (s : Setting) : Option (Option String) := do
  readEntry (← s.entries? d ["root"]) "root" optionalText? (some none)

end Setting

/-- The configuration that a tree of settings describes. Unknown entries are ignored. -/
def Config.ofSetting? (d : Dialect) (s : Setting) : Option Config := do
  let entries ← s.entries? d ["layout", "assets", "behaviours"]
  return {
    layout := ← Setting.readEntry entries "layout" (Setting.layout? d) (some {})
    assetRoot := ← Setting.readEntry entries "assets" (Setting.assetRoot? d) (some none)
    recordTypes := ← Setting.readEntry entries "behaviours"
      (fun s => s.list?.bind (·.mapM (Setting.recordType? d))) (some []) }

end MotionScript
