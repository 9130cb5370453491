import MotionScript.Number.Binary
/-!
# Settings

A configuration is given as a tree of settings, whatever format it is written in. A table is usually
written with names; a list gives the same entries by place, and may stop early. What else formats
differ in is a dialect.
-/

namespace MotionScript

inductive Setting where
  | null
  | bool (value : Bool)
  | integer (value : Int)
  | float (value : Double)
  | text (value : String)
  /-- A date or a time. -/
  | moment
  | list (items : List Setting)
  | table (entries : List (String × Setting))
deriving Repr, Inhabited

/-- What the formats of settings differ in. -/
structure Dialect where
  /-- Whether a setting stands for nothing, where there is nothing to be set. -/
  isVoid : Setting → Bool
  /-- Whether a list that gives the entries of a table may have more items. -/
  surplus : Bool

namespace Dialect

def json : Dialect where
  isVoid
    | .null => true
    | _ => false
  surplus := false

def toml : Dialect where
  isVoid
    | .list [] | .table [] => true
    | _ => false
  surplus := true

end Dialect

namespace Setting

def text? : Setting → Option String
  | text value => some value
  | _ => none

def list? : Setting → Option (List Setting)
  | list items => some items
  | _ => none

/-- The nearest 32-bit number, also of an integer of 64 bits. -/
def single? : Setting → Option Single
  | integer n => if -0x8000000000000000 ≤ n ∧ n < 0x10000000000000000 then some (.ofInt n) else none
  | float x => some (x.convert .single)
  | _ => none

/-- A natural number of 64 bits. -/
def natural? : Setting → Option Nat
  | integer n => if 0 ≤ n ∧ n < 0x10000000000000000 then some n.toNat else none
  | _ => none

/-- A text, or `null` for none. -/
def optionalText? : Setting → Option (Option String)
  | null => some none
  | text value => some (some value)
  | _ => none

/-- The entries of a table whose entries have the given names in the order of their places. A date
or a time is a table without them. -/
def entries? (d : Dialect) (names : List String) : Setting → Option (List (String × Setting))
  | table entries => some entries
  | moment => some []
  | list items =>
    if d.surplus || items.length ≤ names.length then some (names.zip items) else none
  | _ => none

/-- Reads the entry with a name; a missing entry has the value `absent`. -/
def readEntry {α : Type} (entries : List (String × Setting)) (name : String)
    (read : Setting → Option α) (absent : Option α) : Option α :=
  match entries.lookup name with
  | some setting => read setting
  | none => absent

end Setting

end MotionScript
