import MotionScript.Config.Setting
/-!
# Tables of a TOML document

A document may come back to a table that it has opened, but not to all of them: values are closed
to extension, a table has one header, and dotted keys and headers do not add to each other's tables.
-/

namespace MotionScript.Toml

/-- How a table came to be. -/
inductive Origin where
  /-- It has its own header, or is the document itself. -/
  | header
  /-- It was named in front of the last name of a header. -/
  | implied
  /-- It was named in front of the last name of a dotted key. -/
  | dotted
deriving DecidableEq, Repr

/-- What a name in a table stands for. -/
inductive Node where
  /-- A value, to which nothing can be added. -/
  | closed (setting : Setting)
  | table (origin : Origin) (entries : List (String × Node))
  /-- The tables under equal headers in double brackets. -/
  | tables (elements : List (List (String × Node)))
deriving Repr

abbrev Entries := List (String × Node)

namespace Entries

/-- Gives a name that is in use another meaning. -/
def put (t : Entries) (name : String) (node : Node) : Entries :=
  t.map fun (other, old) => (other, if other = name then node else old)

/-- The origin of tables that a path leads through for the first time. -/
def fresh (dotted : Bool) : Origin := if dotted then .dotted else .implied

/-- Changes the table at the end of a path, which may depend on its origin. The path of a header
goes on in the last of several tables; a dotted path does not enter a table with a header. -/
def modify (dotted : Bool) (origin : Origin) (t : Entries) (path : List String)
    (f : Origin → Entries → Option Entries) : Option Entries :=
  match path with
  | [] => f origin t
  | name :: path =>
    match List.lookup name t with
    | none => do
      let inner ← modify dotted (fresh dotted) [] path f
      return t ++ [(name, .table (fresh dotted) inner)]
    | some (.closed _) => none
    | some (.table origin inner) => do
      guard (!(dotted && origin = .header))
      let inner ← modify dotted origin inner path f
      return put t name (.table origin inner)
    | some (.tables elements) => do
      let inner ← modify dotted .header (← elements.getLast?) path f
      return put t name (.tables (elements.dropLast ++ [inner]))

/-- Adds a value under a key, whose last name must be new. -/
def insert (t : Entries) (key : List String) (value : Setting) : Option Entries := do
  let name ← key.getLast?
  let dotted := decide (1 < key.length)
  modify dotted .header t key.dropLast fun origin inner => do
    guard ((dotted → origin = .dotted) ∧ (List.lookup name inner).isNone)
    return inner ++ [(name, .closed value)]

/-- Opens the table of a header. -/
def openTable (t : Entries) (key : List String) : Option Entries := do
  let name ← key.getLast?
  modify false .header t key.dropLast fun _ outer =>
    match List.lookup name outer with
    | none => some (outer ++ [(name, .table .header [])])
    | some (.table .implied inner) => some (put outer name (.table .header inner))
    | some _ => none

/-- Opens the next table of a header in double brackets. -/
def openNext (t : Entries) (key : List String) : Option Entries := do
  let name ← key.getLast?
  modify false .header t key.dropLast fun _ outer =>
    match List.lookup name outer with
    | none => some (outer ++ [(name, .tables [[]])])
    | some (.tables elements) => some (put outer name (.tables (elements ++ [[]])))
    | some _ => none

end Entries

mutual
/-- What a name stands for, as a setting. -/
def Node.setting : Node → Setting
  | .closed setting => setting
  | .table _ entries => .table (Entries.settings entries)
  | .tables elements => .list (Entries.tableSettings elements)

def Entries.settings : Entries → List (String × Setting)
  | [] => []
  | (name, node) :: rest => (name, Node.setting node) :: Entries.settings rest

def Entries.tableSettings : List Entries → List Setting
  | [] => []
  | entries :: rest => .table (Entries.settings entries) :: Entries.tableSettings rest
end

end MotionScript.Toml
