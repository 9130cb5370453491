import MotionScript.Config.Toml.Value
/-!
# Settings written in TOML

A document is read line by line: headers open tables, other lines add entries to the table that was
opened last.
-/

namespace MotionScript.Toml

/-- A line of a document. -/
inductive Line where
  | entry (names : List String) (value : Setting)
  /-- The header of a table. -/
  | table (names : List String)
  /-- The header of the next table of several. -/
  | nextTable (names : List String)
deriving Repr

/-- Reads the line in front of a text. -/
def line (cs : List Char) : Option (Line × List Char) :=
  let bound := cs.length + 1
  match cs with
  | '[' :: '[' :: rest => do
    let (names, rest) ← key (skipBlanks rest) bound
    return (.nextTable names, ← expect ']' (← expect ']' rest))
  | '[' :: rest => do
    let (names, rest) ← key (skipBlanks rest) bound
    return (.table names, ← expect ']' rest)
  | cs => do
    let (names, rest) ← key cs bound
    let (setting, rest) ← value nestingLimit (skipBlanks (← expect '=' rest)) bound
    return (.entry names setting, rest)

/-- The lines of a text, at most `fuel`. -/
def lines (cs : List Char) : Nat → Option (List Line)
  | 0 => none
  | fuel + 1 =>
    match skipSpace cs with
    | [] => some []
    | cs => do
      let (first, rest) ← line cs
      return first :: (← lines (← lineEnd rest) fuel)

/-- A document that is read up to some line. -/
structure Draft where
  root : Entries := []
  /-- The key of the table that takes the next entry. -/
  current : List String := []
deriving Repr

/-- Puts a line behind a draft. -/
def Draft.add (d : Draft) : Line → Option Draft
  | .entry names setting =>
    (Entries.modify false .header d.root d.current fun _ t => t.insert names setting).map
      ({ d with root := · })
  | .table names => (d.root.openTable names).map (⟨·, names⟩)
  | .nextTable names => (d.root.openNext names).map (⟨·, names⟩)

/-- A text without the mark of its byte order. -/
def unmarked : List Char → List Char
  | '\ufeff' :: rest => rest
  | cs => cs

/-- The tree of settings that a TOML document describes. -/
def read? (text : String) : Option Setting := do
  let cs := unmarked text.toList
  let d ← (← lines cs (cs.length + 1)).foldlM Draft.add ({} : Draft)
  return .table d.root.settings

end MotionScript.Toml
