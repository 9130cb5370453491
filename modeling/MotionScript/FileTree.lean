/-!
# A tree of files

Files by path, seen from one working directory. Every directory that leads to the working
directory, to a file or to another known directory exists.
-/

namespace MotionScript

/-- The names of a path between slashes. -/
def splitSlashes (cs : List Char) : List (List Char) :=
  match cs with
  | [] => [[]]
  | '/' :: rest => [] :: splitSlashes rest
  | c :: rest =>
    match splitSlashes rest with
    | [] => [[c]]
    | part :: parts => (c :: part) :: parts

/-- A path relative to another one; an absolute path stands for itself. -/
def joinFilePath (base path : String) : String :=
  if path.startsWith "/" ∨ base = "" then path
  else if base.endsWith "/" then base ++ path
  else base ++ "/" ++ path

structure FileTree where
  /-- Names from the root, and content. -/
  files : List (List String × String) := []
  /-- Names of the working directory. -/
  here : List String := []
  /-- Names of further directories. -/
  directories : List (List String) := []
deriving Repr, Inhabited

namespace FileTree

inductive Entry where
  | file (content : String)
  | directory
deriving Repr

/-- The entry with the given names. -/
def entry? (t : FileTree) (names : List String) : Option Entry :=
  match t.files.lookup names with
  | some content => some (.file content)
  | none =>
    if names.isPrefixOf t.here || t.directories.any names.isPrefixOf ||
        t.files.any fun (file, _) => names.isPrefixOf file then
      some .directory
    else none

/-- Follows path components from a directory. Every component but the last has to lead to a
directory; a component that is empty or `.` stays there, and so does `..` at the root. -/
def follow? (t : FileTree) (dir : List String) : List String → Option (List String)
  | [] => some dir
  | part :: rest =>
    match t.entry? dir with
    | some .directory =>
      if part = "" ∨ part = "." then t.follow? dir rest
      else if part = ".." then t.follow? dir.dropLast rest
      else t.follow? (dir ++ [part]) rest
    | _ => none

/-- The names a path leads to, whether or not anything exists there. -/
def locate? (t : FileTree) (path : String) : Option (List String) :=
  if path = "" then none
  else
    t.follow? (if path.startsWith "/" then [] else t.here)
      ((splitSlashes path.toList).map String.ofList)

def lookup? (t : FileTree) (path : String) : Option Entry := (t.locate? path).bind t.entry?

def read? (t : FileTree) (path : String) : Option String :=
  match t.lookup? path with
  | some (.file content) => some content
  | _ => none

def isFile (t : FileTree) (path : String) : Bool := (t.read? path).isSome

def isDirectory (t : FileTree) (path : String) : Bool :=
  match t.lookup? path with
  | some .directory => true
  | _ => false

def exists? (t : FileTree) (path : String) : Bool := (t.lookup? path).isSome

/-- Writes a file; its directory has to exist and the path must not lead to a directory. -/
def write? (t : FileTree) (path content : String) : Option FileTree :=
  match t.locate? path with
  | none => none
  | some names =>
    if names.isEmpty then none
    else
      match t.entry? names.dropLast, t.entry? names with
      | some .directory, some (.file _) =>
        some { t with files := t.files.map fun (file, old) =>
          (file, if file = names then content else old) }
      | some .directory, none => some { t with files := t.files ++ [(names, content)] }
      | _, _ => none

/-- The names from the root that a path seen from the directory `here` stands for. -/
def absoluteNames (here : List String) (path : String) : List String :=
  (splitSlashes path.toList).foldl (fun names part =>
      if part = [] ∨ part = ['.'] then names
      else if part = ['.', '.'] then names.dropLast
      else names ++ [String.ofList part])
    (if path.startsWith "/" then [] else here)

/-- The tree of files given by their paths, seen from the directory `here`. -/
def ofPaths (here : List String) (files : List (String × String)) : FileTree where
  files := files.map fun (path, content) => (absoluteNames here path, content)
  here

end FileTree

/-- The last component of a path without its last extension: the name of a document. -/
def fileStem (path : String) : String :=
  match ((splitSlashes path.toList).filter fun n => !n.isEmpty && n != ['.']).getLast? with
  | none => ""
  | some name =>
    if name = ['.', '.'] then ""
    else
      let stem := (name.reverse.dropWhile (· != '.')).tail.reverse
      String.ofList (if stem.isEmpty then name else stem)

end MotionScript
