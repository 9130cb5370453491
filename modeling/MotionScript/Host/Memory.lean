import MotionScript.FileTree
import MotionScript.Host
/-!
# A host that keeps everything it is handed

References are checked below an optional asset root: a path, or the part of it in front of a
fragment, must lead to a file. `{guid}` references are accepted as they are, and without a root
every path is.
-/

namespace MotionScript

structure MemoryHost where
  registry : Registry := {}
  /-- Directory under which references are looked up. -/
  assetRoot : Option String := none
  files : FileTree := {}
  /-- Objects in the order in which they were stored, with their names. -/
  persisted : List (ObjectRef × String) := []
  /-- What was resolved, in the order of first use. -/
  dependencies : List String := []
  warnings : List String := []
deriving Inhabited

namespace MemoryHost

/-- Notes a dependency unless it is known. -/
def depend (h : MemoryHost) (reference : String) : MemoryHost :=
  if h.dependencies.contains reference then h
  else { h with dependencies := h.dependencies ++ [reference] }

/-- A path without the `./` in front. -/
def trimHere : List Char → List Char
  | '.' :: '/' :: rest => trimHere rest
  | cs => cs

/-- The file that is looked up for a path below the asset root. -/
def assetFile (root path : String) : String :=
  joinFilePath root (String.ofList (trimHere path.toList))

def resolve (h : MemoryHost) (reference : String) (kind : AssetKind) : Option Asset × MemoryHost :=
  if (Asset.guidOf? reference).isSome then (some ⟨reference, kind⟩, h.depend reference)
  else
    let path := (Asset.splitFragment reference).1
    let found := h.assetRoot.all fun root => h.files.isFile (assetFile root path)
    if path = "" || !found then (none, h) else (some ⟨reference, kind⟩, h.depend path)

instance : Host MemoryHost where
  resolve := resolve
  persist h object name := { h with persisted := h.persisted ++ [(object, name)] }
  schema? h name := h.registry.schema? name
  warn h message := { h with warnings := h.warnings ++ [message] }

end MemoryHost

end MotionScript
