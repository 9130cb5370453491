import MotionScript.Config.Basic
import MotionScript.Grammar.Document
import MotionScript.Host.Memory
import MotionScript.Layout.Machine
/-!
# Compiling documents

Reads a document under a configuration and places every node that has no position.
-/

namespace MotionScript

/-- Why a document was not compiled. -/
inductive CompileError where
  /-- A file could not be read or written. -/
  | io (message : String)
  /-- The document was refused; its text is kept to show the place. -/
  | document (failure : Failure) (source : String)
  | config (message : String)
deriving Repr

namespace CompileError

/-- The asset root leads to no directory. -/
def badAssetRoot (root : String) : CompileError :=
  .config s!"asset root `{root}` is not a directory"

def display : CompileError → String
  | io message => s!"I/O error: {message}"
  | document failure _ => failure.display
  | config message => s!"Configuration error: {message}"

end CompileError

/-- The host that a configuration describes. -/
def MemoryHost.ofConfig (config : Config) (files : FileTree) : Except CompileError MemoryHost :=
  let host : MemoryHost := { registry := config.registry, files }
  match config.assetRoot with
  | none => .ok host
  | some root =>
    if files.isDirectory root then .ok { host with assetRoot := some root }
    else .error (.badAssetRoot root)

namespace Document

/-- Reads a document and places every node that has no position. -/
def compileWith {η : Type} [Host η] (settings : LayoutSettings) (source name : String) (host : η) :
    Except CompileError Document × η :=
  match Document.read source name host with
  | (.ok document, host) =>
    (.ok { document with controller := (document.controller.layoutUnplaced settings).2 }, host)
  | (.error failure, host) => (.error (.document failure source), host)

/-- Compiles a document with the host that the configuration describes. -/
def compile (config : Config) (files : FileTree) (source name : String) :
    Except CompileError Document := do
  (compileWith config.layout source name (← MemoryHost.ofConfig config files)).1

end Document

end MotionScript
