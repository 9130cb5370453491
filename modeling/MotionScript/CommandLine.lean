import MotionScript.Canonical.Document
import MotionScript.Config.Toml.Document
import MotionScript.Report
/-!
# The command line

One command reads a document and writes its canonical text. Here it runs over a tree of files that
is given as a value.
-/

namespace MotionScript

/-- The arguments of a command. -/
structure Command where
  input : String
  /-- Where to write the canonical text; it is printed if there is none. -/
  output : Option String := none
  /-- A configuration file that is used instead of the usual ones. -/
  config : Option String := none
  /-- Only read the document. -/
  check : Bool := false
deriving DecidableEq, Repr

namespace CompileError

def missingConfig (path : String) : CompileError := .config s!"Missing configuration file: {path}"

def malformedConfig : CompileError := .config "Failed to parse TOML configuration"

def unreadable (path : String) : CompileError := .io s!"cannot read {path}"

def unwritable (path : String) : CompileError := .io s!"cannot write {path}"

end CompileError

namespace Config

/-- The configuration file of the working directory. -/
def localPath : String := "animalab/config.toml"

/-- Reads a configuration file. -/
def load (files : FileTree) (path : String) : Except CompileError Config :=
  if files.exists? path then
    match files.read? path with
    | none => .error (.unreadable path)
    | some text =>
      ((Toml.read? text).bind (Config.ofSetting? .toml)).elim (.error .malformedConfig) .ok
  else .error (.missingConfig path)

/-- Reads the configuration of a command: the file it names, else the one of the working directory,
else the one below the user's directory for configurations. Without any of them all is default. -/
def find (files : FileTree) (userDirectory : Option String) (named : Option String) :
    Except CompileError Config :=
  match named with
  | some path => load files path
  | none =>
    let usual := localPath :: (userDirectory.map (joinFilePath · localPath)).toList
    match usual.find? files.exists? with
    | some path => load files path
    | none => .ok {}

end Config

/-- What a command that succeeds leaves behind. -/
structure CommandResult where
  warnings : List Report
  /-- Text to print. -/
  printed : Option String := none
  files : FileTree

namespace Command

/-- Reads the words of a command behind what has been read into `c`. -/
def readWords (c : Command) : List String → Option Command
  | [] => if c.input = "" then none else some c
  | "--check" :: rest => readWords { c with check := true } rest
  | [word] => if c.input = "" then some { c with input := word } else none
  | word :: value :: rest =>
    if word = "-o" ∨ word = "--output" then readWords { c with output := some value } rest
    else if word = "-c" ∨ word = "--config" then readWords { c with config := some value } rest
    else if word = "--log-level" then readWords c rest
    else if c.input = "" then readWords { c with input := word } (value :: rest)
    else none

/-- The command that words stand for. -/
def ofWords? (words : List String) : Option Command := readWords { input := "" } words

/-- Runs a command. The controller gets the name of the input file without its extension. -/
def run (c : Command) (files : FileTree) (userDirectory : Option String) :
    Except CompileError CommandResult := do
  let config ← Config.find files userDirectory c.config
  let source ← (files.read? c.input).elim (.error (.unreadable c.input)) .ok
  let document ← Document.compile config files source (fileStem c.input)
  let warnings := document.warnings.map (Report.ofDiagnostic · source)
  if c.check then return { warnings, files }
  let text := document.controller.canonicalText
  match c.output with
  | none => return { warnings, printed := some text, files }
  | some path =>
    match files.write? path text with
    | none => .error (.unwritable path)
    | some files => return { warnings, files }

end Command

end MotionScript
