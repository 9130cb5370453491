import MotionScript.CommandLine
/-!
# The program

Gathers the files that a command needs, runs it, prints what it says and writes its output.
-/

namespace MotionScript

/-- The content of those files that can be read. -/
def readFiles (paths : List String) : IO (List (String × String)) :=
  paths.filterMapM fun (path : String) => do
    try return some (path, ← IO.FS.readFile path) catch _ => return none

/-- The paths of all files below an entry of a directory. -/
partial def filesBelow (entry : IO.FS.DirEntry) : IO (List String) := do
  if ← entry.path.isDir then
    return (← (← entry.path.readDir).toList.mapM filesBelow).flatten
  return [entry.path.toString]

/-- Adds the asset root and the files below it to a tree. Only their paths matter. -/
def addAssets (t : FileTree) (root : String) : IO FileTree := do
  let directory := (← IO.currentDir) / root
  if ← directory.isDir then
    let paths := (← (← directory.readDir).toList.mapM filesBelow).flatten
    let names := FileTree.absoluteNames t.here
    return { t with
      files := t.files ++ paths.map fun path => (names path, "")
      directories := [names root] }
  return t

/-- Directory in which a user keeps configurations. -/
def userDirectory : IO (Option String) := do
  match ← IO.getEnv "XDG_CONFIG_HOME" with
  | some path => return some path
  | none => return (← IO.getEnv "HOME").map (· ++ "/.config")

/-- Runs a command, except that its text is returned. -/
def runCommand (c : Command) : IO (Except CompileError CommandResult) := do
  let user ← userDirectory
  let candidates := c.config.toList ++ Config.localPath ::
    (user.map (joinFilePath · Config.localPath)).toList
  let here := FileTree.absoluteNames [] (← IO.currentDir).toString
  let mut files := FileTree.ofPaths here (← readFiles (c.input :: candidates))
  if let .ok { assetRoot := some root, .. } := Config.find files user c.config then
    files ← addAssets files root
  return Command.run { c with output := none } files user

end MotionScript

open MotionScript

/-- Reads a document and writes its canonical text. -/
def main (args : List String) : IO UInt32 := do
  match Command.ofWords? args with
  | none =>
    IO.eprintln "usage: motionscript INPUT [-o OUTPUT] [-c CONFIG] [--check]"
    return 2
  | some c =>
    match ← runCommand c with
    | .error e =>
      (Report.ofError e).lines.forM IO.eprintln
      return 1
    | .ok result =>
      result.warnings.forM fun r => r.lines.forM IO.eprintln
      match c.output, result.printed with
      | some path, some text => IO.FS.writeFile path text
      | none, some text => IO.print text
      | _, none => return 0
      return 0
