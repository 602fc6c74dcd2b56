import JavaRecipes.Command.Report

/-!
The program. It takes a picture of the files that its arguments name, runs on the picture and stores
what the run has written.
-/

namespace JavaRecipes

def version : String := "0.1.0"

def usage : String :=
  Text.joinWith "\n" [
    "Scope-aware rename and migration recipes for typed Java syntax trees",
    "",
    "Usage: java-recipes [OPTIONS] [PATHS]...",
    "",
    "Arguments:",
    "  [PATHS]...              Tree files (*.json) or directories searched for them",
    "",
    "Options:",
    "  -c, --config <FILE>     Recipe configuration",
    "  -r, --recipe <RECIPE>   Run a recipe that takes no arguments; may be repeated",
    "      --type <TYPE>       Only rename beans of this type",
    "      --old-name <NAME>   Bean name to rename",
    "      --new-name <NAME>   The name it gets",
    "  -o, --out-dir <DIR>     Write changed trees here instead of in place",
    "      --print             Print the source of every changed file",
    "      --dry-run           Write nothing",
    "  -h, --help              Print help",
    "  -V, --version           Print version",
    ""]

/-- Add what is at a path, with all that is under a directory. -/
partial def picture (fs : FileSystem) (path : String) : IO FileSystem := do
  let resolved ← IO.FS.realPath path
  if ← resolved.isDir then
    let mut fs := { fs with dirs := fs.dirs ++ [fs.place path] }
    for entry in ← resolved.readDir do
      fs ← picture fs (Path.join path entry.fileName)
    return fs
  else
    let text := match ← (IO.FS.readFile path).toBaseIO with
      | .ok text => some text
      | .error _ => none
    return { fs with files := FileSystem.put (fs.place path) text fs.files }

/-- The picture of all that a run reads. What is not there is left out. -/
def pictureOf (a : Arguments) : IO FileSystem := do
  let mut fs : FileSystem := { base := Path.steps (← IO.currentDir).toString }
  for path in a.config.toList ++ a.paths do
    if let .ok more ← (picture fs path).toBaseIO then
      fs := more
  return fs

/-- Store a written file, with its directory. -/
def store (l : Location) (text : String) : IO Unit := do
  IO.FS.createDirAll ("/" ++ Text.joinWith "/" l.dropLast)
  IO.FS.writeFile ("/" ++ Text.joinWith "/" l) text

/-- Store written files in order, up to the first that cannot be stored. -/
def storeAll : List (Location × String) → IO (Except RunError Unit)
  | [] => return .ok ()
  | (l, text) :: rest => do
    match ← (store l text).toBaseIO with
    | .ok _ => storeAll rest
    | .error _ => return .error (.cannotWrite ("/" ++ Text.joinWith "/" l))

/-- Run with arguments and give the exit code. -/
def execute (a : Arguments) : IO UInt32 := do
  let before ← pictureOf a
  let (result, after) := runProgram a before
  let stored ← storeAll (before.written after)
  match (do stored; result) with
  | .ok r =>
    IO.print (r.render (← (← IO.getStdout).isTty))
    return 0
  | .error e =>
    IO.eprintln ("error: " ++ Text.joinWith ": " e.chain)
    return 1

/-- Run with the words of the command line and give the exit code. -/
def commandLine (words : List String) : IO UInt32 := do
  match Arguments.parse words with
  | .ok a => execute a
  | .error .displayHelp =>
    IO.print usage
    return 0
  | .error .displayVersion =>
    IO.println ("java-recipes " ++ version)
    return 0
  | .error e =>
    IO.eprintln ("error: " ++ e.label)
    return 2

end JavaRecipes

def main (words : List String) : IO UInt32 := JavaRecipes.commandLine words
