import JavaRecipes.Command.Arguments
import JavaRecipes.Command.Config
import JavaRecipes.Command.FileSystem
import JavaRecipes.Tree.Layout
import JavaRecipes.Tree.Stored

/-!
A run of the program on a file system: choose the recipes, find and read the tree files, run the
recipes, write what changed. Nothing is written before all recipes have succeeded.
-/

namespace JavaRecipes

/-- A tree file with its path under the argument it was found by. -/
structure TreeInput where
  path : String
  relative : String
  deriving DecidableEq, Repr

/-- A file that some recipe changed. -/
structure ChangedFile where
  /-- The path of the source, as its tree says. -/
  sourcePath : String
  treePath : String
  /-- The recipes that changed it, in order. -/
  recipes : List String
  /-- Where the tree was written. -/
  written : Option String
  /-- Its source, if asked for. -/
  rendered : Option String
  deriving DecidableEq, Repr

structure RunResult where
  filesRead : Nat
  recipes : List String
  changed : List ChangedFile
  deriving DecidableEq, Repr

inductive RunError where
  | typeWithoutNames
  | noRecipes
  | unreadable (path : String)
  | badConfig (path : String)
  | badRecipe (cause : RecipeError)
  | missingPath (path : String)
  | noTrees
  | badTree (path : String)
  | recipeFailed (cause : BatchError)
  | cannotCreate (path : String)
  | cannotWrite (path : String)
  deriving DecidableEq, Repr

/-- The messages of an error and its causes, the outermost first. -/
def RunError.chain : RunError → List String
  | .typeWithoutNames => ["--type requires --old-name and --new-name"]
  | .noRecipes => ["no recipes selected; pass --config, --recipe or --old-name/--new-name"]
  | .unreadable path => ["failed to read " ++ path]
  | .badConfig path => ["in " ++ path, Config.parseFailure]
  | .badRecipe cause => cause.chain
  | .missingPath path => [path ++ " does not exist"]
  | .noTrees => ["no tree files found"]
  | .badTree path => ["failed to parse tree " ++ path]
  | .recipeFailed e => s!"recipe `{e.recipe}` failed" :: e.cause.chain
  | .cannotCreate path => ["failed to create " ++ path]
  | .cannotWrite path => ["failed to write " ++ path]

/-! ## Choosing recipes -/

/-- The recipes of the configuration file. -/
def configuredRecipes (fs : FileSystem) (a : Arguments) : Except RunError (List RecipeSpec) :=
  match a.config with
  | none => .ok []
  | some path =>
    match fs.read? path with
    | none => .error (.unreadable path)
    | some text =>
      match Config.parse? text with
      | none => .error (.badConfig path)
      | some specs => .ok specs

/-- Configured recipes, then those of options, then the rename. -/
def chooseRecipes (fs : FileSystem) (a : Arguments) : Except RunError (List RecipeSpec) :=
  match configuredRecipes fs a with
  | .error e => .error e
  | .ok configured =>
    if a.rename?.isNone && a.typeFilter.isSome then .error .typeWithoutNames
    else
      match configured ++ a.recipes ++ a.rename?.toList with
      | [] => .error .noRecipes
      | specs => .ok specs

/-! ## Finding and reading trees -/

/-- The tree files under a directory, sorted by their names from the outermost on. -/
def treesUnder (fs : FileSystem) (root : String) : List TreeInput :=
  match fs.locate? root with
  | none => []
  | some l =>
    let found := (fs.filesUnder l).filter fun names =>
      (names.getLast?.bind Path.extension?) = some "json"
    (found.mergeSort FileSystem.locationLe).map fun names =>
      let relative := Text.joinWith "/" names
      { path := Path.join root relative, relative }

/-- The tree files of one argument. -/
def discoverAt (fs : FileSystem) (root : String) : Except RunError (List TreeInput) :=
  if fs.isFile root then .ok [{ path := root, relative := (Path.fileName? root).getD root }]
  else if fs.isDirectory root then .ok (treesUnder fs root)
  else .error (.missingPath root)

/-- The tree files of all arguments in order. -/
def discover (fs : FileSystem) : List String → Except RunError (List TreeInput)
  | [] => .ok []
  | root :: roots =>
    match discoverAt fs root with
    | .error e => .error e
    | .ok inputs =>
      match discover fs roots with
      | .error e => .error e
      | .ok rest => .ok (inputs ++ rest)

def loadTree (fs : FileSystem) (path : String) : Except RunError SourceFile :=
  match fs.read? path with
  | none => .error (.unreadable path)
  | some text =>
    match SourceFile.decode? text with
    | none => .error (.badTree path)
    | some file => .ok file

def loadTrees (fs : FileSystem) : List TreeInput → Except RunError Batch
  | [] => .ok []
  | input :: inputs =>
    match loadTree fs input.path with
    | .error e => .error e
    | .ok file =>
      match loadTrees fs inputs with
      | .error e => .error e
      | .ok files => .ok (file :: files)

/-! ## Writing -/

/-- Where a changed tree goes: in place, or to the same place under the output directory. -/
def destination (a : Arguments) (input : TreeInput) : String :=
  match a.outDir with
  | some dir => Path.join dir input.relative
  | none => input.path

/-- Make the directory for a tree. -/
def makeParent (fs : FileSystem) (path : String) : Except RunError FileSystem :=
  match Path.parent? path with
  | none => .ok fs
  | some parent =>
    match fs.makeDirectory parent with
    | none => .error (.cannotCreate parent)
    | some fs => .ok fs

/-- Write a tree; what was done before a failure stays. -/
def writeTree (fs : FileSystem) (file : SourceFile) (path : String) :
    Except RunError Unit × FileSystem :=
  match makeParent fs path with
  | .error e => (.error e, fs)
  | .ok fs =>
    match fs.write path file.encode with
    | none => (.error (.cannotWrite path), fs)
    | some fs => (.ok (), fs)

/-- A file after all recipes, with what it was read from and the recipes that changed it. -/
structure Outcome where
  file : SourceFile
  input : TreeInput
  changedBy : List String
  deriving DecidableEq, Repr

def Outcome.report (o : Outcome) (a : Arguments) : ChangedFile where
  sourcePath := o.file.path
  treePath := o.input.path
  recipes := o.changedBy
  written := if a.dryRun then none else some (destination a o.input)
  rendered := if a.print then some o.file.print else none

/-- Write the changed trees in order, up to the first that cannot be written. -/
def writeOutcomes (a : Arguments) (fs : FileSystem) :
    List Outcome → Except RunError (List ChangedFile) × FileSystem
  | [] => (.ok [], fs)
  | o :: os =>
    if o.changedBy.isEmpty then writeOutcomes a fs os
    else
      match if a.dryRun then (.ok (), fs) else writeTree fs o.file (destination a o.input) with
      | (.error e, fs) => (.error e, fs)
      | (.ok _, fs) =>
        let (rest, fs) := writeOutcomes a fs os
        (rest.map (o.report a :: ·), fs)

/-- All that comes before writing: the recipes, and the files after them. -/
def prepare (a : Arguments) (fs : FileSystem) : Except RunError (List Recipe × List Outcome) := do
  let specs ← chooseRecipes fs a
  let recipes ← (RecipeSpec.buildAll specs).mapError .badRecipe
  let inputs ← discover fs a.paths
  if inputs.isEmpty then .error .noTrees
  let batch ← loadTrees fs inputs
  let run ← (applyRecipes recipes batch).mapError .recipeFailed
  .ok (recipes, (run.files.zip (inputs.zip run.changedBy)).map fun (file, input, changedBy) =>
    { file, input, changedBy })

/-- Run the program; gives its result and the file system it leaves. -/
def runProgram (a : Arguments) (fs : FileSystem) : Except RunError RunResult × FileSystem :=
  match prepare a fs with
  | .error e => (.error e, fs)
  | .ok (recipes, outcomes) =>
    let (changed, fs) := writeOutcomes a fs outcomes
    (changed.map fun changed =>
      { filesRead := outcomes.length, recipes := recipes.map Recipe.name, changed }, fs)

end JavaRecipes
