import JavaRecipes.Recipe.Spec
import JavaRecipes.Text.Blank

/-!
The command line. An option that takes a value has it attached (`--config=x`, `-cx`) or as the next
word, which must not look like an option. Values are checked when the option is closed, that is when
the next option is opened, a path follows or the words end.
-/

namespace JavaRecipes

structure Arguments where
  /-- Tree files, and directories that are searched for them. -/
  paths : List String := []
  config : Option String := none
  recipes : List RecipeSpec := []
  typeFilter : Option String := none
  oldName : Option String := none
  newName : Option String := none
  outDir : Option String := none
  /-- Show the source of every changed file. -/
  print : Bool := false
  /-- Write nothing. -/
  dryRun : Bool := false
  deriving DecidableEq, Repr

inductive ArgumentError where
  | unknownArgument
  /-- A value that is missing, empty or not among those allowed. -/
  | invalidValue
  | missingRequiredArgument
  /-- An option that may be given once is given again. -/
  | argumentConflict
  /-- A value attached to an option that takes none. -/
  | tooManyValues
  | displayHelp
  | displayVersion
  deriving DecidableEq, Repr

def ArgumentError.label : ArgumentError → String
  | .unknownArgument => "UnknownArgument"
  | .invalidValue => "InvalidValue"
  | .missingRequiredArgument => "MissingRequiredArgument"
  | .argumentConflict => "ArgumentConflict"
  | .tooManyValues => "TooManyValues"
  | .displayHelp => "DisplayHelp"
  | .displayVersion => "DisplayVersion"

/-- Options with a value. -/
inductive ValueOption where
  | config | recipe | typeFilter | oldName | newName | outDir
  deriving DecidableEq, Repr

/-- Options without a value. -/
inductive FlagOption where
  | print | dryRun | help | version
  deriving DecidableEq, Repr

inductive CommandOption where
  | value (o : ValueOption)
  | flag (f : FlagOption)
  deriving DecidableEq, Repr

namespace Arguments

def longNames : List (String × CommandOption) :=
  [("config", .value .config), ("recipe", .value .recipe), ("type", .value .typeFilter),
    ("old-name", .value .oldName), ("oldName", .value .oldName), ("new-name", .value .newName),
    ("newName", .value .newName), ("out-dir", .value .outDir), ("outDir", .value .outDir),
    ("print", .flag .print), ("dry-run", .flag .dryRun), ("dryRun", .flag .dryRun),
    ("help", .flag .help), ("version", .flag .version)]

def shortNames : List (Char × CommandOption) :=
  [('c', .value .config), ('r', .value .recipe), ('o', .value .outDir), ('h', .flag .help),
    ('V', .flag .version)]

/-- Set an option that may be given once. -/
def once (old : Option String) (value : String) (set : String → Arguments) :
    Except ArgumentError Arguments :=
  if old.isSome then .error .argumentConflict else .ok (set value)

/-- Set an option that may be given once and names a file or directory. -/
def oncePath (old : Option String) (value : String) (set : String → Arguments) :
    Except ArgumentError Arguments :=
  if old.isSome then .error .argumentConflict
  else if value.isEmpty then .error .invalidValue
  else .ok (set value)

def setValue (a : Arguments) (value : String) : ValueOption → Except ArgumentError Arguments
  | .config => oncePath a.config value fun v => { a with config := some v }
  | .recipe =>
    match RecipeSpec.ofName? value with
    | some spec => .ok { a with recipes := a.recipes ++ [spec] }
    | none => .error .invalidValue
  | .typeFilter => once a.typeFilter value fun v => { a with typeFilter := some v }
  | .oldName => once a.oldName value fun v => { a with oldName := some v }
  | .newName => once a.newName value fun v => { a with newName := some v }
  | .outDir => oncePath a.outDir value fun v => { a with outDir := some v }

def setFlag (a : Arguments) : FlagOption → Except ArgumentError Arguments
  | .print => if a.print then .error .argumentConflict else .ok { a with print := true }
  | .dryRun => if a.dryRun then .error .argumentConflict else .ok { a with dryRun := true }
  | .help => .error .displayHelp
  | .version => .error .displayVersion

/-- What was read and is not yet checked. -/
inductive Pending where
  | nothing
  /-- An option, with its value once that is read. -/
  | option (o : ValueOption) (value : Option String)
  | paths (ps : List String)
  deriving DecidableEq, Repr

/-- Check what is pending and take it over. -/
def close (a : Arguments) : Pending → Except ArgumentError Arguments
  | .nothing => .ok a
  | .option o (some value) => a.setValue value o
  | .option _ none => .error .invalidValue
  | .paths ps =>
    if ps.any String.isEmpty then .error .invalidValue else .ok { a with paths := a.paths ++ ps }

/-- Where the reading of the words stands. -/
abbrev Reading := Arguments × Pending

/-- An option with what is attached to it. -/
def openOption (r : Reading) (o : CommandOption) (attached : Option String) :
    Except ArgumentError Reading :=
  match o, attached with
  | .flag _, some _ => .error .tooManyValues
  | .flag f, none => do
    let a ← r.1.close r.2
    let a ← a.setFlag f
    .ok (a, .nothing)
  | .value o, some value => do
    let a ← r.1.close r.2
    let a ← a.setValue value o
    .ok (a, .nothing)
  | .value o, none => do
    let a ← r.1.close r.2
    .ok (a, .option o none)

/-- A word that is no option and no value of one. -/
def readPath (r : Reading) (word : String) : Except ArgumentError Reading :=
  match r.2 with
  | .paths ps => .ok (r.1, .paths (ps ++ [word]))
  | pending => do
    let a ← r.1.close pending
    .ok (a, .paths [word])

/-- A word after `--`, with what is attached after `=`. -/
def readLong (r : Reading) (cs : List Char) : Except ArgumentError Reading :=
  let (name, attached) := match Text.cutAt (· = '=') cs with
    | some (name, value) => (name, some (String.ofList value))
    | none => (cs, none)
  match longNames.lookup (String.ofList name) with
  | some o => openOption r o attached
  | none => .error .unknownArgument

/-- A letter after `-`, with what is attached to it. -/
def readShort (r : Reading) (c : Char) (cs : List Char) : Except ArgumentError Reading :=
  match shortNames.lookup c with
  | none => .error .unknownArgument
  | some (.flag f) => openOption r (.flag f) none
  | some (.value o) =>
    match cs with
    | [] => openOption r (.value o) none
    | '=' :: value => openOption r (.value o) (some (String.ofList value))
    | value => openOption r (.value o) (some (String.ofList value))

/-- A word that may be an option. -/
def readWord (r : Reading) (word : String) : Except ArgumentError Reading :=
  match word.toList with
  | '-' :: '-' :: cs => readLong r cs
  | '-' :: c :: cs => readShort r c cs
  | _ =>
    match r.2 with
    | .option o none => .ok (r.1, .option o (some word))
    | _ => readPath r word

/-- Read words in order; after `--` they are all paths. -/
def readWords (r : Reading) : List String → Except ArgumentError Reading
  | [] => .ok r
  | word :: words =>
    if word = "--" then words.foldlM readPath r
    else
      match readWord r word with
      | .error e => .error e
      | .ok r => readWords r words

/-- The arguments that words spell. The old and the new name need each other. -/
def parse (words : List String) : Except ArgumentError Arguments := do
  let r ← readWords ({}, .nothing) words
  let a ← r.1.close r.2
  if a.oldName.isSome = a.newName.isSome then .ok a else .error .missingRequiredArgument

/-- The rename asked for with both names. -/
def rename? (a : Arguments) : Option RecipeSpec :=
  match a.oldName, a.newName with
  | some oldName, some newName => some (.renameBean a.typeFilter oldName newName)
  | _, _ => none

end Arguments

end JavaRecipes
