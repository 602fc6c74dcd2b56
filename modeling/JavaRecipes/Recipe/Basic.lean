import JavaRecipes.Edit.Apply

/-!
What a run of a recipe over a batch of files gives: the changed files with their edits. Files are
told apart by their position in the batch, so several may have one path.
-/

namespace JavaRecipes

abbrev Batch := List SourceFile

inductive RecipeError where
  /-- A name that must not be empty. -/
  | missingArgument (recipe argument : String)
  /-- The edits planned for a file could not be applied. -/
  | edit (path : String) (cause : EditError)
  deriving DecidableEq, Repr

def RecipeError.message : RecipeError → String
  | .missingArgument recipe argument => s!"{recipe}: missing required argument `{argument}`"
  | .edit path cause => s!"{path}: {cause.message}"

/-- The messages of an error and its causes, the outermost first. -/
def RecipeError.chain : RecipeError → List String
  | .missingArgument recipe argument => [message (.missingArgument recipe argument)]
  | .edit path cause => [message (.edit path cause), cause.message]

/-- A changed file. -/
structure FileChange where
  /-- Position in the batch. -/
  index : Nat
  edits : EditSet
  after : SourceFile
  deriving DecidableEq, Repr

/-- Plan and apply the edits of one file; no edits are no change. -/
def changeFile (plan : Nat → SourceFile → EditSet) (index : Nat) (file : SourceFile) :
    Except RecipeError (Option FileChange) :=
  let edits := plan index file
  if edits.isEmpty then .ok none
  else match edits.apply file with
    | .ok after => .ok (some { index, edits, after })
    | .error cause => .error (.edit file.path cause)

/-- Change the files from a position on. The first file that fails ends the run. -/
def changeFilesFrom (plan : Nat → SourceFile → EditSet) :
    Nat → Batch → Except RecipeError (List FileChange)
  | _, [] => .ok []
  | index, file :: files =>
    match changeFile plan index file with
    | .error e => .error e
    | .ok change =>
      match changeFilesFrom plan (index + 1) files with
      | .error e => .error e
      | .ok changes => .ok (change.toList ++ changes)

/-- Plan and apply the edits of each file of a batch. -/
def changeFiles (plan : Nat → SourceFile → EditSet) (batch : Batch) :
    Except RecipeError (List FileChange) :=
  changeFilesFrom plan 0 batch

/-- Put the changed files into their places. -/
def merge (batch : Batch) (changes : List FileChange) : Batch :=
  changes.foldl (fun batch change => batch.set change.index change.after) batch

end JavaRecipes
