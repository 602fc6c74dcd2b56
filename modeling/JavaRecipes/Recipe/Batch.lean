import JavaRecipes.Recipe.RenameBean
import JavaRecipes.Recipe.BeanVisibility
import JavaRecipes.Recipe.ActuatorMediaType
import JavaRecipes.Recipe.MultipartSizes

/-!
The recipes, and running several of them over a batch, each on what the one before left.
-/

namespace JavaRecipes

inductive Recipe where
  | renameBean (r : RenameBean)
  | beanVisibility
  | actuatorMediaType
  | multipartSizes
  deriving DecidableEq, Repr

namespace Recipe

/-- The name in configurations and reports. -/
def name : Recipe → String
  | .renameBean _ => RenameBean.label
  | .beanVisibility => BeanVisibility.label
  | .actuatorMediaType => ActuatorMediaType.label
  | .multipartSizes => MultipartSizes.label

def displayName : Recipe → String
  | .renameBean _ => "Rename bean"
  | .beanVisibility => "Remove `public` from `@Bean` methods"
  | .actuatorMediaType => "Migrate `ActuatorMediaType` to `ApiVersion`"
  | .multipartSizes => "Use `DataSize` with `MultipartConfigFactory`"

def description : Recipe → String
  | .renameBean _ => "Renames a Spring bean, along with the qualifiers that refer to it."
  | .beanVisibility => "Bean factory methods are not required to be public."
  | .actuatorMediaType =>
    "`ActuatorMediaType` was deprecated in favor of `ApiVersion#getProducedMimeType()`."
  | .multipartSizes => "The size setters of `MultipartConfigFactory` take a `DataSize`."

/-- The changes a recipe makes to a batch. -/
def run : Recipe → Batch → Except RecipeError (List FileChange)
  | .renameBean r => r.run
  | .beanVisibility => BeanVisibility.run
  | .actuatorMediaType => ActuatorMediaType.run
  | .multipartSizes => MultipartSizes.run

end Recipe

/-- A recipe that failed in a run of several. -/
structure BatchError where
  recipe : String
  cause : RecipeError
  deriving DecidableEq, Repr

/-- A batch with, for each file, the names of the recipes that changed it, in order. -/
structure BatchRun where
  files : Batch
  changedBy : List (List String)
  deriving DecidableEq, Repr

/-- Add a name to the lists at the given positions. -/
def markChanged (changedBy : List (List String)) (name : String) (changes : List FileChange) :
    List (List String) :=
  changes.foldl (fun lists change => lists.modify change.index (· ++ [name])) changedBy

namespace BatchRun

def start (batch : Batch) : BatchRun :=
  { files := batch, changedBy := List.replicate batch.length [] }

/-- Run one recipe on what is there. -/
def step (b : BatchRun) (recipe : Recipe) : Except BatchError BatchRun :=
  match recipe.run b.files with
  | .error cause => .error { recipe := recipe.name, cause }
  | .ok changes =>
    .ok {
      files := merge b.files changes
      changedBy := markChanged b.changedBy recipe.name changes }

/-- Run recipes in order, up to the first that fails. -/
def steps (b : BatchRun) : List Recipe → Except BatchError BatchRun
  | [] => .ok b
  | recipe :: recipes =>
    match b.step recipe with
    | .error e => .error e
    | .ok b => b.steps recipes

end BatchRun

/-- Run recipes over a batch. -/
def applyRecipes (recipes : List Recipe) (batch : Batch) : Except BatchError BatchRun :=
  (BatchRun.start batch).steps recipes

/-- Rename a bean in a single file. -/
def renameSymbol (typeFilter : Option String) (oldName newName : String) (file : SourceFile) :
    Except RecipeError SourceFile :=
  match RenameBean.make typeFilter oldName newName with
  | .error e => .error e
  | .ok r =>
    match r.run [file] with
    | .error e => .error e
    | .ok changes => .ok ((merge [file] changes).headD file)

end JavaRecipes
