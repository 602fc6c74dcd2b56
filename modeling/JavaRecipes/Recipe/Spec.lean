import JavaRecipes.Recipe.Batch

/-!
Recipes as asked for, before their arguments are checked.
-/

namespace JavaRecipes

inductive RecipeSpec where
  | renameBean (typeFilter : Option String) (oldName newName : String)
  | beanVisibility
  | actuatorMediaType
  | multipartSizes
  deriving DecidableEq, Repr

namespace RecipeSpec

def name : RecipeSpec → String
  | .renameBean _ _ _ => RenameBean.label
  | .beanVisibility => BeanVisibility.label
  | .actuatorMediaType => ActuatorMediaType.label
  | .multipartSizes => MultipartSizes.label

/-- The recipes that take no arguments. -/
def plain : List RecipeSpec := [.beanVisibility, .actuatorMediaType, .multipartSizes]

/-- A recipe without arguments by its name. -/
def ofName? (s : String) : Option RecipeSpec := plain.find? fun spec => spec.name == s

def build : RecipeSpec → Except RecipeError Recipe
  | .renameBean typeFilter oldName newName =>
    (RenameBean.make typeFilter oldName newName).map .renameBean
  | .beanVisibility => .ok .beanVisibility
  | .actuatorMediaType => .ok .actuatorMediaType
  | .multipartSizes => .ok .multipartSizes

/-- Build several recipes, up to the first that cannot be built. -/
def buildAll : List RecipeSpec → Except RecipeError (List Recipe)
  | [] => .ok []
  | spec :: specs =>
    match spec.build with
    | .error e => .error e
    | .ok recipe =>
      match buildAll specs with
      | .error e => .error e
      | .ok recipes => .ok (recipe :: recipes)

end RecipeSpec

end JavaRecipes
