import JavaRecipes.Json.Reader
import JavaRecipes.Json.Record
import JavaRecipes.Recipe.Spec

/-!
Recipe configurations: a JSON object whose only key is `recipes`, or an array in its place. A recipe
is an object with its name under `recipe`, or an array of the name and its arguments.
-/

namespace JavaRecipes.Config

/-- How deep the containers of a configuration may nest, counted from the outermost. -/
def depthLimit : Nat := 127

/-- The arguments of a rename by name. -/
def renameOfJson? (v : Json) : Option RecipeSpec := do
  let [typeFilter, oldName, newName] ← v.record? ["type", "oldName", "newName"] 0 | none
  some (.renameBean (← Json.optional? Json.text? typeFilter)
    (← Json.required? Json.text? oldName) (← Json.required? Json.text? newName))

/-- The recipe of a name with the other fields of its object. -/
def ofFields? (name : String) (fields : List (Option String × Json)) : Option RecipeSpec :=
  if name = RenameBean.label then renameOfJson? (.object fields) else RecipeSpec.ofName? name

/-- The recipe of a name with its arguments in order. -/
def ofItems? (name : String) (items : List Json) : Option RecipeSpec :=
  if name = RenameBean.label then renameOfJson? (.array items)
  else if items.isEmpty then RecipeSpec.ofName? name
  else none

/-- One recipe. All of it must be readable, also what is not used. -/
def specOfJson? (v : Json) : Option RecipeSpec :=
  if v.isPlain (depthLimit - 2) then
    match v with
    | .object fields =>
      match fields.filter (·.1 == some "recipe") with
      | [(_, .string (some name))] => ofFields? name (fields.filter (·.1 != some "recipe"))
      | _ => none
    | .array (.string (some name) :: items) => ofItems? name items
    | _ => none
  else none

/-- The recipes of a configuration. Here an unknown key is refused. -/
def ofJson? (v : Json) : Option (List RecipeSpec) := do
  let known := match v with
    | .object fields => fields.all (·.1 == some "recipes")
    | _ => true
  if known then
    let [recipes] ← v.record? ["recipes"] 1 | none
    Json.defaulted? [] (Json.list? specOfJson?) recipes
  else none

def parse? (text : String) : Option (List RecipeSpec) := (Json.parse text).bind ofJson?

/-- What is said of a text that is no configuration. -/
def parseFailure : String := "failed to parse recipe configuration"

end JavaRecipes.Config
