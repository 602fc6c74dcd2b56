import JavaRecipes.Recipe.Basic
import JavaRecipes.Recipe.Pattern
import JavaRecipes.Scope.Resolve

/-!
From `MediaType.parseMediaType(ActuatorMediaType.V2_JSON)` to
`MediaType.asMediaType(ApiVersion.V2.getProducedMimeType())`, and the same for the third version.
The argument may be a final local that holds the constant.
-/

namespace JavaRecipes.ActuatorMediaType

def label : String := "migrateActuatorMediaTypeToApiVersion"

def actuatorMediaType : String := "org.springframework.boot.actuate.endpoint.http.ActuatorMediaType"

def apiVersionClass : String := "org.springframework.boot.actuate.endpoint.ApiVersion"

def mediaType : String := "org.springframework.http.MediaType"

def mimeType : String := "org.springframework.util.MimeType"

/-- The method whose calls are replaced. -/
def parseMediaType : MethodPattern := ⟨mediaType, "parseMediaType", [stringClass]⟩

/-- Constants of the old class with those of the new one. -/
def versions : List (String × String) := [("V2_JSON", "V2"), ("V3_JSON", "V3")]

/-- The version of a constant of the old class. -/
def constantVersion? (file : SourceFile) (r : Ref) : Option String :=
  match file.store.data? r with
  | some (.fieldAccess d) =>
    if file.types.isNamed (file.store.expressionType file.types d.target) actuatorMediaType then
      (file.store.identifierText? d.name).bind fun name => versions.lookup name
    else none
  | _ => none

/-- The version an argument stands for, directly or through a local. -/
def version? (file : SourceFile) (argument : Ref) : Option String :=
  match constantVersion? file argument with
  | some version => some version
  | none =>
    let resolved := file.store.resolve file.types argument argument
    if resolved = argument then none else constantVersion? file resolved

/-- The call that gives the MIME type of a version. -/
def producedMimeType (version : String) : Snippet :=
  .invocation
    (some (.staticField (.typeName apiVersionClass) apiVersionClass version (some apiVersionClass)))
    ⟨apiVersionClass, "getProducedMimeType", some mimeType, []⟩ []

/-- The call that replaces one with the given receiver. -/
def replacement (select : Ref) (version : String) : Snippet :=
  .invocation (some (if select.isSome then .existing select else .typeName mediaType))
    ⟨mediaType, "asMediaType", some mediaType, [mimeType]⟩ [producedMimeType version]

def nodeEdits (file : SourceFile) (n : NodeId) : List Edit :=
  if parseMediaType.holds file.store file.types (some n) then
    match file.store.invocation? (some n) with
    | some { select, arguments := [argument], .. } =>
      ((version? file argument).map fun version =>
        .replaceExpression (some n) (replacement select version)).toList
    | _ => []
  else []

def plan (file : SourceFile) : EditSet :=
  if file.usesType actuatorMediaType then .ofList (file.nodes.flatMap (nodeEdits file)) else .empty

def run (batch : Batch) : Except RecipeError (List FileChange) := changeFiles (fun _ => plan) batch

end JavaRecipes.ActuatorMediaType
