import JavaRecipes.Recipe.Basic
import JavaRecipes.Recipe.Bean

/-!
Removing `public` from factory methods of beans, which need not be public. Comments in front of the
keyword stay on the method.
-/

namespace JavaRecipes.BeanVisibility

def label : String := "beanMethodsNotPublic"

/-- Whether a method is a public factory method. -/
def isPublicBean (file : SourceFile) (d : MethodDeclaration) : Bool :=
  hasModifier d.modifiers .isPublic &&
    (AnnotationPattern.find? ⟨beanMarker⟩ file.store file.types d.annotations).isSome

def nodeEdits (file : SourceFile) (n : NodeId) : List Edit :=
  match file.store.method? (some n) with
  | some d => if isPublicBean file d then [.removeModifier (some n) .isPublic] else []
  | none => []

def plan (file : SourceFile) : EditSet := .ofList (file.nodes.flatMap (nodeEdits file))

def run (batch : Batch) : Except RecipeError (List FileChange) := changeFiles (fun _ => plan) batch

end JavaRecipes.BeanVisibility
