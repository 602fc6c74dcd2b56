import JavaRecipes.Recipe.Basic
import JavaRecipes.Recipe.Pattern

/-!
The size setters of `MultipartConfigFactory` take a `DataSize`: numbers become
`DataSize.ofBytes(arg)`, strings `DataSize.parse(arg)`.
-/

namespace JavaRecipes.MultipartSizes

def label : String := "migrateMultipartConfigFactory"

def factoryClass : String := "org.springframework.boot.web.servlet.MultipartConfigFactory"

def dataSize : String := "org.springframework.util.unit.DataSize"

/-- A setter and how its argument becomes a size. -/
structure Conversion where
  setter : MethodPattern
  /-- The method of `DataSize` that takes the argument. -/
  method : String
  /-- The parameter type of that method. -/
  param : String
  deriving DecidableEq, Repr

/-- The setters with the number types they took. -/
def setters : List (String × String) :=
  [("setMaxFileSize", "long"), ("setMaxRequestSize", "long"), ("setFileSizeThreshold", "int")]

def conversions : List Conversion :=
  setters.flatMap fun (setter, numeric) =>
    [{ setter := ⟨factoryClass, setter, [numeric]⟩, method := "ofBytes", param := "long" },
      { setter := ⟨factoryClass, setter, [stringClass]⟩, method := "parse"
        param := "java.lang.CharSequence" }]

/-- The argument inside a call that makes it a size. -/
def wrapped (argument : Ref) (c : Conversion) : Snippet :=
  .invocation (some (.typeName dataSize)) ⟨dataSize, c.method, some dataSize, [c.param]⟩
    [.existing argument]

/-- The name of the type a call returns. -/
def returnName? (types : TypeTable) (d : MethodInvocation) : Option String :=
  d.type.bind fun id => (types.methodAt? id).bind fun m => m.returns.bind types.name?

def conversion? (file : SourceFile) (n : NodeId) : Option Conversion :=
  conversions.find? fun c => c.setter.holds file.store file.types (some n)

def nodeEdits (file : SourceFile) (n : NodeId) : List Edit :=
  match conversion? file n, file.store.invocation? (some n) with
  | some c, some d =>
    match d.arguments with
    | [argument] =>
      [.replaceExpression argument (wrapped argument c),
        .retypeInvocation (some n)
          ⟨factoryClass, c.setter.name, returnName? file.types d, [dataSize]⟩]
    | _ => []
  | _, _ => []

def plan (file : SourceFile) : EditSet :=
  if file.usesType factoryClass then .ofList (file.nodes.flatMap (nodeEdits file)) else .empty

def run (batch : Batch) : Except RecipeError (List FileChange) := changeFiles (fun _ => plan) batch

end JavaRecipes.MultipartSizes
