import JavaRecipes.Tree.Attributes
import JavaRecipes.Text.Blank

/-!
Patterns for annotations, `@org.example.Bean`, and for methods, `org.example.Type name(arg.Type,
…)`. Both are compared with attributed types, never with what is spelled in the source.
-/

namespace JavaRecipes

inductive PatternError where
  | empty
  | missingAt (pattern : String)
  | malformedMethod (pattern : String)
  deriving DecidableEq, Repr

def PatternError.message : PatternError → String
  | .empty => "empty matcher pattern"
  | .missingAt pattern => s!"annotation pattern `{pattern}` must start with `@`"
  | .malformedMethod pattern =>
    s!"method pattern `{pattern}` is not of the form `Type name(args)`"

/-! ## Annotations -/

/-- Annotations of one type. -/
structure AnnotationPattern where
  name : String
  deriving DecidableEq, Repr

namespace AnnotationPattern

def parse (pattern : String) : Except PatternError AnnotationPattern :=
  match Text.trim pattern.toList with
  | [] => .error .empty
  | '@' :: c :: cs => .ok ⟨String.ofList (c :: cs)⟩
  | cs => .error (.missingAt (String.ofList cs))

def holds (p : AnnotationPattern) (s : Store) (types : TypeTable) (mark : Ref) : Bool :=
  s.annotationName? types mark == some p.name

/-- The first annotation the pattern holds of. -/
def find? (p : AnnotationPattern) (s : Store) (types : TypeTable) (annotations : List Ref) :
    Option Ref :=
  annotations.find? (p.holds s types)

end AnnotationPattern

/-! ## Methods -/

/-- Methods of one class with one name and given parameter types. -/
structure MethodPattern where
  declaring : String
  name : String
  params : List String
  deriving DecidableEq, Repr

namespace MethodPattern

/-- The text before a last `)`. -/
def dropClosing? (cs : List Char) : Option (List Char) :=
  if cs.getLast? = some ')' then some cs.dropLast else none

/-- The parameters between the parentheses: none if all is blank, else no part is blank. -/
def parseParams (cs : List Char) : Option (List (List Char)) :=
  if (Text.trim cs).isEmpty then some []
  else
    let parts := (Text.splitAt ',' cs).map Text.trim
    if parts.any List.isEmpty then none else some parts

/-- The parts of a trimmed pattern. -/
def parseParts (cs : List Char) : Option (List Char × List Char × List (List Char)) := do
  let (declaring, signature) ← Text.cutAt Text.isBlank cs
  let (name, rest) ← Text.cutAt (· = '(') (Text.trim signature)
  let arguments ← dropClosing? rest
  let name := Text.trim name
  if name.isEmpty || declaring.isEmpty then none
  let params ← parseParams arguments
  some (declaring, name, params)

def parse (pattern : String) : Except PatternError MethodPattern :=
  match Text.trim pattern.toList with
  | [] => .error .empty
  | cs =>
    match parseParts cs with
    | some (declaring, name, params) =>
      .ok ⟨String.ofList declaring, String.ofList name, params.map String.ofList⟩
    | none => .error (.malformedMethod (String.ofList cs))

/-- Whether a method entry has the name, the class and the parameter types of the pattern. -/
def holdsOfType (p : MethodPattern) (types : TypeTable) (id : TypeId) : Bool :=
  match types.methodAt? id with
  | none => false
  | some m =>
    m.name == p.name && types.name? m.declaring == some p.declaring &&
      m.params.map types.name? == p.params.map some

/-- Whether a node calls a method the pattern holds of. -/
def holds (p : MethodPattern) (s : Store) (types : TypeTable) (r : Ref) : Bool :=
  ((s.invocation? r).bind (·.type)).any (p.holdsOfType types)

end MethodPattern

end JavaRecipes
