import JavaRecipes.Recipe.Pattern
import JavaRecipes.Scope.Resolve
import JavaRecipes.Text.Case

/-!
Spring beans: the declarations that define them and where their names come from.
-/

namespace JavaRecipes

/-- The annotation of factory methods. -/
def beanMarker : String := "org.springframework.context.annotation.Bean"

def qualifierMarker : String := "org.springframework.beans.factory.annotation.Qualifier"

/-- The annotations that make a class a bean. -/
def stereotypes : List String :=
  ["org.springframework.stereotype.Component", "org.springframework.stereotype.Service",
    "org.springframework.stereotype.Repository", "org.springframework.stereotype.Controller",
    "org.springframework.web.bind.annotation.RestController",
    "org.springframework.context.annotation.Configuration"]

inductive BeanKind where
  | factoryMethod | stereotype
  deriving DecidableEq, Repr

/-- A declaration that defines a bean, and the annotation that says so. -/
structure Bean where
  kind : BeanKind
  node : NodeId
  marker : Ref
  deriving DecidableEq, Repr

/-- A value that names a bean. -/
structure NamedSlot where
  slot : AttributeSlot
  /-- None when the value cannot be told. -/
  name : Option String
  /-- The value is a name for a constant. -/
  aliased : Bool
  deriving DecidableEq, Repr

/-- Where a bean's name comes from: from the values of an attribute, or from its declaration. -/
inductive NameSource where
  | explicit (slots : List NamedSlot)
  | implicit (name : String)
  deriving DecidableEq, Repr

namespace NameSource

def names : NameSource → List String
  | .explicit slots => slots.filterMap (·.name)
  | .implicit name => [name]

def isImplicit : NameSource → Bool
  | .explicit _ => false
  | .implicit _ => true

end NameSource

namespace Store

/-- The bean a node declares. -/
def bean? (s : Store) (types : TypeTable) (n : NodeId) : Option Bean :=
  match s.data? (some n) with
  | some (.methodDeclaration d) =>
    (AnnotationPattern.find? ⟨beanMarker⟩ s types d.annotations).map fun marker =>
      { kind := .factoryMethod, node := n, marker }
  | some (.classDeclaration d) =>
    (stereotypes.findSome? fun name =>
      AnnotationPattern.find? ⟨name⟩ s types d.annotations).map fun marker =>
        { kind := .stereotype, node := n, marker }
  | _ => none

/-- The type a declared type expression carries. -/
def typeOf (s : Store) (r : Ref) : Option TypeId := (s.data? r).bind NodeData.ownType

/-- The type of a bean: the return type of the method, or the class. -/
def beanType (s : Store) (b : Bean) : Option TypeId :=
  match b.kind with
  | .factoryMethod => (s.method? (some b.node)).bind fun d => s.typeOf d.returnType
  | .stereotype => (s.class? (some b.node)).bind (·.type)

/-- The name of a bean that no attribute names. -/
def implicitName (s : Store) (b : Bean) : Option String :=
  match b.kind with
  | .factoryMethod => (s.method? (some b.node)).bind fun d => s.identifierText? d.name
  | .stereotype =>
    (s.class? (some b.node)).bind fun d => (s.identifierText? d.name).map Text.decapitalize

/-- The string a value stands for, and whether it is a name for a constant. -/
def slotValue (s : Store) (types : TypeTable) (r : Ref) : Option (String × Bool) :=
  match s.stringLiteral? r with
  | some value => some (value, false)
  | none =>
    if (s.referencedVariable r).isNone then none
    else
      let resolved := s.resolve types r r
      if resolved = r then none else (s.stringLiteral? resolved).map fun value => (value, true)

def namedSlot (s : Store) (types : TypeTable) (slot : AttributeSlot) : NamedSlot :=
  let value := s.slotValue types slot.node
  { slot, name := value.map (·.1), aliased := value.any (·.2) }

/-- The values of the attributes with one of the keys. -/
def namedSlots (s : Store) (types : TypeTable) (mark : Ref) (keys : List String) :
    List NamedSlot :=
  ((s.attributes mark).filter fun a => keys.contains a.key).flatMap fun a =>
    a.value.slots.map (s.namedSlot types)

/-- The values of the first qualifier among the annotations. -/
def qualifierSlots (s : Store) (types : TypeTable) (annotations : List Ref) : List NamedSlot :=
  match AnnotationPattern.find? ⟨qualifierMarker⟩ s types annotations with
  | some qualifier => s.namedSlots types qualifier [Attribute.valueKey]
  | none => []

/-- The name source of a bean: its qualifier, else its marker, else its declaration. -/
def nameSource (s : Store) (types : TypeTable) (b : Bean) : Option NameSource :=
  match s.qualifierSlots types (s.annotations (some b.node)) with
  | slot :: slots => some (.explicit (slot :: slots))
  | [] =>
    match s.namedSlots types b.marker [Attribute.valueKey, "name"] with
    | slot :: slots => some (.explicit (slot :: slots))
    | [] => (s.implicitName b).map .implicit

end Store

end JavaRecipes
