import JavaRecipes.Tree.Store

/-!
Annotation arguments as attributes. A value is one slot or the slots of an array; each slot knows
the node that holds it, so that one array element can be changed alone.
-/

namespace JavaRecipes

/-- One value of an attribute. -/
structure AttributeSlot where
  node : Ref
  /-- The node whose slot holds the value. -/
  container : Ref
  /-- Position in an array. -/
  element : Option Nat
  deriving DecidableEq, Repr

inductive AttributeValue where
  | single (slot : AttributeSlot)
  | array (slots : List AttributeSlot)
  deriving DecidableEq, Repr

def AttributeValue.slots : AttributeValue → List AttributeSlot
  | .single slot => [slot]
  | .array slots => slots

def AttributeValue.isArray : AttributeValue → Bool
  | .single _ => false
  | .array _ => true

structure Attribute where
  key : String
  value : AttributeValue
  deriving DecidableEq, Repr

/-- The key of an argument without a name. -/
def Attribute.valueKey : String := "value"

namespace Store

def attributeValue (s : Store) (container node : Ref) : AttributeValue :=
  match s.data? node with
  | some (.newArray array) =>
    .array (array.elements.zipIdx.map fun (slot, i) =>
      { node := slot, container := node, element := some i })
  | _ => .single { node, container, element := none }

/-- The attribute an argument of the annotation `mark` sets; an assignment to anything but a name
sets none. -/
def attribute? (s : Store) (mark argument : Ref) : Option Attribute :=
  match s.data? argument with
  | none => none
  | some (.assignment d) =>
    (s.identifierText? d.target).map fun key => { key, value := s.attributeValue argument d.value }
  | some _ => some { key := Attribute.valueKey, value := s.attributeValue mark argument }

/-- The attributes of an annotation in source order. -/
def attributes (s : Store) (mark : Ref) : List Attribute :=
  match s.annotationUse? mark with
  | none => []
  | some d => d.arguments.filterMap (s.attribute? mark)

/-- The qualified name of an annotation's type. -/
def annotationName? (s : Store) (types : TypeTable) (mark : Ref) : Option String :=
  (s.annotationUse? mark).bind fun d =>
    (s.expressionType types d.annotationType).bind types.name?

end Store

end JavaRecipes
