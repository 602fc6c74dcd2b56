import JavaRecipes.Tree.SourceFile

/-!
A tree under construction. Children are added before the nodes that hold them; each step gives the
position of what it added and the draft that has it.
-/

namespace JavaRecipes

structure Draft where
  store : Store := .empty
  types : TypeTable := .empty
  deriving DecidableEq, Repr

/-- The class of string literals. -/
def stringClass : String := "java.lang.String"

namespace Draft

def add (d : Draft) (data : NodeData) : NodeId × Draft :=
  let (n, store) := d.store.add data
  (n, { d with store })

/-! ## Types -/

def classType (d : Draft) (name : String) (owner : Option TypeId := none) : TypeId × Draft :=
  let (id, types) := d.types.internClass name owner
  (id, { d with types })

def primitive (d : Draft) (p : Primitive) : TypeId × Draft :=
  let (id, types) := d.types.internPrimitive p
  (id, { d with types })

def methodType (d : Draft) (m : MethodType) : TypeId × Draft :=
  let (id, types) := d.types.internMethod m
  (id, { d with types })

def variableType (d : Draft) (v : VariableType) : TypeId × Draft :=
  let (id, types) := d.types.addVariable v
  (id, { d with types })

/-! ## Expressions -/

def identifier (d : Draft) (name : String) (type : Option TypeId) : NodeId × Draft :=
  d.add (.identifier { name, type, variableType := none })

/-- How a type is spelled: a class by its simple name, a primitive by its keyword, all else
`var`. -/
def typeSpelling (types : TypeTable) (type : TypeId) : String :=
  match types.get? type with
  | some (.classType c) => ClassName.simple c.name
  | some (.primitive p) => p.keyword
  | _ => "var"

/-- An identifier that spells a type. -/
def typeRef (d : Draft) (type : TypeId) : NodeId × Draft :=
  d.identifier (typeSpelling d.types type) (some type)

/-- A type spelled, if there is one. -/
def typeRef? (d : Draft) : Option TypeId → Ref × Draft
  | none => (none, d)
  | some type =>
    let (n, d) := d.typeRef type
    (some n, d)

/-- An identifier that names a variable; name and type are those of its entry. -/
def variableRef (d : Draft) (variableType : TypeId) : NodeId × Draft :=
  let v := d.types.variableAt? variableType
  d.add (.identifier {
    name := (v.map (·.name)).getD ""
    type := v.bind (·.type)
    variableType := some variableType })

def fieldAccess (d : Draft) (target : Ref) (variableType : TypeId) : NodeId × Draft :=
  let (name, d) := d.variableRef variableType
  d.add (.fieldAccess {
    target, name := some name, type := (d.types.variableAt? variableType).bind (·.type) })

/-- The type of a literal; `null` has none. -/
def literalType (d : Draft) : LiteralValue → Option TypeId × Draft
  | .string _ => let (id, d) := d.classType stringClass; (some id, d)
  | .int _ => let (id, d) := d.primitive .int; (some id, d)
  | .long _ => let (id, d) := d.primitive .long; (some id, d)
  | .boolean _ => let (id, d) := d.primitive .boolean; (some id, d)
  | .null => (none, d)

def literal (d : Draft) (value : LiteralValue) : NodeId × Draft :=
  let (type, d) := d.literalType value
  d.add (.literal { value, type })

def stringLiteral (d : Draft) (value : String) : NodeId × Draft := d.literal (.string value)

def newClass (d : Draft) (type : TypeId) (arguments : List Ref) : NodeId × Draft :=
  let (classExpr, d) := d.typeRef type
  d.add (.newClass { classExpr := some classExpr, arguments, type := some type })

def invoke (d : Draft) (select : Ref) (method : TypeId) (arguments : List Ref) : NodeId × Draft :=
  let m := d.types.methodAt? method
  let (name, d) := d.identifier ((m.map (·.name)).getD "") (m.bind (·.returns))
  d.add (.methodInvocation { select, name := some name, arguments, type := some method })

def newArray (d : Draft) (elements : List Ref) : NodeId × Draft :=
  d.add (.newArray { elements, type := none })

def assignment (d : Draft) (name : String) (value : Ref) : NodeId × Draft :=
  let (target, d) := d.identifier name none
  d.add (.assignment {
    target := some target, value, type := d.store.expressionType d.types value })

def binary (d : Draft) (left : Ref) (operator : BinaryOperator) (right : Ref) : NodeId × Draft :=
  d.add (.binary { left, operator, right, type := d.store.expressionType d.types left })

def lambda (d : Draft) (parameters : List Ref) (body : Ref) (type : Option TypeId) :
    NodeId × Draft :=
  d.add (.lambda { parameters, body, type })

/-! ## Annotations -/

def annotationUse (d : Draft) (name : String) (arguments : List Ref) : NodeId × Draft :=
  let (type, d) := d.classType name
  let (annotationType, d) := d.identifier (ClassName.simple name) (some type)
  d.add (.annotationUse { annotationType := some annotationType, arguments })

/-- An annotation with one string. -/
def annotationWithValue (d : Draft) (name value : String) : NodeId × Draft :=
  let (argument, d) := d.stringLiteral value
  d.annotationUse name [some argument]

/-! ## Statements -/

def block (d : Draft) (statements : List Ref) : NodeId × Draft := d.add (.block { statements })

def returnStatement (d : Draft) (expression : Ref) : NodeId × Draft :=
  d.add (.returnStatement { expression })

def forLoop (d : Draft) (loop : ForLoop) : NodeId × Draft := d.add (.forLoop loop)

def tryStatement (d : Draft) (resources : List Ref) (body cleanup : Ref) : NodeId × Draft :=
  d.add (.tryStatement { resources, body, cleanup })

/-! ## Declarations -/

/-- A variable to declare. -/
structure NewVariable where
  name : String
  owner : Option TypeId := none
  initializer : Ref := none
  deriving DecidableEq, Repr

/-- Add the variables of one declaration: their nodes and their entries, in order. -/
def declareAll (d : Draft) (type : Option TypeId) :
    List NewVariable → List Ref × List TypeId × Draft
  | [] => ([], [], d)
  | v :: vs =>
    let (id, d) := d.variableType { name := v.name, owner := v.owner, type }
    let (name, d) := d.variableRef id
    let (node, d) := d.add (.namedVariable {
      name := some name, initializer := v.initializer, type := some id })
    let (nodes, ids, d) := d.declareAll type vs
    (some node :: nodes, id :: ids, d)

/-- A declaration of several variables; gives its node and the variable entries. -/
def declaration (d : Draft) (annotations : List Ref) (modifiers : List Modifier)
    (type : Option TypeId) (vs : List NewVariable) : NodeId × List TypeId × Draft :=
  let (typeExpr, d) := d.typeRef? type
  let (nodes, ids, d) := d.declareAll type vs
  let (n, d) := d.add (.variableDeclarations {
    annotations, modifiers, typeExpr, declared := nodes })
  (n, ids, d)

/-- A method to declare. -/
structure NewMethod where
  comments : List String := []
  annotations : List Ref := []
  modifiers : List Modifier := []
  returns : Option TypeId := none
  name : String := ""
  parameters : List Ref := []
  body : Ref := none
  type : Option TypeId := none
  deriving DecidableEq, Repr

def method (d : Draft) (m : NewMethod) : NodeId × Draft :=
  let (returnType, d) := d.typeRef? m.returns
  let (name, d) := d.identifier m.name none
  d.add (.methodDeclaration {
    comments := m.comments, annotations := m.annotations, modifiers := m.modifiers, returnType
    name := some name, parameters := m.parameters, body := m.body, type := m.type })

/-- A class to declare. -/
structure NewClassDeclaration where
  annotations : List Ref := []
  modifiers : List Modifier := []
  kind : ClassKind := .ordinary
  name : String := ""
  members : List Ref := []
  type : Option TypeId := none
  deriving DecidableEq, Repr

def classDeclaration (d : Draft) (c : NewClassDeclaration) : NodeId × Draft :=
  let (name, d) := d.identifier c.name c.type
  let (body, d) := d.block c.members
  d.add (.classDeclaration {
    annotations := c.annotations, modifiers := c.modifiers, kind := c.kind
    name := some name, body := some body, type := c.type })

/-- Close the compilation unit. -/
def finish (d : Draft) (path : String) (packageName : Option String) (imports : List String)
    (classes : List Ref) : SourceFile :=
  let (root, d) := d.add (.compilationUnit { packageName, imports, classes })
  { path, store := d.store, types := d.types, root := some root }

end Draft

end JavaRecipes
