import JavaRecipes.Types.Basic

/-!
The nodes of a Java syntax tree. A node's payload names its children by their positions in the store
of the file, and types by their positions in its type table.
-/

namespace JavaRecipes

/-- Position of a node in its store. -/
abbrev NodeId := Nat

/-- A child slot or a link to a parent: a position, which need not be taken, or nothing. -/
abbrev Ref := Option NodeId

namespace Ref

/-- The number that stands for nothing. -/
def vacant : Nat := 4294967295

/-- The number a reference is written as. -/
def code (r : Ref) : Nat := r.getD vacant

def ofCode (n : Nat) : Ref := if n = vacant then none else some n

end Ref

/-! ## Modifiers, literals, operators -/

inductive ModifierKind where
  | isPublic | isProtected | isPrivate | isStatic | isFinal | isAbstract | isDefault
    | isSynchronized
  deriving DecidableEq, Repr

def ModifierKind.keyword : ModifierKind → String
  | .isPublic => "public"
  | .isProtected => "protected"
  | .isPrivate => "private"
  | .isStatic => "static"
  | .isFinal => "final"
  | .isAbstract => "abstract"
  | .isDefault => "default"
  | .isSynchronized => "synchronized"

/-- A modifier with the comments written in front of it. -/
structure Modifier where
  kind : ModifierKind
  comments : List String := []
  deriving DecidableEq, Repr

def hasModifier (modifiers : List Modifier) (kind : ModifierKind) : Bool :=
  modifiers.any (·.kind == kind)

inductive ClassKind where
  | ordinary | interface | enum | record | annotationType
  deriving DecidableEq, Repr

def ClassKind.keyword : ClassKind → String
  | .ordinary => "class"
  | .interface => "interface"
  | .enum => "enum"
  | .record => "record"
  | .annotationType => "@interface"

inductive LiteralValue where
  | string (s : String)
  | int (i : Int32)
  | long (i : Int64)
  | boolean (b : Bool)
  | null
  deriving DecidableEq, Repr

def LiteralValue.string? : LiteralValue → Option String
  | .string s => some s
  | _ => none

inductive BinaryOperator where
  | add | subtract | multiply | divide | lessThan | greaterThan | equal | notEqual
  deriving DecidableEq, Repr

def BinaryOperator.symbol : BinaryOperator → String
  | .add => "+"
  | .subtract => "-"
  | .multiply => "*"
  | .divide => "/"
  | .lessThan => "<"
  | .greaterThan => ">"
  | .equal => "=="
  | .notEqual => "!="

/-! ## Payloads -/

structure CompilationUnit where
  packageName : Option String
  /-- Imported names as written. -/
  imports : List String
  classes : List Ref
  deriving DecidableEq, Repr

structure ClassDeclaration where
  annotations : List Ref
  modifiers : List Modifier
  kind : ClassKind
  /-- The identifier with the simple name. -/
  name : Ref
  /-- The block with the members. -/
  body : Ref
  type : Option TypeId
  deriving DecidableEq, Repr

structure MethodDeclaration where
  comments : List String := []
  annotations : List Ref
  modifiers : List Modifier
  /-- Nothing for a constructor. -/
  returnType : Ref
  name : Ref
  parameters : List Ref
  /-- Nothing for a method without a body. -/
  body : Ref
  type : Option TypeId
  deriving DecidableEq, Repr

structure Block where
  statements : List Ref
  deriving DecidableEq, Repr

/-- A local, field, parameter or resource: one type and one list of modifiers for all its
variables. -/
structure VariableDeclarations where
  annotations : List Ref
  modifiers : List Modifier
  typeExpr : Ref
  declared : List Ref
  deriving DecidableEq, Repr

structure NamedVariable where
  name : Ref
  initializer : Ref
  type : Option TypeId
  deriving DecidableEq, Repr

structure Identifier where
  name : String
  type : Option TypeId
  /-- The variable entry, when the identifier names a variable. -/
  variableType : Option TypeId
  deriving DecidableEq, Repr

structure FieldAccess where
  target : Ref
  name : Ref
  type : Option TypeId
  deriving DecidableEq, Repr

structure MethodInvocation where
  /-- The receiver; nothing for an unqualified call. -/
  select : Ref
  name : Ref
  arguments : List Ref
  type : Option TypeId
  deriving DecidableEq, Repr

structure NewClass where
  classExpr : Ref
  arguments : List Ref
  type : Option TypeId
  deriving DecidableEq, Repr

structure Literal where
  value : LiteralValue
  type : Option TypeId
  deriving DecidableEq, Repr

structure AnnotationUse where
  annotationType : Ref
  /-- One bare value, or assignments of attributes. -/
  arguments : List Ref
  deriving DecidableEq, Repr

structure Assignment where
  target : Ref
  value : Ref
  type : Option TypeId
  deriving DecidableEq, Repr

structure NewArray where
  elements : List Ref
  type : Option TypeId
  deriving DecidableEq, Repr

structure ReturnStatement where
  expression : Ref
  deriving DecidableEq, Repr

structure ForLoop where
  initial : List Ref
  condition : Ref
  update : List Ref
  body : Ref
  deriving DecidableEq, Repr

structure TryStatement where
  resources : List Ref
  body : Ref
  /-- The block that runs in any case. -/
  cleanup : Ref
  deriving DecidableEq, Repr

structure Lambda where
  parameters : List Ref
  /-- An expression or a block. -/
  body : Ref
  type : Option TypeId
  deriving DecidableEq, Repr

structure Binary where
  left : Ref
  operator : BinaryOperator
  right : Ref
  type : Option TypeId
  deriving DecidableEq, Repr

inductive NodeData where
  | compilationUnit (d : CompilationUnit)
  | classDeclaration (d : ClassDeclaration)
  | methodDeclaration (d : MethodDeclaration)
  | block (d : Block)
  | variableDeclarations (d : VariableDeclarations)
  | namedVariable (d : NamedVariable)
  | identifier (d : Identifier)
  | fieldAccess (d : FieldAccess)
  | methodInvocation (d : MethodInvocation)
  | newClass (d : NewClass)
  | literal (d : Literal)
  | annotationUse (d : AnnotationUse)
  | assignment (d : Assignment)
  | newArray (d : NewArray)
  | returnStatement (d : ReturnStatement)
  | forLoop (d : ForLoop)
  | tryStatement (d : TryStatement)
  | lambda (d : Lambda)
  | binary (d : Binary)
  deriving DecidableEq, Repr

/-- What a payload is, without its content. -/
inductive NodeKind where
  | compilationUnit | classDeclaration | methodDeclaration | block | variableDeclarations
  | namedVariable | identifier | fieldAccess | methodInvocation | newClass | literal | annotationUse
  | assignment | newArray | returnStatement | forLoop | tryStatement | lambda | binary
  deriving DecidableEq, Repr

/-- The name of a kind in messages and in stored files. -/
def NodeKind.label : NodeKind → String
  | .compilationUnit => "CompilationUnit"
  | .classDeclaration => "ClassDeclaration"
  | .methodDeclaration => "MethodDeclaration"
  | .block => "Block"
  | .variableDeclarations => "VariableDeclarations"
  | .namedVariable => "NamedVariable"
  | .identifier => "Identifier"
  | .fieldAccess => "FieldAccess"
  | .methodInvocation => "MethodInvocation"
  | .newClass => "NewClass"
  | .literal => "Literal"
  | .annotationUse => "Annotation"
  | .assignment => "Assignment"
  | .newArray => "NewArray"
  | .returnStatement => "Return"
  | .forLoop => "ForLoop"
  | .tryStatement => "Try"
  | .lambda => "Lambda"
  | .binary => "Binary"

namespace NodeData

def kind : NodeData → NodeKind
  | .compilationUnit _ => .compilationUnit
  | .classDeclaration _ => .classDeclaration
  | .methodDeclaration _ => .methodDeclaration
  | .block _ => .block
  | .variableDeclarations _ => .variableDeclarations
  | .namedVariable _ => .namedVariable
  | .identifier _ => .identifier
  | .fieldAccess _ => .fieldAccess
  | .methodInvocation _ => .methodInvocation
  | .newClass _ => .newClass
  | .literal _ => .literal
  | .annotationUse _ => .annotationUse
  | .assignment _ => .assignment
  | .newArray _ => .newArray
  | .returnStatement _ => .returnStatement
  | .forLoop _ => .forLoop
  | .tryStatement _ => .tryStatement
  | .lambda _ => .lambda
  | .binary _ => .binary

def identifier? : NodeData → Option Identifier
  | .identifier d => some d
  | _ => none

def literal? : NodeData → Option Literal
  | .literal d => some d
  | _ => none

def class? : NodeData → Option ClassDeclaration
  | .classDeclaration d => some d
  | _ => none

def method? : NodeData → Option MethodDeclaration
  | .methodDeclaration d => some d
  | _ => none

def block? : NodeData → Option Block
  | .block d => some d
  | _ => none

def declarations? : NodeData → Option VariableDeclarations
  | .variableDeclarations d => some d
  | _ => none

def namedVariable? : NodeData → Option NamedVariable
  | .namedVariable d => some d
  | _ => none

def invocation? : NodeData → Option MethodInvocation
  | .methodInvocation d => some d
  | _ => none

def annotationUse? : NodeData → Option AnnotationUse
  | .annotationUse d => some d
  | _ => none

/-- The modifiers of a class, method or variable declaration. -/
def modifiers? : NodeData → Option (List Modifier)
  | .classDeclaration d => some d.modifiers
  | .methodDeclaration d => some d.modifiers
  | .variableDeclarations d => some d.modifiers
  | _ => none

/-- The annotations of a class, method or variable declaration. -/
def annotations : NodeData → List Ref
  | .classDeclaration d => d.annotations
  | .methodDeclaration d => d.annotations
  | .variableDeclarations d => d.annotations
  | _ => []

/-- The type that an expression carries itself; an invocation carries none. -/
def ownType : NodeData → Option TypeId
  | .identifier d => d.type
  | .fieldAccess d => d.type
  | .newClass d => d.type
  | .literal d => d.type
  | .assignment d => d.type
  | .newArray d => d.type
  | .lambda d => d.type
  | .binary d => d.type
  | _ => none

end NodeData

/-- A payload with the link to the node that holds it. -/
structure Node where
  parent : Ref
  data : NodeData
  deriving DecidableEq, Repr

end JavaRecipes
