import JavaRecipes.Json.Reader
import JavaRecipes.Json.Printer
import JavaRecipes.Json.Record
import JavaRecipes.Tree.SourceFile

/-!
Files as stored: JSON with one object per node and per type. The class index is not stored and
parent links are not trusted; both are drawn afresh on loading.
-/

namespace JavaRecipes

/-! ## Names, references and other small values -/

/-- Read one of `all` by its label. -/
def unitOfJson? {α : Type} (all : List α) (label : α → String) (v : Json) : Option α :=
  v.unitVariant?.bind fun name => all.find? fun a => label a == name

def Primitive.label : Primitive → String
  | .boolean => "Boolean"
  | .byte => "Byte"
  | .char => "Char"
  | .short => "Short"
  | .int => "Int"
  | .long => "Long"
  | .float => "Float"
  | .double => "Double"
  | .void => "Void"

def Primitive.toJson (p : Primitive) : Json := .text p.label

def Primitive.ofJson? : Json → Option Primitive := unitOfJson? Primitive.all Primitive.label

def ModifierKind.label : ModifierKind → String
  | .isPublic => "Public"
  | .isProtected => "Protected"
  | .isPrivate => "Private"
  | .isStatic => "Static"
  | .isFinal => "Final"
  | .isAbstract => "Abstract"
  | .isDefault => "Default"
  | .isSynchronized => "Synchronized"

def ModifierKind.all : List ModifierKind :=
  [.isPublic, .isProtected, .isPrivate, .isStatic, .isFinal, .isAbstract, .isDefault,
    .isSynchronized]

def ModifierKind.toJson (k : ModifierKind) : Json := .text k.label

def ModifierKind.ofJson? : Json → Option ModifierKind :=
  unitOfJson? ModifierKind.all ModifierKind.label

def ClassKind.label : ClassKind → String
  | .ordinary => "Class"
  | .interface => "Interface"
  | .enum => "Enum"
  | .record => "Record"
  | .annotationType => "Annotation"

def ClassKind.all : List ClassKind := [.ordinary, .interface, .enum, .record, .annotationType]

def ClassKind.toJson (k : ClassKind) : Json := .text k.label

def ClassKind.ofJson? : Json → Option ClassKind := unitOfJson? ClassKind.all ClassKind.label

def BinaryOperator.label : BinaryOperator → String
  | .add => "Add"
  | .subtract => "Subtract"
  | .multiply => "Multiply"
  | .divide => "Divide"
  | .lessThan => "LessThan"
  | .greaterThan => "GreaterThan"
  | .equal => "Equal"
  | .notEqual => "NotEqual"

def BinaryOperator.all : List BinaryOperator :=
  [.add, .subtract, .multiply, .divide, .lessThan, .greaterThan, .equal, .notEqual]

def BinaryOperator.toJson (o : BinaryOperator) : Json := .text o.label

def BinaryOperator.ofJson? : Json → Option BinaryOperator :=
  unitOfJson? BinaryOperator.all BinaryOperator.label

def Ref.toJson (r : Ref) : Json := .nat (Ref.code r)

def Ref.ofJson? (v : Json) : Option Ref := v.word?.map Ref.ofCode

def refsToJson (rs : List Ref) : Json := .array (rs.map Ref.toJson)

def refsOfJson? : Json → Option (List Ref) := Json.list? Ref.ofJson?

def textsToJson (ss : List String) : Json := .array (ss.map .text)

def textsOfJson? : Json → Option (List String) := Json.list? Json.text?

/-- A type, or `null`. -/
def typeToJson : Option TypeId → Json := Json.option .nat

def typeOfJson? : Option Json → Option (Option TypeId) := Json.optional? Json.word?

/-- A list of comments is left out when empty. -/
def commentFields : List String → List (String × Json)
  | [] => []
  | cs => [("comments", textsToJson cs)]

def commentsOfJson? : Option Json → Option (List String) := Json.defaulted? [] textsOfJson?

def Modifier.toJson (m : Modifier) : Json :=
  .fields (("kind", m.kind.toJson) :: commentFields m.comments)

def Modifier.ofJson? (v : Json) : Option Modifier := do
  let [kind, comments] ← v.record? ["kind", "comments"] 1 | none
  some {
    kind := ← Json.required? ModifierKind.ofJson? kind
    comments := ← commentsOfJson? comments }

def modifiersToJson (ms : List Modifier) : Json := .array (ms.map Modifier.toJson)

def modifiersOfJson? : Json → Option (List Modifier) := Json.list? Modifier.ofJson?

def LiteralValue.toJson : LiteralValue → Json
  | .string s => .fields [("String", .text s)]
  | .int i => .fields [("Int", .int i.toInt)]
  | .long i => .fields [("Long", .int i.toInt)]
  | .boolean b => .fields [("Boolean", .bool b)]
  | .null => .text "Null"

def LiteralValue.ofJson? (v : Json) : Option LiteralValue :=
  match v.variant? with
  | some ("String", some c) => c.text?.map .string
  | some ("Int", some c) => (c.int? (-2147483648) 2147483647).map fun i => .int (Int32.ofInt i)
  | some ("Long", some c) =>
    (c.int? (-9223372036854775808) 9223372036854775807).map fun i => .long (Int64.ofInt i)
  | some ("Boolean", some c) => c.bool?.map .boolean
  | some ("Null", none) => some .null
  | some ("Null", some .null) => some .null
  | _ => none

/-! ## Type entries -/

def ClassType.toJson (c : ClassType) : Json :=
  .fields [("fully_qualified_name", .text c.name), ("owning_class", typeToJson c.owner)]

def ClassType.ofJson? (v : Json) : Option ClassType := do
  let [name, owner] ← v.record? ["fully_qualified_name", "owning_class"] 0 | none
  some { name := ← Json.required? Json.text? name, owner := ← typeOfJson? owner }

def MethodType.toJson (m : MethodType) : Json :=
  .fields [("declaring_type", .nat m.declaring), ("name", .text m.name),
    ("return_type", typeToJson m.returns), ("parameter_types", .array (m.params.map .nat))]

def MethodType.ofJson? (v : Json) : Option MethodType := do
  let [declaring, name, returns, params] ←
    v.record? ["declaring_type", "name", "return_type", "parameter_types"] 0 | none
  some {
    declaring := ← Json.required? Json.word? declaring
    name := ← Json.required? Json.text? name
    returns := ← typeOfJson? returns
    params := ← Json.required? (Json.list? Json.word?) params }

def VariableType.toJson (x : VariableType) : Json :=
  .fields [("name", .text x.name), ("owner", typeToJson x.owner), ("var_type", typeToJson x.type)]

def VariableType.ofJson? (v : Json) : Option VariableType := do
  let [name, owner, type] ← v.record? ["name", "owner", "var_type"] 0 | none
  some {
    name := ← Json.required? Json.text? name
    owner := ← typeOfJson? owner
    type := ← typeOfJson? type }

def TypeEntry.toJson : TypeEntry → Json
  | .classType c => .fields [("Class", c.toJson)]
  | .primitive p => .fields [("Primitive", p.toJson)]
  | .method m => .fields [("Method", m.toJson)]
  | .variable x => .fields [("Variable", x.toJson)]
  | .unknown => .text "Unknown"

def TypeEntry.ofJson? (v : Json) : Option TypeEntry :=
  match v.variant? with
  | some ("Class", some c) => (ClassType.ofJson? c).map .classType
  | some ("Primitive", some c) => (Primitive.ofJson? c).map .primitive
  | some ("Method", some c) => (MethodType.ofJson? c).map .method
  | some ("Variable", some c) => (VariableType.ofJson? c).map .variable
  | some ("Unknown", none) => some .unknown
  | some ("Unknown", some .null) => some .unknown
  | _ => none

/-! ## Payloads -/

def CompilationUnit.toJson (d : CompilationUnit) : Json :=
  .fields [("package_name", .option .text d.packageName), ("imports", textsToJson d.imports),
    ("classes", refsToJson d.classes)]

def CompilationUnit.ofJson? (v : Json) : Option CompilationUnit := do
  let [packageName, imports, classes] ← v.record? ["package_name", "imports", "classes"] 0 | none
  some {
    packageName := ← Json.optional? Json.text? packageName
    imports := ← Json.required? textsOfJson? imports
    classes := ← Json.required? refsOfJson? classes }

def ClassDeclaration.toJson (d : ClassDeclaration) : Json :=
  .fields [("annotations", refsToJson d.annotations), ("modifiers", modifiersToJson d.modifiers),
    ("class_kind", d.kind.toJson), ("name", Ref.toJson d.name), ("body", Ref.toJson d.body),
    ("class_type", typeToJson d.type)]

def ClassDeclaration.ofJson? (v : Json) : Option ClassDeclaration := do
  let [annotations, modifiers, kind, name, body, type] ←
    v.record? ["annotations", "modifiers", "class_kind", "name", "body", "class_type"] 0 | none
  some {
    annotations := ← Json.required? refsOfJson? annotations
    modifiers := ← Json.required? modifiersOfJson? modifiers
    kind := ← Json.required? ClassKind.ofJson? kind
    name := ← Json.required? Ref.ofJson? name
    body := ← Json.required? Ref.ofJson? body
    type := ← typeOfJson? type }

def MethodDeclaration.toJson (d : MethodDeclaration) : Json :=
  .fields (commentFields d.comments ++
    [("annotations", refsToJson d.annotations), ("modifiers", modifiersToJson d.modifiers),
      ("return_type", Ref.toJson d.returnType), ("name", Ref.toJson d.name),
      ("parameters", refsToJson d.parameters), ("body", Ref.toJson d.body),
      ("method_type", typeToJson d.type)])

def MethodDeclaration.ofJson? (v : Json) : Option MethodDeclaration := do
  let [comments, annotations, modifiers, returnType, name, parameters, body, type] ←
    v.record? ["comments", "annotations", "modifiers", "return_type", "name", "parameters", "body",
      "method_type"] 0 | none
  some {
    comments := ← commentsOfJson? comments
    annotations := ← Json.required? refsOfJson? annotations
    modifiers := ← Json.required? modifiersOfJson? modifiers
    returnType := ← Json.required? Ref.ofJson? returnType
    name := ← Json.required? Ref.ofJson? name
    parameters := ← Json.required? refsOfJson? parameters
    body := ← Json.required? Ref.ofJson? body
    type := ← typeOfJson? type }

def Block.toJson (d : Block) : Json := .fields [("statements", refsToJson d.statements)]

def Block.ofJson? (v : Json) : Option Block := do
  let [statements] ← v.record? ["statements"] 0 | none
  some { statements := ← Json.required? refsOfJson? statements }

def VariableDeclarations.toJson (d : VariableDeclarations) : Json :=
  .fields [("annotations", refsToJson d.annotations), ("modifiers", modifiersToJson d.modifiers),
    ("type_expr", Ref.toJson d.typeExpr), ("variables", refsToJson d.declared)]

def VariableDeclarations.ofJson? (v : Json) : Option VariableDeclarations := do
  let [annotations, modifiers, typeExpr, declared] ←
    v.record? ["annotations", "modifiers", "type_expr", "variables"] 0 | none
  some {
    annotations := ← Json.required? refsOfJson? annotations
    modifiers := ← Json.required? modifiersOfJson? modifiers
    typeExpr := ← Json.required? Ref.ofJson? typeExpr
    declared := ← Json.required? refsOfJson? declared }

def NamedVariable.toJson (d : NamedVariable) : Json :=
  .fields [("name", Ref.toJson d.name), ("initializer", Ref.toJson d.initializer),
    ("variable_type", typeToJson d.type)]

def NamedVariable.ofJson? (v : Json) : Option NamedVariable := do
  let [name, initializer, type] ← v.record? ["name", "initializer", "variable_type"] 0 | none
  some {
    name := ← Json.required? Ref.ofJson? name
    initializer := ← Json.required? Ref.ofJson? initializer
    type := ← typeOfJson? type }

def Identifier.toJson (d : Identifier) : Json :=
  .fields [("simple_name", .text d.name), ("ty", typeToJson d.type),
    ("field_type", typeToJson d.variableType)]

def Identifier.ofJson? (v : Json) : Option Identifier := do
  let [name, type, variableType] ← v.record? ["simple_name", "ty", "field_type"] 0 | none
  some {
    name := ← Json.required? Json.text? name
    type := ← typeOfJson? type
    variableType := ← typeOfJson? variableType }

def FieldAccess.toJson (d : FieldAccess) : Json :=
  .fields [("target", Ref.toJson d.target), ("name", Ref.toJson d.name), ("ty", typeToJson d.type)]

def FieldAccess.ofJson? (v : Json) : Option FieldAccess := do
  let [target, name, type] ← v.record? ["target", "name", "ty"] 0 | none
  some {
    target := ← Json.required? Ref.ofJson? target
    name := ← Json.required? Ref.ofJson? name
    type := ← typeOfJson? type }

def MethodInvocation.toJson (d : MethodInvocation) : Json :=
  .fields [("select", Ref.toJson d.select), ("name", Ref.toJson d.name),
    ("arguments", refsToJson d.arguments), ("method_type", typeToJson d.type)]

def MethodInvocation.ofJson? (v : Json) : Option MethodInvocation := do
  let [select, name, arguments, type] ←
    v.record? ["select", "name", "arguments", "method_type"] 0 | none
  some {
    select := ← Json.required? Ref.ofJson? select
    name := ← Json.required? Ref.ofJson? name
    arguments := ← Json.required? refsOfJson? arguments
    type := ← typeOfJson? type }

def NewClass.toJson (d : NewClass) : Json :=
  .fields [("class_expr", Ref.toJson d.classExpr), ("arguments", refsToJson d.arguments),
    ("ty", typeToJson d.type)]

def NewClass.ofJson? (v : Json) : Option NewClass := do
  let [classExpr, arguments, type] ← v.record? ["class_expr", "arguments", "ty"] 0 | none
  some {
    classExpr := ← Json.required? Ref.ofJson? classExpr
    arguments := ← Json.required? refsOfJson? arguments
    type := ← typeOfJson? type }

def Literal.toJson (d : Literal) : Json :=
  .fields [("value", d.value.toJson), ("ty", typeToJson d.type)]

def Literal.ofJson? (v : Json) : Option Literal := do
  let [value, type] ← v.record? ["value", "ty"] 0 | none
  some { value := ← Json.required? LiteralValue.ofJson? value, type := ← typeOfJson? type }

def AnnotationUse.toJson (d : AnnotationUse) : Json :=
  .fields [("annotation_type", Ref.toJson d.annotationType), ("arguments", refsToJson d.arguments)]

def AnnotationUse.ofJson? (v : Json) : Option AnnotationUse := do
  let [annotationType, arguments] ← v.record? ["annotation_type", "arguments"] 0 | none
  some {
    annotationType := ← Json.required? Ref.ofJson? annotationType
    arguments := ← Json.required? refsOfJson? arguments }

def Assignment.toJson (d : Assignment) : Json :=
  .fields [("variable", Ref.toJson d.target), ("value", Ref.toJson d.value),
    ("ty", typeToJson d.type)]

def Assignment.ofJson? (v : Json) : Option Assignment := do
  let [target, value, type] ← v.record? ["variable", "value", "ty"] 0 | none
  some {
    target := ← Json.required? Ref.ofJson? target
    value := ← Json.required? Ref.ofJson? value
    type := ← typeOfJson? type }

def NewArray.toJson (d : NewArray) : Json :=
  .fields [("elements", refsToJson d.elements), ("ty", typeToJson d.type)]

def NewArray.ofJson? (v : Json) : Option NewArray := do
  let [elements, type] ← v.record? ["elements", "ty"] 0 | none
  some { elements := ← Json.required? refsOfJson? elements, type := ← typeOfJson? type }

def ReturnStatement.toJson (d : ReturnStatement) : Json :=
  .fields [("expression", Ref.toJson d.expression)]

def ReturnStatement.ofJson? (v : Json) : Option ReturnStatement := do
  let [expression] ← v.record? ["expression"] 0 | none
  some { expression := ← Json.required? Ref.ofJson? expression }

def ForLoop.toJson (d : ForLoop) : Json :=
  .fields [("init", refsToJson d.initial), ("condition", Ref.toJson d.condition),
    ("update", refsToJson d.update), ("body", Ref.toJson d.body)]

def ForLoop.ofJson? (v : Json) : Option ForLoop := do
  let [initial, condition, update, body] ← v.record? ["init", "condition", "update",
    "body"] 0 | none
  some {
    initial := ← Json.required? refsOfJson? initial
    condition := ← Json.required? Ref.ofJson? condition
    update := ← Json.required? refsOfJson? update
    body := ← Json.required? Ref.ofJson? body }

def TryStatement.toJson (d : TryStatement) : Json :=
  .fields [("resources", refsToJson d.resources), ("body", Ref.toJson d.body),
    ("finally", Ref.toJson d.cleanup)]

def TryStatement.ofJson? (v : Json) : Option TryStatement := do
  let [resources, body, cleanup] ← v.record? ["resources", "body", "finally"] 0 | none
  some {
    resources := ← Json.required? refsOfJson? resources
    body := ← Json.required? Ref.ofJson? body
    cleanup := ← Json.required? Ref.ofJson? cleanup }

def Lambda.toJson (d : Lambda) : Json :=
  .fields [("parameters", refsToJson d.parameters), ("body", Ref.toJson d.body),
    ("ty", typeToJson d.type)]

def Lambda.ofJson? (v : Json) : Option Lambda := do
  let [parameters, body, type] ← v.record? ["parameters", "body", "ty"] 0 | none
  some {
    parameters := ← Json.required? refsOfJson? parameters
    body := ← Json.required? Ref.ofJson? body
    type := ← typeOfJson? type }

def Binary.toJson (d : Binary) : Json :=
  .fields [("left", Ref.toJson d.left), ("operator", d.operator.toJson),
    ("right", Ref.toJson d.right), ("ty", typeToJson d.type)]

def Binary.ofJson? (v : Json) : Option Binary := do
  let [left, operator, right, type] ← v.record? ["left", "operator", "right", "ty"] 0 | none
  some {
    left := ← Json.required? Ref.ofJson? left
    operator := ← Json.required? BinaryOperator.ofJson? operator
    right := ← Json.required? Ref.ofJson? right
    type := ← typeOfJson? type }

namespace NodeData

/-- The content of a payload, without its kind. -/
def contentJson : NodeData → Json
  | .compilationUnit d => d.toJson
  | .classDeclaration d => d.toJson
  | .methodDeclaration d => d.toJson
  | .block d => d.toJson
  | .variableDeclarations d => d.toJson
  | .namedVariable d => d.toJson
  | .identifier d => d.toJson
  | .fieldAccess d => d.toJson
  | .methodInvocation d => d.toJson
  | .newClass d => d.toJson
  | .literal d => d.toJson
  | .annotationUse d => d.toJson
  | .assignment d => d.toJson
  | .newArray d => d.toJson
  | .returnStatement d => d.toJson
  | .forLoop d => d.toJson
  | .tryStatement d => d.toJson
  | .lambda d => d.toJson
  | .binary d => d.toJson

def toJson (d : NodeData) : Json := .fields [(d.kind.label, d.contentJson)]

/-- Read the content of a payload whose kind has the given label. -/
def ofContent? (label : String) (v : Json) : Option NodeData :=
  match label with
  | "CompilationUnit" => (CompilationUnit.ofJson? v).map .compilationUnit
  | "ClassDeclaration" => (ClassDeclaration.ofJson? v).map .classDeclaration
  | "MethodDeclaration" => (MethodDeclaration.ofJson? v).map .methodDeclaration
  | "Block" => (Block.ofJson? v).map .block
  | "VariableDeclarations" => (VariableDeclarations.ofJson? v).map .variableDeclarations
  | "NamedVariable" => (NamedVariable.ofJson? v).map .namedVariable
  | "Identifier" => (Identifier.ofJson? v).map .identifier
  | "FieldAccess" => (FieldAccess.ofJson? v).map .fieldAccess
  | "MethodInvocation" => (MethodInvocation.ofJson? v).map .methodInvocation
  | "NewClass" => (NewClass.ofJson? v).map .newClass
  | "Literal" => (Literal.ofJson? v).map .literal
  | "Annotation" => (AnnotationUse.ofJson? v).map .annotationUse
  | "Assignment" => (Assignment.ofJson? v).map .assignment
  | "NewArray" => (NewArray.ofJson? v).map .newArray
  | "Return" => (ReturnStatement.ofJson? v).map .returnStatement
  | "ForLoop" => (ForLoop.ofJson? v).map .forLoop
  | "Try" => (TryStatement.ofJson? v).map .tryStatement
  | "Lambda" => (Lambda.ofJson? v).map .lambda
  | "Binary" => (Binary.ofJson? v).map .binary
  | _ => none

def ofJson? (v : Json) : Option NodeData :=
  match v.variant? with
  | some (label, some content) => ofContent? label content
  | _ => none

end NodeData

/-! ## Files -/

def Node.toJson (n : Node) : Json :=
  .fields [("parent", Ref.toJson n.parent), ("data", n.data.toJson)]

def Node.ofJson? (v : Json) : Option Node := do
  let [parent, data] ← v.record? ["parent", "data"] 0 | none
  some {
    parent := ← Json.required? Ref.ofJson? parent
    data := ← Json.required? NodeData.ofJson? data }

def Store.toJson (s : Store) : Json := .fields [("nodes", .array (s.nodes.toList.map Node.toJson))]

def Store.ofJson? (v : Json) : Option Store := do
  let [nodes] ← v.record? ["nodes"] 0 | none
  some { nodes := (← Json.required? (Json.list? Node.ofJson?) nodes).toArray }

/-- The entries of a table in order. -/
def TypeTable.entriesJson (t : TypeTable) : Json := .array (t.entries.toList.map TypeEntry.toJson)

def TypeTable.toJson (t : TypeTable) : Json := .fields [("types", t.entriesJson)]

def TypeTable.ofJson? (v : Json) : Option TypeTable := do
  let [types] ← v.record? ["types"] 0 | none
  some { entries := (← Json.required? (Json.list? TypeEntry.ofJson?) types).toArray }

namespace SourceFile

def toJson (f : SourceFile) : Json :=
  .fields [("path", .text f.path), ("arena", f.store.toJson), ("types", f.types.toJson),
    ("root", Ref.toJson f.root)]

/-- The file a JSON value spells, before links and index are drawn. -/
def ofJson? (v : Json) : Option SourceFile := do
  let [path, store, types, root] ← v.record? ["path", "arena", "types", "root"] 0 | none
  some {
    path := ← Json.required? Json.text? path
    store := ← Json.required? Store.ofJson? store
    types := ← Json.required? TypeTable.ofJson? types
    root := ← Json.required? Ref.ofJson? root }

/-- Load a file from JSON, with its parent links and class index. -/
def load? (v : Json) : Option SourceFile := (ofJson? v).map refresh

/-- The stored text of a file. -/
def encode (f : SourceFile) : String := String.ofList (f.toJson.pretty 0)

/-- Load a file from its stored text. -/
def decode? (text : String) : Option SourceFile := (Json.parse text).bind load?

end SourceFile

end JavaRecipes
