import JavaRecipes.Tree.Node

/-!
The child fields of a payload in source order, and what is defined through them: its children and
the replacement of one of them.
-/

namespace JavaRecipes

/-- A field of a payload that holds children. -/
inductive ChildField where
  | one (r : Ref)
  | many (rs : List Ref)
  deriving DecidableEq, Repr

namespace ChildField

/-- The children in a field. A list shows all its slots, a single slot only one that is filled. -/
def children : ChildField → List Ref
  | .one none => []
  | .one (some n) => [some n]
  | .many rs => rs

/-- Put `new` into the first slot that is `old`. -/
def replaceFirst (old new : Ref) : List Ref → Option (List Ref)
  | [] => none
  | r :: rs => if r = old then some (new :: rs) else (replaceFirst old new rs).map (r :: ·)

/-- Put `new` into the first slot of the field that is `old`; here an empty slot counts too. -/
def replace? (old new : Ref) : ChildField → Option ChildField
  | .one r => if r = old then some (.one new) else none
  | .many rs => (replaceFirst old new rs).map .many

/-- Replace in the first field that has `old`. -/
def replaceIn? (old new : Ref) : List ChildField → Option (List ChildField)
  | [] => none
  | f :: fs =>
    match f.replace? old new with
    | some f' => some (f' :: fs)
    | none => (replaceIn? old new fs).map (f :: ·)

end ChildField

namespace NodeData

/-- The child fields in source order. -/
def childFields : NodeData → List ChildField
  | .compilationUnit d => [.many d.classes]
  | .classDeclaration d => [.many d.annotations, .one d.name, .one d.body]
  | .methodDeclaration d =>
    [.many d.annotations, .one d.returnType, .one d.name, .many d.parameters, .one d.body]
  | .block d => [.many d.statements]
  | .variableDeclarations d => [.many d.annotations, .one d.typeExpr, .many d.declared]
  | .namedVariable d => [.one d.name, .one d.initializer]
  | .identifier _ => []
  | .fieldAccess d => [.one d.target, .one d.name]
  | .methodInvocation d => [.one d.select, .one d.name, .many d.arguments]
  | .newClass d => [.one d.classExpr, .many d.arguments]
  | .literal _ => []
  | .annotationUse d => [.one d.annotationType, .many d.arguments]
  | .assignment d => [.one d.target, .one d.value]
  | .newArray d => [.many d.elements]
  | .returnStatement d => [.one d.expression]
  | .forLoop d => [.many d.initial, .one d.condition, .many d.update, .one d.body]
  | .tryStatement d => [.many d.resources, .one d.body, .one d.cleanup]
  | .lambda d => [.many d.parameters, .one d.body]
  | .binary d => [.one d.left, .one d.right]

/-- The payload with other child fields, which must have the shape of its own; else it stays. -/
def withChildFields : NodeData → List ChildField → NodeData
  | .compilationUnit d, [.many classes] => .compilationUnit { d with classes }
  | .classDeclaration d, [.many annotations, .one name, .one body] =>
    .classDeclaration { d with annotations, name, body }
  | .methodDeclaration d,
      [.many annotations, .one returnType, .one name, .many parameters, .one body] =>
    .methodDeclaration { d with annotations, returnType, name, parameters, body }
  | .block _, [.many statements] => .block { statements }
  | .variableDeclarations d, [.many annotations, .one typeExpr, .many declared] =>
    .variableDeclarations { d with annotations, typeExpr, declared }
  | .namedVariable d, [.one name, .one initializer] =>
    .namedVariable { d with name, initializer }
  | .fieldAccess d, [.one target, .one name] => .fieldAccess { d with target, name }
  | .methodInvocation d, [.one select, .one name, .many arguments] =>
    .methodInvocation { d with select, name, arguments }
  | .newClass d, [.one classExpr, .many arguments] => .newClass { d with classExpr, arguments }
  | .annotationUse _, [.one annotationType, .many arguments] =>
    .annotationUse { annotationType, arguments }
  | .assignment d, [.one target, .one value] => .assignment { d with target, value }
  | .newArray d, [.many elements] => .newArray { d with elements }
  | .returnStatement _, [.one expression] => .returnStatement { expression }
  | .forLoop _, [.many initial, .one condition, .many update, .one body] =>
    .forLoop { initial, condition, update, body }
  | .tryStatement _, [.many resources, .one body, .one cleanup] =>
    .tryStatement { resources, body, cleanup }
  | .lambda d, [.many parameters, .one body] => .lambda { d with parameters, body }
  | .binary d, [.one left, .one right] => .binary { d with left, right }
  | d, _ => d

/-- The children in source order. -/
def children (d : NodeData) : List Ref := d.childFields.flatMap ChildField.children

/-- The payload with `new` in the first slot that is `old`, if it has such a slot. -/
def replaceChild (d : NodeData) (old new : Ref) : Option NodeData :=
  (ChildField.replaceIn? old new d.childFields).map d.withChildFields

@[simp]
theorem withChildFields_childFields (d : NodeData) : d.withChildFields d.childFields = d := by
  cases d <;> rfl

end NodeData

end JavaRecipes
