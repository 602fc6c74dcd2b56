import JavaRecipes.Tree.SourceFile
import JavaRecipes.Text.Blank

/-!
The Java text of a tree. A tree is first laid out as pieces of text, line breaks and changes of
indentation; rendering turns the pieces into text. Indentation is four blanks a level, declaration
annotations stand on lines of their own and parameter annotations inline.
-/

namespace JavaRecipes

/-- A piece of a layout. -/
inductive Piece where
  | text (s : String)
  | newline
  | indent
  | dedent
  deriving DecidableEq, Repr

abbrev Layout := List Piece

namespace Layout

/-- Text of the indentation of `level`. -/
def margin (level : Nat) : String := String.join (List.replicate level "    ")

/-- Render pieces at a level of indentation. The margin is written before the first text of a line
that is not empty. -/
def renderFrom (level : Nat) (lineStart : Bool) : Layout → String
  | [] => ""
  | .text s :: rest =>
    if s.isEmpty then renderFrom level lineStart rest
    else (if lineStart then margin level else "") ++ s ++ renderFrom level false rest
  | .newline :: rest => "\n" ++ renderFrom level true rest
  | .indent :: rest => renderFrom (level + 1) lineStart rest
  | .dedent :: rest => renderFrom (level - 1) lineStart rest

def render (layout : Layout) : String := renderFrom 0 true layout

/-- Put a text between layouts. -/
def separated (sep : String) : List Layout → Layout
  | [] => []
  | [l] => l
  | l :: ls => l ++ .text sep :: separated sep ls

/-- Put a line break between layouts. -/
def paragraphs : List Layout → Layout
  | [] => []
  | [l] => l
  | l :: ls => l ++ .newline :: paragraphs ls

end Layout

/-! ## Literals -/

/-- Four hexadecimal digits. -/
def hexDigits4 (n : Nat) : List Char :=
  [n / 4096 % 16, n / 256 % 16, n / 16 % 16, n % 16].map Nat.digitChar

/-- A character inside a string literal. -/
def escapeInLiteral (c : Char) : List Char :=
  if c = '\n' then ['\\', 'n']
  else if c = '\r' then ['\\', 'r']
  else if c = '\t' then ['\\', 't']
  else if c = '\\' then ['\\', '\\']
  else if c = '"' then ['\\', '"']
  else if c.toNat < 0x20 then '\\' :: 'u' :: hexDigits4 c.toNat
  else [c]

/-- A string literal with its quotes. -/
def quoteLiteral (s : String) : String :=
  String.ofList ('"' :: s.toList.flatMap escapeInLiteral ++ ['"'])

/-- A whole number with its sign. -/
def decimal (i : Int) : String :=
  String.ofList ((if i < 0 then ['-'] else []) ++ Nat.toDigits 10 i.natAbs)

def LiteralValue.source : LiteralValue → String
  | .string s => quoteLiteral s
  | .int i => decimal i.toInt
  | .long i => decimal i.toInt ++ "L"
  | .boolean true => "true"
  | .boolean false => "false"
  | .null => "null"

/-! ## Nodes -/

/-- Where a node stands, which decides how it is laid out. -/
inductive Place where
  | member | statement | expression
  deriving DecidableEq, Repr

namespace NodeData

/-- Statements and declarations that close themselves; anything else in their place is an expression
followed by `;`. -/
def isStatement : NodeData → Bool
  | .classDeclaration _ => true
  | .methodDeclaration _ => true
  | .block _ => true
  | .returnStatement _ => true
  | .forLoop _ => true
  | .tryStatement _ => true
  | _ => false

end NodeData

namespace Store

section Parts

variable (s : Store) (sub : Place → Ref → Layout)

def layoutModifiers (modifiers : List Modifier) : Layout :=
  modifiers.map fun m => .text (m.kind.keyword ++ " ")

/-- Annotations, each on its line. -/
def layoutAnnotationLines (annotations : List Ref) : Layout :=
  annotations.flatMap fun a => sub .expression a ++ [.newline]

/-- Annotations in front of a declaration, on its line. -/
def layoutInlineAnnotations (annotations : List Ref) : Layout :=
  annotations.flatMap fun a => sub .expression a ++ [.text " "]

/-- One variable with its initializer. -/
def layoutVariable (r : Ref) : Layout :=
  match s.namedVariable? r with
  | none => []
  | some v =>
    sub .expression v.name ++
      if v.initializer.isSome then .text " = " :: sub .expression v.initializer else []

/-- Modifiers, type and variables of a declaration, without annotations. -/
def layoutDeclaration (d : VariableDeclarations) : Layout :=
  layoutModifiers d.modifiers ++
    (if d.typeExpr.isSome then sub .expression d.typeExpr ++ [.text " "] else []) ++
    Layout.separated ", " (d.declared.map (s.layoutVariable sub))

/-- A parameter or resource. -/
def layoutParameter (r : Ref) : Layout :=
  match s.declarations? r with
  | none => []
  | some d => layoutInlineAnnotations sub d.annotations ++ s.layoutDeclaration sub d

/-- A parameter of a lambda, which shows no annotations. -/
def layoutLambdaParameter (r : Ref) : Layout :=
  match s.declarations? r with
  | none => []
  | some d => s.layoutDeclaration sub d

/-- A block in braces; anything else in its place shows as an empty one. -/
def layoutBlock (r : Ref) : Layout :=
  let statements := ((s.block? r).map (·.statements)).getD []
  [.text "\x7b", .newline, .indent] ++ statements.flatMap (sub .statement) ++
    [.dedent, .text "\x7d"]

def layoutClass (d : ClassDeclaration) : Layout :=
  let members := ((s.block? d.body).map (·.statements)).getD []
  layoutAnnotationLines sub d.annotations ++ layoutModifiers d.modifiers ++
    [.text (d.kind.keyword ++ " ")] ++ sub .expression d.name ++
    [.text " \x7b", .newline, .indent] ++ Layout.paragraphs (members.map (sub .member)) ++
    [.dedent, .text "\x7d", .newline]

def layoutMethod (d : MethodDeclaration) : Layout :=
  d.comments.flatMap (fun c => [.text c, .newline]) ++
    layoutAnnotationLines sub d.annotations ++ layoutModifiers d.modifiers ++
    (if d.returnType.isSome then sub .expression d.returnType ++ [.text " "] else []) ++
    sub .expression d.name ++ [.text "("] ++
    Layout.separated ", " (d.parameters.map (s.layoutParameter sub)) ++ [.text ")"] ++
    (if d.body.isSome then .text " " :: s.layoutBlock sub d.body else [.text ";"]) ++ [.newline]

/-- The first part of a loop header: a declaration or an expression. -/
def layoutInitial (r : Ref) : Layout :=
  match s.declarations? r with
  | some d => s.layoutDeclaration sub d
  | none => sub .expression r

def layoutArguments (arguments : List Ref) : Layout :=
  Layout.separated ", " (arguments.map (sub .expression))

def layoutTry (d : TryStatement) : Layout :=
  [.text "try "] ++
    (if d.resources.isEmpty then []
      else [.text "("] ++ Layout.separated "; " (d.resources.map (s.layoutParameter sub)) ++
        [.text ") "]) ++
    s.layoutBlock sub d.body ++
    (if d.cleanup.isSome then .text " finally " :: s.layoutBlock sub d.cleanup
      else []) ++ [.newline]

/-- A payload in the place of an expression, laid out with `sub` for the nodes in it. -/
def layoutExpression : NodeData → Layout
  | .identifier d => [.text d.name]
  | .fieldAccess d => sub .expression d.target ++ .text "." :: sub .expression d.name
  | .methodInvocation d =>
    (if d.select.isSome then sub .expression d.select ++ [.text "."] else []) ++
      sub .expression d.name ++ [.text "("] ++ layoutArguments sub d.arguments ++ [.text ")"]
  | .newClass d =>
    [.text "new "] ++ sub .expression d.classExpr ++ [.text "("] ++
      layoutArguments sub d.arguments ++ [.text ")"]
  | .literal d => [.text d.value.source]
  | .annotationUse d =>
    [.text "@"] ++ sub .expression d.annotationType ++
      if d.arguments.isEmpty then []
      else [.text "("] ++ layoutArguments sub d.arguments ++ [.text ")"]
  | .assignment d => sub .expression d.target ++ .text " = " :: sub .expression d.value
  | .newArray d => [.text "\x7b"] ++ layoutArguments sub d.elements ++ [.text "\x7d"]
  | .lambda d =>
    [.text "("] ++ Layout.separated ", " (d.parameters.map (s.layoutLambdaParameter sub)) ++
      [.text ") -> "] ++
      if (s.block? d.body).isSome then s.layoutBlock sub d.body else sub .expression d.body
  | .binary d =>
    sub .expression d.left ++ .text (" " ++ d.operator.symbol ++ " ") :: sub .expression d.right
  | .variableDeclarations d => s.layoutDeclaration sub d
  | .namedVariable d => sub .expression d.name
  | .classDeclaration d => s.layoutClass sub d
  | .methodDeclaration d => s.layoutMethod sub d
  | .block d =>
    [.text "\x7b", .newline, .indent] ++ d.statements.flatMap (sub .statement) ++
      [.dedent, .text "\x7d", .newline]
  | .returnStatement d =>
    [.text "return"] ++
      (if d.expression.isSome then .text " " :: sub .expression d.expression else []) ++
      [.text ";", .newline]
  | .forLoop d =>
    [.text "for ("] ++ Layout.separated ", " (d.initial.map (s.layoutInitial sub)) ++
      [.text "; "] ++ sub .expression d.condition ++ [.text "; "] ++
      layoutArguments sub d.update ++ [.text ") "] ++ sub .statement d.body
  | .tryStatement d => s.layoutTry sub d
  | .compilationUnit _ => []

def layoutStatement (data : NodeData) : Layout :=
  match data with
  | .variableDeclarations d =>
    layoutInlineAnnotations sub d.annotations ++ s.layoutDeclaration sub d ++ [.text ";", .newline]
  | data =>
    s.layoutExpression sub data ++ if data.isStatement then [] else [.text ";", .newline]

def layoutMember (data : NodeData) : Layout :=
  match data with
  | .variableDeclarations d =>
    layoutAnnotationLines sub d.annotations ++ s.layoutDeclaration sub d ++ [.text ";", .newline]
  | data => s.layoutStatement sub data

def layoutAt : Place → NodeData → Layout
  | .member => s.layoutMember sub
  | .statement => s.layoutStatement sub
  | .expression => s.layoutExpression sub

end Parts

/-- The layout of a node, going at most so many levels down. -/
def layoutDepth (s : Store) : Nat → Place → Ref → Layout
  | 0, _, _ => []
  | depth + 1, place, r =>
    match s.data? r with
    | none => []
    | some data => s.layoutAt (s.layoutDepth depth) place data

/-- The layout of a node where it stands. In a store without cycles no path is longer than the
store. -/
def layout (s : Store) (place : Place) (r : Ref) : Layout := s.layoutDepth (s.size + 1) place r

/-- The text of a single expression. -/
def printExpression (s : Store) (r : Ref) : String := (s.layout .expression r).render

end Store

namespace SourceFile

/-- Package, imports and classes as paragraphs; nothing if the root is no compilation unit. -/
def layout (f : SourceFile) : Layout :=
  match f.store.data? f.root with
  | some (.compilationUnit unit) =>
    let package := match unit.packageName with
      | some name => [[.text ("package " ++ name ++ ";"), .newline]]
      | none => []
    let imports := if unit.imports.isEmpty then []
      else [unit.imports.flatMap fun name => [.text ("import " ++ name ++ ";"), .newline]]
    Layout.paragraphs (package ++ imports ++ unit.classes.map (f.store.layout .member))
  | _ => []

/-- The file as Java source. -/
def print (f : SourceFile) : String := f.layout.render

end SourceFile

end JavaRecipes
