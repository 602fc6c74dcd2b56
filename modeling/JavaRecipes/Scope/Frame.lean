import JavaRecipes.Tree.Store

/-!
Scope frames: nodes that introduce bindings, seen from the child a walk comes from. A block shows
the statements before that child, every other frame all its declarations.
-/

namespace JavaRecipes

/-- What makes a frame. -/
inductive FrameKind where
  | method | block | loop | resourceClause | functionLiteral | singleDeclaration
  deriving DecidableEq, Repr

/-- A frame with the nodes that may declare in it. -/
structure ScopeFrame where
  kind : FrameKind
  candidates : List Ref
  deriving DecidableEq, Repr

/-- A variable found by its name. -/
structure Binding where
  /-- The declaration. -/
  declaration : Ref
  /-- The variable in it. -/
  named : Ref
  isFinal : Bool
  initializer : Ref
  deriving DecidableEq, Repr

namespace Store

/-- Whether a node is the body of a class. -/
def isClassBody (s : Store) (r : Ref) : Bool := (s.class? (s.parent r)).isSome

/-- The statements of a block that are visible from one of them: all in the body of a class, else
those before it. -/
def visibleStatements (s : Store) (block : Ref) (d : Block) (prior : Ref) : List Ref :=
  if s.isClassBody block then d.statements else d.statements.takeWhile (· ≠ prior)

/-- The frame a node makes for what comes from its child `prior`. -/
def frame? (s : Store) (r prior : Ref) : Option ScopeFrame :=
  match s.data? r with
  | some (.methodDeclaration d) => some { kind := .method, candidates := d.parameters }
  | some (.block d) => some { kind := .block, candidates := s.visibleStatements r d prior }
  | some (.forLoop d) => some { kind := .loop, candidates := d.initial }
  | some (.tryStatement d) =>
    if d.resources.isEmpty then none
    else some { kind := .resourceClause, candidates := d.resources }
  | some (.lambda d) => some { kind := .functionLiteral, candidates := d.parameters }
  | some (.variableDeclarations _) => some { kind := .singleDeclaration, candidates := [r] }
  | _ => none

/-- The binding that a variable of a declaration makes, if it has the name. -/
def bindingOf? (s : Store) (declaration : Ref) (d : VariableDeclarations) (name : String)
    (r : Ref) : Option Binding :=
  (s.namedVariable? r).bind fun v =>
    if s.identifierText? v.name = some name then
      some {
        declaration, named := r, isFinal := hasModifier d.modifiers .isFinal
        initializer := v.initializer }
    else none

/-- The first variable of the name in a declaration. -/
def findIn? (s : Store) (name : String) (declaration : Ref) : Option Binding :=
  (s.declarations? declaration).bind fun d =>
    d.declared.findSome? (s.bindingOf? declaration d name)

end Store

/-- The first binding of the name, in the order of the declarations. -/
def ScopeFrame.find? (f : ScopeFrame) (s : Store) (name : String) : Option Binding :=
  f.candidates.findSome? (s.findIn? name)

end JavaRecipes
