import JavaRecipes.Scope.Walk
import JavaRecipes.Tree.SourceFile

/-!
Owner chains. Variables, methods and nested classes belong to something; following the owners ends
at a top-level class, the root owner. Code with one root owner lives in one top-level class.
-/

namespace JavaRecipes

/-- The end of an owner chain. -/
inductive RootOwner where
  /-- A top-level class, or a type that nothing can own. -/
  | type (id : TypeId)
  | unowned
  deriving DecidableEq, Repr

namespace TypeEntry

def owner? : TypeEntry → Option TypeId
  | .variable v => v.owner
  | .method m => some m.declaring
  | .classType c => c.owner
  | .primitive _ => none
  | .unknown => none

/-- Whether an owner chain ends at the entry. -/
def isRoot : TypeEntry → Bool
  | .classType c => c.owner.isNone
  | .primitive _ => true
  | .unknown => true
  | .variable _ => false
  | .method _ => false

end TypeEntry

namespace TypeTable

def owner? (t : TypeTable) (id : TypeId) : Option TypeId := (t.get? id).bind TypeEntry.owner?

/-- The root owner of a type; none when its chain is too long. -/
def rootOwner (t : TypeTable) (id : TypeId) : Option RootOwner :=
  let visit (id : TypeId) := if (t.get? id).any TypeEntry.isRoot then some id else none
  match walkOutward t.owner? visit ownerWalkLimit id with
  | .found root => some (.type root)
  | .exhausted => some .unowned
  | .limitReached => none

end TypeTable

namespace NodeData

/-- Whether the search for the enclosing declaration stops at the payload. -/
def isEnclosing : NodeData → Bool
  | .methodDeclaration _ => true
  | .classDeclaration _ => true
  | .compilationUnit _ => true
  | _ => false

/-- The type that a method or class declaration declares. -/
def declaredType : NodeData → Option TypeId
  | .methodDeclaration d => d.type
  | .classDeclaration d => d.type
  | _ => none

end NodeData

namespace Store

/-- Look for a method, a class or the compilation unit around a node. -/
def declarationWalk (s : Store) (r : Ref) : Walk NodeId :=
  match s.parent r with
  | none => .exhausted
  | some start =>
    walkOutward (fun n => s.parent (some n))
      (fun n => if (s.data? (some n)).any NodeData.isEnclosing then some n else none)
      scopeWalkLimit start

/-- The innermost method, class or compilation unit around a node. -/
def enclosingDeclaration (s : Store) (r : Ref) : Option NodeId := (s.declarationWalk r).found?

/-- The root owner of the code at a node: of the method or class around it. There is none at file
level; the outer `none` is for a walk that was too long. -/
def localRootOwner (s : Store) (types : TypeTable) (r : Ref) : Option RootOwner :=
  match s.declarationWalk r with
  | .limitReached => none
  | .exhausted => some .unowned
  | .found n =>
    match (s.data? (some n)).bind NodeData.declaredType with
    | some id => types.rootOwner id
    | none => some .unowned

end Store

end JavaRecipes
