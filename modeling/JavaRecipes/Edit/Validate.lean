import JavaRecipes.Edit.Basic

/-!
Checking an edit set against a file, without changing anything: each edit by itself, and then
against the earlier edits of the same node.
-/

namespace JavaRecipes

/-- What is wrong with the node an edit is about. -/
def roleFault? (file : SourceFile) (r : Ref) (expected : NodeRole) : Option EditError :=
  match file.store.kind? r with
  | none => some (.missingNode r)
  | some found => if expected.admits found then none else some (.unexpectedKind r expected found)

/-- The first of the nodes that does not exist. -/
def missingFault? (file : SourceFile) (rs : List Ref) : Option EditError :=
  (rs.find? fun r => (file.store.get? r).isNone).map .missingNode

namespace Edit

/-- What is wrong with an edit by itself. -/
def fault? (file : SourceFile) : Edit → Option EditError
  | .setLiteral r _ => roleFault? file r .literal
  | .replaceExpression r snippet =>
    if (file.store.get? r).isNone then some (.missingNode r)
    else if (file.store.parent r).isNone then some (.detached r)
    else missingFault? file snippet.existingNodes
  | .renameIdentifier r _ => roleFault? file r .identifier
  | .removeModifier r _ => roleFault? file r .declaration
  | .renameClassType source target =>
    if source ≠ target ∧ (file.types.lookupClass source).isSome ∧
        (file.types.lookupClass target).isSome then some (.typeNameTaken target)
    else none
  | .renameMethodType id _ =>
    if (file.types.methodAt? id).isNone then some (.missingType id) else none
  | .retypeInvocation r _ => roleFault? file r .invocation

/-- Two edits of one node go together when both remove modifiers, and not the same one. -/
def compatible : Edit → Edit → Bool
  | .removeModifier _ m, .removeModifier _ m' => m ≠ m'
  | a, b => a = b

/-- A clash with the last earlier edit of the same node; `earlier` has the last one first. -/
def conflict? (earlier : List Edit) (e : Edit) : Option EditError :=
  match e.target? with
  | none => none
  | some r =>
    match earlier.find? fun a => a.target? = some r with
    | some a => if compatible a e then none else some (.conflict r)
    | none => none

end Edit

namespace EditSet

/-- The first fault of the edits in order, given those before them, last first. -/
def faultAfter? (file : SourceFile) : List Edit → List Edit → Option EditError
  | _, [] => none
  | earlier, e :: es =>
    match e.fault? file with
    | some error => some error
    | none =>
      match e.conflict? earlier with
      | some error => some error
      | none => faultAfter? file (e :: earlier) es

/-- The first fault of a set. -/
def fault? (s : EditSet) (file : SourceFile) : Option EditError := faultAfter? file [] s.edits

def validate (s : EditSet) (file : SourceFile) : Except EditError Unit :=
  match s.fault? file with
  | some error => .error error
  | none => .ok ()

end EditSet

end JavaRecipes
