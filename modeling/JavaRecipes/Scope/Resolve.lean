import JavaRecipes.Scope.Frame
import JavaRecipes.Scope.Owner

/-!
The initializer a name stands for. A reference resolves when its variable and the code around it
have one root owner, the innermost binding of the name is final, and that binding has an
initializer.
-/

namespace JavaRecipes

namespace Store

/-- What a scope walk finds at a node entered from `prior`: nothing more at the compilation unit, or
the binding of the name in the node's frame. -/
def bindingAt (s : Store) (name : String) (prior : Ref) (n : NodeId) : Option (Option Binding) :=
  match s.data? (some n) with
  | some (.compilationUnit _) => some none
  | _ => ((s.frame? (some n) prior).bind fun f => f.find? s name).map some

/-- The innermost binding of the name around a node. -/
def findBinding (s : Store) (name : String) (position : Ref) : Option Binding :=
  match s.parent position with
  | none => none
  | some start =>
    let walk := walkOutward (fun (_, n) => (s.parent (some n)).map fun p => (some n, p))
      (fun (prior, n) => s.bindingAt name prior n) scopeWalkLimit (position, start)
    walk.found?.join

/-- The initializer that `reference` stands for at `position`, or `reference` itself. -/
def resolve (s : Store) (types : TypeTable) (reference position : Ref) : Ref :=
  match s.referencedVariable reference with
  | none => reference
  | some id =>
    match types.variableAt? id with
    | none => reference
    | some v =>
      match types.rootOwner id, s.localRootOwner types position with
      | some owner, some around =>
        if owner = around then
          match s.findBinding v.name position with
          | some b => if b.isFinal && b.initializer.isSome then b.initializer else reference
          | none => reference
        else reference
      | _, _ => reference

end Store

end JavaRecipes
