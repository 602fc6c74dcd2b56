import JavaRecipes.Tree.Store

/-!
One attributed compilation unit: where it came from, its nodes, its types and its root.
-/

namespace JavaRecipes

structure SourceFile where
  path : String
  store : Store
  types : TypeTable
  root : Ref
  deriving DecidableEq, Repr

namespace SourceFile

/-- Draw the parent links and the class index afresh. -/
def refresh (f : SourceFile) : SourceFile :=
  { f with store := f.store.relink, types := f.types.reindex }

/-- Whether the class index has the name. -/
def usesType (f : SourceFile) (name : String) : Bool := (f.types.lookupClass name).isSome

/-- The nodes under the root. -/
def nodes (f : SourceFile) : List NodeId := f.store.descendants f.root

end SourceFile

end JavaRecipes
