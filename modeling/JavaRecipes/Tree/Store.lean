import JavaRecipes.Tree.Fields
import JavaRecipes.Types.Table

/-!
The node store of a file: nodes side by side, each with a link to the node that holds it. Nodes are
never removed, so a position stays valid; a node that nothing holds any more is merely out of reach.
-/

namespace JavaRecipes

structure Store where
  nodes : Array Node := #[]
  deriving DecidableEq, Repr

namespace Store

def empty : Store := {}

def size (s : Store) : Nat := s.nodes.size

def get? (s : Store) (r : Ref) : Option Node := r.bind fun n => s.nodes[n]?

def data? (s : Store) (r : Ref) : Option NodeData := (s.get? r).map (·.data)

def kind? (s : Store) (r : Ref) : Option NodeKind := (s.data? r).map NodeData.kind

/-- The node that holds `r`, as far as its link says. -/
def parent (s : Store) (r : Ref) : Ref := (s.get? r).bind (·.parent)

def children (s : Store) (r : Ref) : List Ref := ((s.data? r).map NodeData.children).getD []

def identifier? (s : Store) (r : Ref) : Option Identifier := (s.data? r).bind NodeData.identifier?

def literal? (s : Store) (r : Ref) : Option Literal := (s.data? r).bind NodeData.literal?

def class? (s : Store) (r : Ref) : Option ClassDeclaration := (s.data? r).bind NodeData.class?

def method? (s : Store) (r : Ref) : Option MethodDeclaration := (s.data? r).bind NodeData.method?

def block? (s : Store) (r : Ref) : Option Block := (s.data? r).bind NodeData.block?

def declarations? (s : Store) (r : Ref) : Option VariableDeclarations :=
  (s.data? r).bind NodeData.declarations?

def namedVariable? (s : Store) (r : Ref) : Option NamedVariable :=
  (s.data? r).bind NodeData.namedVariable?

def invocation? (s : Store) (r : Ref) : Option MethodInvocation :=
  (s.data? r).bind NodeData.invocation?

def annotationUse? (s : Store) (r : Ref) : Option AnnotationUse :=
  (s.data? r).bind NodeData.annotationUse?

/-- The text of an identifier. -/
def identifierText? (s : Store) (r : Ref) : Option String := (s.identifier? r).map (·.name)

/-- The value of a string literal. -/
def stringLiteral? (s : Store) (r : Ref) : Option String :=
  (s.literal? r).bind (·.value.string?)

/-- The annotations of a declaration. -/
def annotations (s : Store) (r : Ref) : List Ref :=
  ((s.data? r).map NodeData.annotations).getD []

/-- The type of an expression; an invocation has the return type of its method. -/
def expressionType (s : Store) (types : TypeTable) (r : Ref) : Option TypeId :=
  match s.data? r with
  | some (.methodInvocation call) => call.type.bind fun id => (types.methodAt? id).bind (·.returns)
  | some d => d.ownType
  | none => none

/-- The variable entry that an identifier or a field access names. -/
def referencedVariable (s : Store) (r : Ref) : Option TypeId :=
  match s.data? r with
  | some (.identifier d) => d.variableType
  | some (.fieldAccess d) => (s.identifier? d.name).bind (·.variableType)
  | _ => none

/-! ## Changing a store -/

/-- Change the node at `r`, if there is one. -/
def modify (s : Store) (r : Ref) (f : Node → Node) : Store :=
  match r with
  | some n => { nodes := s.nodes.modify n f }
  | none => s

def setParent (s : Store) (r parent : Ref) : Store := s.modify r fun node => { node with parent }

def updateData (s : Store) (r : Ref) (f : NodeData → NodeData) : Store :=
  s.modify r fun node => { node with data := f node.data }

/-- Link each of `children` to `holder`. -/
def adopt (s : Store) (holder : NodeId) (children : List Ref) : Store :=
  children.foldl (fun s r => s.setParent r (some holder)) s

/-- Add a node that nothing holds yet, and link its children to it. -/
def add (s : Store) (data : NodeData) : NodeId × Store :=
  (s.size, { nodes := (s.adopt s.size data.children).nodes.push { parent := none, data } })

/-- Put `new` in the place of `old` among the children of `parent`. The new child is linked to its
holder; the old one loses its link, unless `new` has taken it in. There is no result when `new` does
not exist or `old` is not in a slot of `parent`. -/
def replaceChild (s : Store) (parent old new : Ref) : Option Store :=
  match s.get? new, (s.data? parent).bind (·.replaceChild old new) with
  | some _, some data =>
    let s := (s.updateData parent fun _ => data).setParent new parent
    some (if s.get? old |>.any (·.parent = parent) then s.setParent old none else s)
  | _, _ => none

/-- Forget all links and draw them afresh from the child slots; of several holders the last
counts. -/
def relink (s : Store) : Store :=
  (List.range s.size).foldl (fun t n => t.adopt n (s.children (some n)))
    { nodes := s.nodes.map fun node => { node with parent := none } }

/-! ## What a change leaves

Every operation is told by what it does to `get?`, or to `data?` and `parent` apart. -/

theorem get?_modify (s : Store) (r r' : Ref) (f : Node → Node) :
    (s.modify r f).get? r' = if r' = r then (s.get? r').map f else s.get? r' := by
  cases r with
  | none => cases r' <;> simp [modify, get?]
  | some n =>
    cases r' with
    | none => simp [modify, get?]
    | some m =>
      by_cases h : m = n
      · simp [modify, get?, Array.getElem?_modify, h]
      · simp [modify, get?, Array.getElem?_modify, h, Ne.symm h]

@[simp]
theorem size_modify (s : Store) (r : Ref) (f : Node → Node) : (s.modify r f).size = s.size := by
  cases r <;> simp [modify, size]

@[simp]
theorem size_setParent (s : Store) (r p : Ref) : (s.setParent r p).size = s.size :=
  size_modify s r _

@[simp]
theorem size_updateData (s : Store) (r : Ref) (f : NodeData → NodeData) :
    (s.updateData r f).size = s.size :=
  size_modify s r _

@[simp]
theorem data?_setParent (s : Store) (r p r' : Ref) : (s.setParent r p).data? r' = s.data? r' := by
  unfold setParent data?
  rw [get?_modify]
  split
  · simp [Option.map_map, Function.comp_def]
  · rfl

theorem parent_setParent (s : Store) (r p r' : Ref) :
    (s.setParent r p).parent r' =
      if r' = r ∧ (s.get? r').isSome then p else s.parent r' := by
  unfold setParent parent
  rw [get?_modify]
  by_cases h : r' = r
  · cases hg : s.get? r' <;> simp [h]
  · simp [h]

theorem data?_updateData (s : Store) (r r' : Ref) (f : NodeData → NodeData) :
    (s.updateData r f).data? r' = if r' = r then (s.data? r').map f else s.data? r' := by
  unfold updateData data?
  rw [get?_modify]
  split
  · simp [Option.map_map, Function.comp_def]
  · rfl

@[simp]
theorem parent_updateData (s : Store) (r r' : Ref) (f : NodeData → NodeData) :
    (s.updateData r f).parent r' = s.parent r' := by
  unfold updateData parent
  rw [get?_modify]
  split
  · cases s.get? r' <;> rfl
  · rfl

@[simp]
theorem data?_adopt (s : Store) (holder : NodeId) (children : List Ref) (r : Ref) :
    (s.adopt holder children).data? r = s.data? r := by
  unfold adopt
  induction children generalizing s with
  | nil => rfl
  | cons c cs ih => rw [List.foldl_cons, ih, data?_setParent]

@[simp]
theorem size_adopt (s : Store) (holder : NodeId) (children : List Ref) :
    (s.adopt holder children).size = s.size := by
  unfold adopt
  induction children generalizing s with
  | nil => rfl
  | cons c cs ih => rw [List.foldl_cons, ih, size_setParent]

theorem data?_add (s : Store) (data : NodeData) (r : Ref) :
    (s.add data).2.data? r = if r = some s.size then some data else s.data? r := by
  cases r with
  | none => simp [data?, get?]
  | some n =>
    rw [← data?_adopt s s.size data.children (some n)]
    have hsize : (s.adopt s.size data.children).nodes.size = s.size := size_adopt s _ _
    by_cases h : n = s.size
    · simp [add, data?, get?, Array.getElem?_push, hsize, h]
    · simp [add, data?, get?, Array.getElem?_push, hsize, h]

@[simp]
theorem size_add (s : Store) (data : NodeData) : (s.add data).2.size = s.size + 1 := by
  have h : (s.adopt s.size data.children).nodes.size = s.size := size_adopt s _ _
  simp [add, size] at h ⊢
  exact h

/-! ## Traversal -/

/-- How many references a traversal from `r` takes off its work list, when it goes at most `depth`
levels down. -/
def visits (s : Store) : Nat → Ref → Nat
  | 0, _ => 1
  | depth + 1, r => 1 + (s.children r).foldr (fun child n => s.visits depth child + n) 0

/-- Take references off a work list, and put the children of each node in its place. The first
argument bounds the number of references taken. -/
def traverse (s : Store) : Nat → List Ref → List NodeId
  | 0, _ => []
  | _, [] => []
  | fuel + 1, r :: rest =>
    match r, s.data? r with
    | some n, some data => n :: s.traverse fuel (data.children ++ rest)
    | _, _ => s.traverse fuel rest

/-- The nodes under `root`, each before its children and the children in source order. In a store
without cycles no path is longer than the store, so the bound is never felt. -/
def descendants (s : Store) (root : Ref) : List NodeId :=
  s.traverse (s.visits (s.size + 1) root) [root]

end Store

end JavaRecipes
