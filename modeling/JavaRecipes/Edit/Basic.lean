import JavaRecipes.Tree.SourceFile

/-!
Edits: changes of one file, described before any is made. Nodes are named by their positions in the
file as it was, new expressions by snippets.
-/

namespace JavaRecipes

/-- A method spelled with type names: qualified class names or primitive keywords. -/
structure MethodSignature where
  declaring : String
  name : String
  returns : Option String
  params : List String
  deriving DecidableEq, Repr

/-- An expression to put into a file. -/
inductive Snippet where
  /-- A node of the file itself. -/
  | existing (r : Ref)
  | stringLiteral (value : String)
  /-- A type used as an expression. -/
  | typeName (name : String)
  /-- A field of a class, written after `target`. -/
  | staticField (target : Snippet) (owner name : String) (fieldType : Option String)
  | invocation (select : Option Snippet) (signature : MethodSignature) (arguments : List Snippet)
  deriving Repr

namespace Snippet

mutual

def beq : Snippet → Snippet → Bool
  | .existing r, .existing r' => r == r'
  | .stringLiteral v, .stringLiteral v' => v == v'
  | .typeName n, .typeName n' => n == n'
  | .staticField t o n f, .staticField t' o' n' f' => beq t t' && o == o' && n == n' && f == f'
  | .invocation s m as, .invocation s' m' as' => beqOption s s' && m == m' && beqList as as'
  | _, _ => false

def beqOption : Option Snippet → Option Snippet → Bool
  | none, none => true
  | some a, some b => beq a b
  | _, _ => false

def beqList : List Snippet → List Snippet → Bool
  | [], [] => true
  | a :: as, b :: bs => beq a b && beqList as bs
  | _, _ => false

end

mutual

theorem beq_iff (a b : Snippet) : beq a b = true ↔ a = b := by
  cases a with
  | existing r => cases b <;> simp [beq]
  | stringLiteral v => cases b <;> simp [beq]
  | typeName n => cases b <;> simp [beq]
  | staticField t o n f => cases b <;> simp [beq, beq_iff t, and_assoc]
  | invocation s m as => cases b <;> simp [beq, beqOption_iff s, beqList_iff as, and_assoc]

theorem beqOption_iff (a b : Option Snippet) : beqOption a b = true ↔ a = b := by
  cases a with
  | none => cases b <;> simp [beqOption]
  | some s => cases b <;> simp [beqOption, beq_iff s]

theorem beqList_iff (as bs : List Snippet) : beqList as bs = true ↔ as = bs := by
  cases as with
  | nil => cases bs <;> simp [beqList]
  | cons a as => cases bs <;> simp [beqList, beq_iff a, beqList_iff as]

end

instance : DecidableEq Snippet := fun a b => decidable_of_iff _ (beq_iff a b)

mutual

/-- The nodes of the file that a snippet uses, from left to right. -/
def existingNodes : Snippet → List Ref
  | .existing r => [r]
  | .stringLiteral _ => []
  | .typeName _ => []
  | .staticField target _ _ _ => existingNodes target
  | .invocation select _ arguments => existingNodesOption select ++ existingNodesList arguments

def existingNodesOption : Option Snippet → List Ref
  | none => []
  | some s => existingNodes s

def existingNodesList : List Snippet → List Ref
  | [] => []
  | s :: ss => existingNodes s ++ existingNodesList ss

end

end Snippet

inductive Edit where
  | setLiteral (literal : Ref) (value : LiteralValue)
  | replaceExpression (target : Ref) (snippet : Snippet)
  | renameIdentifier (identifier : Ref) (name : String)
  /-- Drop a modifier; its comments stay with a method. -/
  | removeModifier (declaration : Ref) (modifier : ModifierKind)
  /-- Rename a class in the type table. -/
  | renameClassType (source target : String)
  /-- Rename a method entry; its types stay. -/
  | renameMethodType (method : TypeId) (name : String)
  /-- Point an invocation at another method. -/
  | retypeInvocation (invocation : Ref) (signature : MethodSignature)
  deriving DecidableEq, Repr

/-- The node an edit changes, if it is about a node. -/
def Edit.target? : Edit → Option Ref
  | .setLiteral r _ => some r
  | .replaceExpression r _ => some r
  | .renameIdentifier r _ => some r
  | .removeModifier r _ => some r
  | .retypeInvocation r _ => some r
  | .renameClassType _ _ => none
  | .renameMethodType _ _ => none

/-- What an edit needs its node to be. -/
inductive NodeRole where
  | literal | identifier | declaration | invocation
  deriving DecidableEq, Repr

def NodeRole.phrase : NodeRole → String
  | .literal => "a literal"
  | .identifier => "an identifier"
  | .declaration => "a declaration"
  | .invocation => "a method invocation"

def NodeRole.admits : NodeRole → NodeKind → Bool
  | .literal, kind => kind = .literal
  | .identifier, kind => kind = .identifier
  | .declaration, kind =>
    kind = .classDeclaration || kind = .methodDeclaration || kind = .variableDeclarations
  | .invocation, kind => kind = .methodInvocation

inductive EditError where
  | missingNode (r : Ref)
  | unexpectedKind (node : Ref) (expected : NodeRole) (found : NodeKind)
  /-- There is no holder to put a replacement into. -/
  | detached (r : Ref)
  /-- Two edits change one node. -/
  | conflict (r : Ref)
  | missingType (id : TypeId)
  /-- A class would take the name of another one. -/
  | typeNameTaken (name : String)
  deriving DecidableEq, Repr

def EditError.message : EditError → String
  | .missingNode r => s!"edit targets missing node {Ref.code r}"
  | .unexpectedKind r expected found =>
    s!"edit expected {expected.phrase} at node {Ref.code r} but found {found.label}"
  | .detached r => s!"cannot replace node {Ref.code r} without a parent"
  | .conflict r => s!"conflicting edits for node {Ref.code r}"
  | .missingType id => s!"edit targets missing type {id}"
  | .typeNameTaken name => s!"cannot rename a class to `{name}`, which already exists"

/-- The edits of one file in order, each once. -/
structure EditSet where
  edits : List Edit := []
  deriving DecidableEq, Repr

namespace EditSet

def empty : EditSet := {}

def size (s : EditSet) : Nat := s.edits.length

def isEmpty (s : EditSet) : Bool := s.edits.isEmpty

/-- Add an edit at the end, unless it is there already. -/
def push (s : EditSet) (e : Edit) : EditSet :=
  if e ∈ s.edits then s else { edits := s.edits ++ [e] }

/-- Add several edits in order. -/
def pushAll (s : EditSet) (es : List Edit) : EditSet := es.foldl push s

def ofList (es : List Edit) : EditSet := empty.pushAll es

theorem push_nodup {s : EditSet} (h : s.edits.Nodup) (e : Edit) : (s.push e).edits.Nodup := by
  unfold push
  split
  · exact h
  · rename_i hn
    refine List.nodup_append.2 ⟨h, by simp, ?_⟩
    intro a ha b hb
    simp only [List.mem_singleton] at hb
    subst hb
    exact fun hab => hn (hab ▸ ha)

theorem mem_push {s : EditSet} {e x : Edit} : x ∈ (s.push e).edits ↔ x ∈ s.edits ∨ x = e := by
  unfold push
  split
  · rename_i he
    exact ⟨Or.inl, fun h => h.elim id (fun h => h ▸ he)⟩
  · simp

end EditSet

end JavaRecipes
