import JavaRecipes.Edit.Validate
import JavaRecipes.Tree.Draft

/-!
Applying an edit set to a copy of its file: all of it, or nothing.
-/

namespace JavaRecipes

namespace TypeTable

/-- The method entry of a signature; its types are interned first. -/
def internSignature (t : TypeTable) (m : MethodSignature) : TypeId × TypeTable :=
  let (declaring, t) := t.internClass m.declaring none
  let (returns, t) := match m.returns with
    | none => (none, t)
    | some name => let (id, t) := t.internName name; (some id, t)
  let (params, t) := t.internNames m.params
  t.internMethod { declaring, name := m.name, returns, params }

end TypeTable

namespace Draft

/-- The type of a name, if there is one. -/
def typeNamed? (d : Draft) : Option String → Option TypeId × Draft
  | none => (none, d)
  | some name =>
    let (id, types) := d.types.internName name
    (some id, { d with types })

mutual

/-- Build a snippet; a node of the file stands for itself. -/
def materialize (d : Draft) : Snippet → Ref × Draft
  | .existing r => (r, d)
  | .stringLiteral value =>
    let (n, d) := d.stringLiteral value
    (some n, d)
  | .typeName name =>
    let (type, d) := d.classType name
    let (n, d) := d.typeRef type
    (some n, d)
  | .staticField target owner name fieldType =>
    let (target, d) := d.materialize target
    let (owner, d) := d.classType owner
    let (type, d) := d.typeNamed? fieldType
    let (variableType, d) := d.variableType { name, owner := some owner, type }
    let (nameNode, d) := d.add (.identifier { name, type, variableType := some variableType })
    let (n, d) := d.add (.fieldAccess { target, name := some nameNode, type })
    (some n, d)
  | .invocation select signature arguments =>
    let (select, d) := d.materializeOption select
    let (arguments, d) := d.materializeList arguments
    let (method, types) := d.types.internSignature signature
    let d := { d with types }
    let (name, d) := d.identifier signature.name ((d.types.methodAt? method).bind (·.returns))
    let (n, d) := d.add (.methodInvocation {
      select, name := some name, arguments, type := some method })
    (some n, d)

def materializeOption (d : Draft) : Option Snippet → Ref × Draft
  | none => (none, d)
  | some s => d.materialize s

def materializeList (d : Draft) : List Snippet → List Ref × Draft
  | [] => ([], d)
  | s :: ss =>
    let (r, d) := d.materialize s
    let (rs, d) := d.materializeList ss
    (r :: rs, d)

end

end Draft

namespace NodeData

def setLiteral (value : LiteralValue) : NodeData → NodeData
  | .literal d => .literal { d with value }
  | d => d

def renameIdentifier (name : String) : NodeData → NodeData
  | .identifier d => .identifier { d with name }
  | d => d

def retypeInvocation (method : TypeId) : NodeData → NodeData
  | .methodInvocation d => .methodInvocation { d with type := some method }
  | d => d

/-- The modifiers of other kinds. -/
def keptModifiers (kind : ModifierKind) (ms : List Modifier) : List Modifier :=
  ms.filter (·.kind ≠ kind)

/-- The comments of the modifiers of a kind. -/
def freedComments (kind : ModifierKind) (ms : List Modifier) : List String :=
  (ms.filter (·.kind = kind)).flatMap (·.comments)

/-- Drop the modifiers of a kind; a method keeps their comments after its own. -/
def removeModifier (kind : ModifierKind) : NodeData → NodeData
  | .classDeclaration d => .classDeclaration { d with modifiers := keptModifiers kind d.modifiers }
  | .methodDeclaration d =>
    .methodDeclaration { d with
      modifiers := keptModifiers kind d.modifiers
      comments := d.comments ++ freedComments kind d.modifiers }
  | .variableDeclarations d =>
    .variableDeclarations { d with modifiers := keptModifiers kind d.modifiers }
  | d => d

end NodeData

namespace Draft

def updateData (d : Draft) (r : Ref) (f : NodeData → NodeData) : Draft :=
  { d with store := d.store.updateData r f }

/-- Make one edit. -/
def applyEdit (d : Draft) : Edit → Except EditError Draft
  | .setLiteral r value => .ok (d.updateData r (.setLiteral value))
  | .replaceExpression r snippet =>
    match d.store.parent r with
    | none => .error (.detached r)
    | some parent =>
      let (replacement, d) := d.materialize snippet
      match d.store.replaceChild (some parent) r replacement with
      | none => .error (.detached r)
      | some store => .ok { d with store }
  | .renameIdentifier r name => .ok (d.updateData r (.renameIdentifier name))
  | .removeModifier r kind => .ok (d.updateData r (.removeModifier kind))
  | .renameClassType source target =>
    .ok { d with types := (d.types.renameClass source target).getD d.types }
  | .renameMethodType id name =>
    match d.types.renameMethod id name with
    | none => .error (.missingType id)
    | some types => .ok { d with types }
  | .retypeInvocation r signature =>
    let (method, types) := d.types.internSignature signature
    .ok ({ d with types }.updateData r (.retypeInvocation method))

/-- Make edits one after another, up to the first that fails. -/
def applyEdits (d : Draft) : List Edit → Except EditError Draft
  | [] => .ok d
  | e :: es =>
    match d.applyEdit e with
    | .error error => .error error
    | .ok d => d.applyEdits es

end Draft

/-- The file with all edits of the set made. -/
def EditSet.apply (s : EditSet) (file : SourceFile) : Except EditError SourceFile :=
  match s.fault? file with
  | some error => .error error
  | none =>
    match Draft.applyEdits { store := file.store, types := file.types } s.edits with
    | .error error => .error error
    | .ok d => .ok { file with store := d.store, types := d.types }

end JavaRecipes
