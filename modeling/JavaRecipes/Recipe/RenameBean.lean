import JavaRecipes.Recipe.Basic
import JavaRecipes.Recipe.Bean

/-!
Renaming a Spring bean. Whatever gave the bean its old name is changed, and with it every qualifier
of a parameter or field that refers to the bean by name and type. A name that comes from the
declaration is changed by renaming the declaration: a factory method with its calls, a class
everywhere in the batch together with the class named after it with `Test` at the end.

A first pass over the whole batch finds the beans; then each file gets its edits, all of them
planned on the files as they were.
-/

namespace JavaRecipes

structure RenameBean where
  /-- Only beans of this type are renamed. -/
  typeFilter : Option String
  oldName : String
  newName : String
  deriving DecidableEq, Repr

/-- A method told by names, so that it can be found in every file. -/
structure MethodKey where
  declaring : String
  name : String
  params : List String
  deriving DecidableEq, Repr

/-- The key of a method entry; there is none when one of its types has no name. -/
def TypeTable.methodKey? (types : TypeTable) (id : TypeId) : Option MethodKey := do
  let m ← types.methodAt? id
  let declaring ← types.name? m.declaring
  let params ← m.params.mapM types.name?
  some { declaring, name := m.name, params }

/-- A class to be renamed in the whole batch. -/
structure ClassRename where
  source : String
  target : String
  deriving DecidableEq, Repr

namespace ClassRename

/-- Give a class another simple name. -/
def ofSimple (source simple : String) : ClassRename :=
  { source, target := ClassName.qualifier source ++ simple }

def oldSimple (c : ClassRename) : String := ClassName.simple c.source

def newSimple (c : ClassRename) : String := ClassName.simple c.target

end ClassRename

/-- A bean that has the old name. -/
structure FoundBean where
  /-- Position of its file in the batch. -/
  file : Nat
  bean : Bean
  typeName : String
  source : NameSource
  /-- The key of a factory method. -/
  key : Option MethodKey
  deriving DecidableEq, Repr

/-- What the first pass found. -/
structure RenamePlan where
  beans : List FoundBean
  /-- Factory methods to be renamed. -/
  methods : List MethodKey
  classes : List ClassRename
  /-- The types that a qualifier must be used with. -/
  linkedTypes : List String
  deriving DecidableEq, Repr

/-- The elements without repetitions, in the order of their first occurrences. -/
def distinct {α : Type} [DecidableEq α] (xs : List α) : List α :=
  xs.foldl (fun acc x => if x ∈ acc then acc else acc ++ [x]) []

namespace Store

/-- Parameters of methods and fields of classes; a local never refers to a bean. -/
def isParameterOrField (s : Store) (declaration : Ref) : Bool :=
  match s.data? (s.parent declaration) with
  | some (.methodDeclaration d) => d.parameters.contains declaration
  | some (.block _) => s.isClassBody (s.parent declaration)
  | _ => false

end Store

namespace RenameBean

def label : String := "renameBean"

/-- Both names are needed; an empty filter is none. -/
def make (typeFilter : Option String) (oldName newName : String) : Except RecipeError RenameBean :=
  if oldName.isEmpty then .error (.missingArgument label "oldName")
  else if newName.isEmpty then .error (.missingArgument label "newName")
  else .ok { typeFilter := typeFilter.filter (!·.isEmpty), oldName, newName }

def passesFilter (r : RenameBean) (typeName : String) : Bool :=
  match r.typeFilter with
  | none => true
  | some filter => filter == typeName

/-! ## Finding the beans -/

/-- The bean at a node, if it passes the filter and has the old name. -/
def foundBean? (r : RenameBean) (index : Nat) (file : SourceFile) (n : NodeId) :
    Option FoundBean := do
  let bean ← file.store.bean? file.types n
  let type ← file.store.beanType bean
  let typeName ← file.types.name? type
  let source ← file.store.nameSource file.types bean
  if r.passesFilter typeName && source.names.contains r.oldName then
    some {
      file := index, bean, typeName, source
      key := ((file.store.method? (some n)).bind (·.type)).bind file.types.methodKey? }
  else none

def beansOf (r : RenameBean) (index : Nat) (file : SourceFile) : List FoundBean :=
  file.nodes.filterMap (r.foundBean? index file)

def findBeans (r : RenameBean) (batch : Batch) : List FoundBean :=
  batch.zipIdx.flatMap fun (file, index) => r.beansOf index file

/-- The factory method a bean renames. -/
def methodOf? (b : FoundBean) : Option MethodKey :=
  if b.source.isImplicit && b.bean.kind = .factoryMethod then b.key else none

/-- The classes a bean renames: its own and the one that tests it. -/
def classesOf (r : RenameBean) (b : FoundBean) : List ClassRename :=
  if b.source.isImplicit && b.bean.kind = .stereotype then
    let simple := Text.capitalize r.newName
    [.ofSimple b.typeName simple, .ofSimple (b.typeName ++ "Test") (simple ++ "Test")]
  else []

def plan (r : RenameBean) (batch : Batch) : RenamePlan :=
  let beans := r.findBeans batch
  {
    beans
    methods := beans.filterMap methodOf?
    classes := distinct (beans.flatMap r.classesOf)
    linkedTypes := match r.typeFilter with
      | some filter => [filter]
      | none => beans.map (·.typeName) }

/-! ## The edits of a file -/

/-- Change a value that is the old name. -/
def slotEdits (r : RenameBean) (slot : NamedSlot) : List Edit :=
  if slot.name = some r.oldName then
    if slot.aliased then [.replaceExpression slot.slot.node (.stringLiteral r.newName)]
    else [.setLiteral slot.slot.node (.string r.newName)]
  else []

/-- Change what names a bean in its own file. A class is renamed with all its uses. -/
def beanEdits (r : RenameBean) (file : SourceFile) (b : FoundBean) : List Edit :=
  match b.source, b.bean.kind with
  | .explicit slots, _ => slots.flatMap r.slotEdits
  | .implicit _, .stereotype => []
  | .implicit _, .factoryMethod =>
    match file.store.method? (some b.bean.node) with
    | none => []
    | some d =>
      .renameIdentifier d.name r.newName ::
        (d.type.map fun id => .renameMethodType id r.newName).toList

/-- The renamed classes that a file knows, with their entries. -/
def classIds (plan : RenamePlan) (file : SourceFile) : List (TypeId × ClassRename) :=
  plan.classes.filterMap fun c => (file.types.lookupClass c.source).map fun id => (id, c)

/-- Change the call of a renamed factory method. -/
def callEdits (r : RenameBean) (plan : RenamePlan) (file : SourceFile) (d : MethodInvocation) :
    List Edit :=
  match d.type with
  | none => []
  | some id =>
    if (file.types.methodKey? id).any plan.methods.contains then
      [.renameIdentifier d.name r.newName, .renameMethodType id r.newName]
    else []

/-- Change an identifier that spells a renamed class. -/
def identifierEdits (ids : List (TypeId × ClassRename)) (n : NodeId) (d : Identifier) : List Edit :=
  if d.variableType.isSome then []
  else
    match ids.find? fun (id, c) => d.type = some id && c.oldSimple = d.name with
    | some (_, c) => [.renameIdentifier (some n) c.newSimple]
    | none => []

/-- Change the constructors of a renamed class, which spell its name but have no type. -/
def constructorEdits (ids : List (TypeId × ClassRename)) (s : Store) (d : ClassDeclaration) :
    List Edit :=
  match ids.find? fun (id, _) => d.type = some id with
  | none => []
  | some (_, c) =>
    (((s.block? d.body).map (·.statements)).getD []).filterMap fun member =>
      (s.method? member).bind fun m =>
        if m.returnType.isNone && s.identifierText? m.name = some c.oldSimple then
          some (.renameIdentifier m.name c.newSimple)
        else none

/-- Change the qualifier of a parameter or field that refers to the bean. -/
def referenceEdits (r : RenameBean) (plan : RenamePlan) (file : SourceFile) (n : NodeId)
    (d : VariableDeclarations) : List Edit :=
  if file.store.isParameterOrField (some n) &&
      ((file.store.typeOf d.typeExpr).bind file.types.name?).any plan.linkedTypes.contains then
    (file.store.qualifierSlots file.types d.annotations).flatMap r.slotEdits
  else []

/-- Change a node that refers to something renamed. -/
def nodeEdits (r : RenameBean) (plan : RenamePlan) (file : SourceFile) (n : NodeId) : List Edit :=
  match file.store.data? (some n) with
  | some (.methodInvocation d) => r.callEdits plan file d
  | some (.identifier d) => identifierEdits (classIds plan file) n d
  | some (.classDeclaration d) => constructorEdits (classIds plan file) file.store d
  | some (.variableDeclarations d) => r.referenceEdits plan file n d
  | _ => []

/-- All edits of a file: of its beans, of the class names in its type table, and of its nodes. -/
def fileEdits (r : RenameBean) (plan : RenamePlan) (index : Nat) (file : SourceFile) : List Edit :=
  (plan.beans.filter (·.file == index)).flatMap (r.beanEdits file) ++
    (classIds plan file).map (fun (_, c) => .renameClassType c.source c.target) ++
    file.nodes.flatMap (r.nodeEdits plan file)

def run (r : RenameBean) (batch : Batch) : Except RecipeError (List FileChange) :=
  let plan := r.plan batch
  changeFiles (fun index file => .ofList (r.fileEdits plan index file)) batch

end RenameBean

end JavaRecipes
