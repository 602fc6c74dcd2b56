import JavaRecipes.Proofs.Tree.Built

/-!
Programs that build trees. Whatever a program does, to the store it adds one node after the other;
and where each of them holds only nodes that were there before it, however often, the links made on
the way are those that would be drawn afresh in the end, and every node stands before its holders
(`links_addAll`).
-/

namespace JavaRecipes

namespace Store

/-- Add nodes one after the other. -/
def addAll (s : Store) (payloads : List NodeData) : Store :=
  payloads.foldl (fun s data => (s.add data).2) s

/-- Payloads that are added from the position `start` on hold only nodes before them. -/
def Grounded (start : Nat) : List NodeData → Prop
  | [] => True
  | data :: rest => (∀ n, some n ∈ data.children → n < start) ∧ Grounded (start + 1) rest

/-- The links are as if they were drawn afresh, and every node stands before those that hold it. -/
structure Upright (s : Store) : Prop where
  relinked : s.relink = s
  before : ∀ {n m}, s.Holds n m → m < n

variable {s : Store}

theorem Upright.closed (hs : s.Upright) : s.Closed :=
  fun _ _ hh => (hs.before hh).trans (holds_lt_size hh)

/-- A step keeps the links right: the new node is the last holder of all its children, of any other
node it is none. -/
theorem Upright.add (hs : s.Upright) {data : NodeData}
    (hdata : ∀ n, some n ∈ data.children → n < s.size) :
    (s.add data).2.Upright where
  relinked := relink_add hs.relinked hs.closed hdata
  before hh := by
    rcases holds_add.1 hh with ⟨rfl, hmem⟩ | ⟨-, hh⟩
    · exact hdata _ hmem
    · exact hs.before hh

theorem Upright.addAll {payloads : List NodeData} (hs : s.Upright) (h : Grounded s.size payloads) :
    (s.addAll payloads).Upright := by
  induction payloads generalizing s with
  | nil => exact hs
  | cons data rest ih => exact ih (hs.add h.1) (by simpa using h.2)

theorem upright_empty : empty.Upright where
  relinked := relink_eq_self_iff.2 fun m hm => absurd hm (Nat.not_lt_zero m)
  before hh := absurd (holds_lt_size hh) (Nat.not_lt_zero _)

theorem addAll_append (s : Store) (payloads payloads' : List NodeData) :
    s.addAll (payloads ++ payloads') = (s.addAll payloads).addAll payloads' :=
  List.foldl_append

theorem data?_addAll_old (payloads : List NodeData) {n : NodeId} (hn : n < s.size) :
    (s.addAll payloads).data? (some n) = s.data? (some n) := by
  induction payloads generalizing s with
  | nil => rfl
  | cons data rest ih =>
    have hlt : n < (s.add data).2.size := by
      rw [size_add]
      exact Nat.lt_succ_of_lt hn
    have hne : (some n : Ref) ≠ some s.size := fun heq => hn.ne (Option.some.inj heq)
    rw [addAll, List.foldl_cons, ← addAll, ih hlt, data?_add, if_neg hne]

/-- Payloads in whose store every node stands before its holders were added in such an order. -/
theorem grounded_of_before {payloads : List NodeData}
    (h : ∀ n m, (s.addAll payloads).Holds n m → m < n) :
    Grounded s.size payloads := by
  induction payloads generalizing s with
  | nil => trivial
  | cons data rest ih =>
    refine ⟨fun n hn => h s.size n ?_, by simpa using ih (s := (s.add data).2) h⟩
    have hdata : (s.addAll (data :: rest)).data? (some s.size) = some data := by
      rw [addAll, List.foldl_cons, ← addAll, data?_addAll_old rest (by simp), data?_add, if_pos rfl]
    exact (holds_iff hdata).2 hn

/-- The second store is the first one with nodes added. -/
def AddsTo (s t : Store) : Prop := ∃ payloads, t = s.addAll payloads

namespace AddsTo

variable {t u : Store}

theorem refl (s : Store) : s.AddsTo s := ⟨[], rfl⟩

theorem add (s : Store) (data : NodeData) : s.AddsTo (s.add data).2 := ⟨[data], rfl⟩

theorem trans : s.AddsTo t → t.AddsTo u → s.AddsTo u := by
  rintro ⟨payloads, rfl⟩ ⟨payloads', rfl⟩
  exact ⟨payloads ++ payloads', (addAll_append _ _ _).symm⟩

theorem push (h : s.AddsTo t) (data : NodeData) : s.AddsTo (t.add data).2 := h.trans (.add t data)

end AddsTo

end Store

namespace Draft

open Store (AddsTo Grounded)

/-! ## Steps and programs -/

/-- What a program can do to a draft, with all it says about it. -/
inductive Step where
  | classType (name : String) (owner : Option TypeId)
  | primitive (p : Primitive)
  | methodType (m : MethodType)
  | variableType (v : VariableType)
  | identifier (name : String) (type : Option TypeId)
  | typeRef (type : TypeId)
  | variableRef (variableType : TypeId)
  | fieldAccess (target : Ref) (variableType : TypeId)
  | literal (value : LiteralValue)
  | newClass (type : TypeId) (arguments : List Ref)
  | invoke (select : Ref) (method : TypeId) (arguments : List Ref)
  | newArray (elements : List Ref)
  | assignment (name : String) (value : Ref)
  | binary (left : Ref) (operator : BinaryOperator) (right : Ref)
  | lambda (parameters : List Ref) (body : Ref) (type : Option TypeId)
  | annotationUse (name : String) (arguments : List Ref)
  | annotationWithValue (name value : String)
  | block (statements : List Ref)
  | returnStatement (expression : Ref)
  | forLoop (loop : ForLoop)
  | tryStatement (resources : List Ref) (body cleanup : Ref)
  | declaration (annotations : List Ref) (modifiers : List Modifier) (type : Option TypeId)
    (vs : List NewVariable)
  | method (m : NewMethod)
  | classDeclaration (c : NewClassDeclaration)
  | add (data : NodeData)
  deriving DecidableEq, Repr

namespace Step

def run (d : Draft) : Step → Draft
  | .classType name owner => (d.classType name owner).2
  | .primitive p => (d.primitive p).2
  | .methodType m => (d.methodType m).2
  | .variableType v => (d.variableType v).2
  | .identifier name type => (d.identifier name type).2
  | .typeRef type => (d.typeRef type).2
  | .variableRef v => (d.variableRef v).2
  | .fieldAccess target v => (d.fieldAccess target v).2
  | .literal value => (d.literal value).2
  | .newClass type arguments => (d.newClass type arguments).2
  | .invoke select m arguments => (d.invoke select m arguments).2
  | .newArray elements => (d.newArray elements).2
  | .assignment name value => (d.assignment name value).2
  | .binary left operator right => (d.binary left operator right).2
  | .lambda parameters body type => (d.lambda parameters body type).2
  | .annotationUse name arguments => (d.annotationUse name arguments).2
  | .annotationWithValue name value => (d.annotationWithValue name value).2
  | .block statements => (d.block statements).2
  | .returnStatement expression => (d.returnStatement expression).2
  | .forLoop loop => (d.forLoop loop).2
  | .tryStatement resources body cleanup => (d.tryStatement resources body cleanup).2
  | .declaration annotations modifiers type vs => (d.declaration annotations modifiers type vs).2.2
  | .method m => (d.method m).2
  | .classDeclaration c => (d.classDeclaration c).2
  | .add data => (d.add data).2

/-- The nodes that a step names. -/
def named : Step → List Ref
  | .fieldAccess target _ => [target]
  | .newClass _ arguments => arguments
  | .invoke select _ arguments => select :: arguments
  | .newArray elements => elements
  | .assignment _ value => [value]
  | .binary left _ right => [left, right]
  | .lambda parameters body _ => parameters ++ [body]
  | .annotationUse _ arguments => arguments
  | .block statements => statements
  | .returnStatement expression => [expression]
  | .forLoop loop => loop.initial ++ loop.condition :: loop.update ++ [loop.body]
  | .tryStatement resources body cleanup => resources ++ [body, cleanup]
  | .declaration annotations _ _ vs => annotations ++ vs.map (·.initializer)
  | .method m => m.annotations ++ m.parameters ++ [m.body]
  | .classDeclaration c => c.annotations ++ c.members
  | .add data => data.children
  | _ => []

end Step

def runAll (d : Draft) (program : List Step) : Draft := program.foldl Step.run d

/-- Each step of a program names only nodes that are there when it is run. -/
def Supplies (d : Draft) : List Step → Prop
  | [] => True
  | step :: rest => d.Has step.named ∧ (step.run d).Supplies rest

/-! ## What steps add -/

theorem adds_typeRef? (d : Draft) (type : Option TypeId) :
    d.store.AddsTo (d.typeRef? type).2.store := by
  cases type with
  | none => exact .refl _
  | some type => exact .add _ _

theorem adds_declareAll (d : Draft) (type : Option TypeId) (vs : List NewVariable) :
    d.store.AddsTo (d.declareAll type vs).2.2.store := by
  induction vs generalizing d with
  | nil => exact .refl _
  | cons v vs ih => exact (((AddsTo.refl _).push _).push _).trans (ih _)

theorem store_literalType (d : Draft) (value : LiteralValue) :
    (d.literalType value).2.store = d.store := by
  cases value <;> rfl

namespace Step

/-- To the store a step only adds nodes. -/
theorem adds (step : Step) (d : Draft) : d.store.AddsTo (step.run d).store := by
  cases step with
  | classType | primitive | methodType | variableType => exact .refl _
  | fieldAccess | newClass | invoke | assignment | annotationUse => exact (AddsTo.add _ _).push _
  | literal value =>
    have hadd : (d.literalType value).2.store.AddsTo (d.literal value).2.store := .add _ _
    rw [store_literalType] at hadd
    exact hadd
  | annotationWithValue name value => exact ((AddsTo.add _ _).push _).push _
  | declaration annotations modifiers type vs =>
    exact ((adds_typeRef? d type).trans (adds_declareAll _ type vs)).push _
  | method m => exact ((adds_typeRef? d m.returns).push _).push _
  | classDeclaration c => exact ((AddsTo.add _ _).push _).push _
  | _ => exact .add _ _

/-- What a step builds from nodes that are there is built each child before its holder. -/
theorem built {d : Draft} (h : d.Built) {step : Step} (hnamed : d.Has step.named) :
    (step.run d).Built := by
  have hpart : ∀ {rs : List Ref}, (∀ r ∈ rs, r ∈ step.named) → d.Has rs :=
    fun hrs n hn => hnamed n (hrs _ hn)
  cases step with
  | classType name owner => exact h.classType name owner
  | primitive p => exact h.primitive p
  | methodType m => exact h.methodType m
  | variableType v => exact h.variableType v
  | identifier name type => exact h.identifier name type
  | typeRef type => exact h.typeRef type
  | variableRef v => exact h.variableRef v
  | fieldAccess target v => exact h.fieldAccess hnamed v
  | literal value => exact h.literal value
  | newClass type arguments => exact h.newClass type hnamed
  | invoke select m arguments =>
    exact h.invoke (hpart (by simp [named])) m (hpart (by simp +contextual [named]))
  | newArray elements => exact h.newArray hnamed
  | assignment name value => exact h.assignment name hnamed
  | binary left operator right =>
    exact h.binary (hpart (by simp [named])) operator (hpart (by simp [named]))
  | lambda parameters body type =>
    exact h.lambda (hpart (by simp +contextual [named])) (hpart (by simp [named])) type
  | annotationUse name arguments => exact h.annotationUse name hnamed
  | annotationWithValue name value => exact h.annotationWithValue name value
  | block statements => exact h.block hnamed
  | returnStatement expression => exact h.returnStatement hnamed
  | forLoop loop =>
    exact h.forLoop (hpart (by simp +contextual [named])) (hpart (by simp [named]))
      (hpart (by simp +contextual [named])) (hpart (by simp [named]))
  | tryStatement resources body cleanup =>
    exact h.tryStatement (hpart (by simp +contextual [named])) (hpart (by simp [named]))
      (hpart (by simp [named]))
  | declaration annotations modifiers type vs =>
    refine h.declaration (hpart (by simp +contextual [named])) modifiers type fun v hv => hpart ?_
    simp only [named, List.mem_singleton, List.mem_append, List.mem_map, forall_eq]
    exact .inr ⟨v, hv, rfl⟩
  | method m =>
    exact h.method (hpart (by simp +contextual [named])) (hpart (by simp +contextual [named]))
      (hpart (by simp [named]))
  | classDeclaration c =>
    exact h.classDeclaration (hpart (by simp +contextual [named]))
      (hpart (by simp +contextual [named]))
  | add data => exact h.add hnamed

end Step

theorem adds_runAll (d : Draft) (program : List Step) :
    d.store.AddsTo (d.runAll program).store := by
  induction program generalizing d with
  | nil => exact .refl _
  | cons step rest ih => exact (step.adds d).trans (ih (step.run d))

theorem Built.runAll {d : Draft} (h : d.Built) {program : List Step}
    (hprogram : d.Supplies program) :
    (d.runAll program).Built := by
  induction program generalizing d with
  | nil => exact h
  | cons step rest ih => exact ih (Step.built h hprogram.1) hprogram.2

theorem Built.upright {d : Draft} (h : d.Built) : d.store.Upright := by
  induction h with
  | empty => exact Store.upright_empty
  | add _ hdata ih => exact ih.add hdata
  | classType _ _ _ ih => exact ih
  | primitive _ _ ih => exact ih
  | methodType _ _ ih => exact ih
  | variableType _ _ ih => exact ih

/-- Nodes that are added one after the other, each after all that it holds, have the links that
would be drawn afresh: each is linked to the last of its holders, and every node stands before its
holders. A program that builds a tree adds such nodes to the store, if each of its steps names only
nodes that are there; and closing the compilation unit is one more step. -/
theorem links_addAll :
    (∀ payloads, Grounded 0 payloads →
      (Store.empty.addAll payloads).relink = Store.empty.addAll payloads ∧
        (∀ m < (Store.empty.addAll payloads).size, ∀ n,
          (Store.empty.addAll payloads).parent (some m) = some n ↔
            (Store.empty.addAll payloads).LastHolder n m) ∧
        ∀ n m, (Store.empty.addAll payloads).Holds n m → m < n) ∧
    (∀ program : List Step, ∃ payloads, (runAll {} program).store = Store.empty.addAll payloads ∧
      (Supplies {} program → Grounded 0 payloads)) ∧
    ∀ (d : Draft) path packageName imports classes,
      (d.finish path packageName imports classes).store =
        (d.runAll [.add (.compilationUnit { packageName, imports, classes })]).store := by
  refine ⟨fun payloads h => ?_, fun program => ?_, fun d path packageName imports classes => rfl⟩
  · have hupright := Store.upright_empty.addAll h
    have hrelinked := hupright.relinked
    exact ⟨hrelinked, Store.relink_eq_self_iff.1 hrelinked, fun n m hh => hupright.before hh⟩
  · obtain ⟨payloads, hstore⟩ := adds_runAll {} program
    refine ⟨payloads, hstore, fun hprogram => ?_⟩
    have hupright := (Built.empty.runAll hprogram).upright
    rw [hstore] at hupright
    exact Store.grounded_of_before fun n m hh => hupright.before hh

/-- A name that is twice in an array, and in two statements of a block with the array itself. -/
def sharingProgram : List Step :=
  [.identifier "a" none, .newArray [some 0, none, some 0], .returnStatement (some 0),
    .block [some 2, some 1, some 0]]

/-- The name is linked to the block, the last of its holders. -/
theorem links_addAll_sharingProgram :
    ∃ payloads, (runAll {} sharingProgram).store = Store.empty.addAll payloads ∧
      Grounded 0 payloads ∧
      (Store.empty.addAll payloads).relink = Store.empty.addAll payloads ∧
      (runAll {} sharingProgram).store.parent (some 0) = some 3 := by
  obtain ⟨hlinks, hprogram, -⟩ := links_addAll
  obtain ⟨payloads, hstore, hgrounded⟩ := hprogram sharingProgram
  have hsupplies : Supplies {} sharingProgram := by
    refine ⟨has_nil _, ?_, ?_, ?_, trivial⟩ <;> intro n hn
    · obtain rfl : n = 0 := by simpa [Step.named] using hn
      decide
    · obtain rfl : n = 0 := by simpa [Step.named] using hn
      decide
    · obtain rfl | rfl | rfl : n = 2 ∨ n = 1 ∨ n = 0 := by simpa [Step.named] using hn
      all_goals decide
  have hordered := hgrounded hsupplies
  exact ⟨payloads, hstore, hordered, (hlinks payloads hordered).1, by decide⟩

end Draft

end JavaRecipes
