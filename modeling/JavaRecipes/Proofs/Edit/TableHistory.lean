import JavaRecipes.Proofs.Edit.Checked
import JavaRecipes.Proofs.Types.Exact

/-!
What a type table goes through: classes, primitives, methods and variables are entered, classes
renamed, the index is built again, and edits to the file that has the table bring in and rename
types. Each such call takes a table to one that `Evolves` from it, so after any history that starts
well the class index is exact.
-/

namespace JavaRecipes

open TypeTable (Evolves)

/-! ## What edits do to a table -/

theorem TypeTable.Evolves.internSignature (t : TypeTable) (signature : MethodSignature) :
    t.Evolves (t.internSignature signature).2 := by
  obtain ⟨declaring, name, returns, params⟩ := signature
  have hclass := internClass t declaring none
  cases returns with
  | none => exact (hclass.trans (internNames _ params)).trans (internMethod _ _)
  | some result =>
    exact ((hclass.trans (internName _ result)).trans (internNames _ params)).trans
      (internMethod _ _)

namespace Draft

theorem evolves_typeNamed? (d : Draft) (name : Option String) :
    d.types.Evolves (d.typeNamed? name).2.types := by
  cases name with
  | none => exact .refl _
  | some name => exact .internName _ name

mutual

/-- Building a snippet only enters types. -/
theorem evolves_materialize :
    ∀ (snippet : Snippet) (d : Draft), d.types.Evolves (d.materialize snippet).2.types
  | .existing _, d => .refl d.types
  | .stringLiteral _, d => .internClass d.types stringClass none
  | .typeName name, d => .internClass d.types name none
  | .staticField target owner _ fieldType, d =>
    (((evolves_materialize target d).trans (.internClass _ owner none)).trans
      (evolves_typeNamed? ((d.materialize target).2.classType owner).2 fieldType)).trans (.push _
        rfl)
  | .invocation select signature arguments, d =>
    ((evolves_materializeOption select d).trans (evolves_materializeList arguments _)).trans
      (.internSignature _ signature)

theorem evolves_materializeOption : ∀ (snippet : Option Snippet) (d : Draft),
    d.types.Evolves (d.materializeOption snippet).2.types
  | none, d => .refl d.types
  | some snippet, d => evolves_materialize snippet d

theorem evolves_materializeList : ∀ (snippets : List Snippet) (d : Draft),
    d.types.Evolves (d.materializeList snippets).2.types
  | [], d => .refl d.types
  | snippet :: snippets, d =>
    (evolves_materialize snippet d).trans (evolves_materializeList snippets _)

end

theorem evolves_applyEdit {d d' : Draft} {e : Edit} (h : d.applyEdit e = .ok d') :
    d.types.Evolves d'.types := by
  cases e with
  | setLiteral r value =>
    obtain rfl := Except.ok.inj h
    exact .refl d.types
  | renameIdentifier r name =>
    obtain rfl := Except.ok.inj h
    exact .refl d.types
  | removeModifier r kind =>
    obtain rfl := Except.ok.inj h
    exact .refl d.types
  | replaceExpression r snippet =>
    simp only [applyEdit] at h
    split at h
    · cases h
    · split at h
      · cases h
      · obtain rfl := Except.ok.inj h
        exact evolves_materialize snippet d
  | renameClassType source target =>
    obtain rfl := Except.ok.inj h
    cases hr : d.types.renameClass source target with
    | none => simpa [hr] using Evolves.refl d.types
    | some types => simpa [hr] using Evolves.renameClass hr
  | renameMethodType id name =>
    simp only [applyEdit] at h
    split at h
    · cases h
    · rename_i hr
      obtain rfl := Except.ok.inj h
      exact .renameMethod hr
  | retypeInvocation r signature =>
    obtain rfl := Except.ok.inj h
    exact .internSignature d.types signature

theorem evolves_applyEdits {d d' : Draft} {es : List Edit} (h : d.applyEdits es = .ok d') :
    d.types.Evolves d'.types := by
  induction es generalizing d with
  | nil =>
    obtain rfl := Except.ok.inj h
    exact .refl d.types
  | cons e es ih =>
    simp only [applyEdits] at h
    split at h
    · cases h
    · rename_i hstep
      exact (evolves_applyEdit hstep).trans (ih h)

end Draft

theorem EditSet.evolves {s : EditSet} {file after : SourceFile} (h : s.apply file = .ok after) :
    file.types.Evolves after.types := by
  obtain ⟨-, d, hd, rfl⟩ := apply_eq_ok h
  exact Draft.evolves_applyEdits hd

/-! ## Histories -/

/-- What can be done to a type table. -/
inductive TableCall where
  | internClass (name : String) (owner : Option TypeId)
  | internPrimitive (p : Primitive)
  | internMethod (m : MethodType)
  | addVariable (v : VariableType)
  | renameClass (source target : String)
  | reindex
  /-- Edits to a file that has the table. -/
  | edit (file : SourceFile) (edits : EditSet)

namespace TypeTable

/-- The table after a call; a rename that is refused and edits that fail leave it. -/
def perform (t : TypeTable) : TableCall → TypeTable
  | .internClass name owner => (t.internClass name owner).2
  | .internPrimitive p => (t.internPrimitive p).2
  | .internMethod m => (t.internMethod m).2
  | .addVariable v => (t.addVariable v).2
  | .renameClass source target => (t.renameClass source target).getD t
  | .reindex => t.reindex
  | .edit file edits =>
    match edits.apply { file with types := t } with
    | .error _ => t
    | .ok after => after.types

def performAll (t : TypeTable) (calls : List TableCall) : TypeTable := calls.foldl perform t

variable {t : TypeTable}

theorem evolves_perform (t : TypeTable) (call : TableCall) : t.Evolves (t.perform call) := by
  cases call with
  | internClass name owner => exact .internClass t name owner
  | internPrimitive p => exact .internPrimitive t p
  | internMethod m => exact .internMethod t m
  | addVariable v => exact .push t rfl
  | renameClass source target =>
    simp only [perform]
    cases hr : t.renameClass source target with
    | none => exact .refl t
    | some renamed => exact .renameClass hr
  | reindex => exact .reindex t
  | edit file edits =>
    simp only [perform]
    split
    · exact .refl t
    · rename_i happly
      exact EditSet.evolves happly

theorem evolves_performAll (t : TypeTable) (calls : List TableCall) :
    t.Evolves (t.performAll calls) := by
  induction calls generalizing t with
  | nil => exact .refl t
  | cons call calls ih => exact (evolves_perform t call).trans (ih _)

/-- A rename is refused exactly when there is no class to rename, or another class has the new
name. -/
theorem Exact.renameClass_eq_none_iff (h : t.Exact) {source target : String} :
    t.renameClass source target = none ↔
      (∀ id, t.className? id ≠ some source) ∨ source ≠ target ∧
        ∃ id, t.className? id = some target := by
  have htarget : (t.lookupClass target).isSome ↔ ∃ id, t.className? id = some target := by
    simp only [Option.isSome_iff_exists, h.lookupClass_eq_some_iff]
  rw [← h.lookupClass_eq_none_iff, ← htarget]
  unfold renameClass
  cases t.lookupClass source with
  | none => simp
  | some id => by_cases hst : source = target <;> simp [hst, Option.isSome_iff_ne_none]

/-- Tables that a history starts from: the empty one, and those of different class names, freshly
indexed. -/
inductive Fresh : TypeTable → Prop
  | empty : Fresh .empty
  | reindexed {t : TypeTable} (h : t.Distinct) : Fresh t.reindex

theorem Fresh.exact (h : t.Fresh) : t.Exact := by
  cases h with
  | empty => exact exact_empty
  | reindexed h => exact exact_reindex h

/-- The class index is exact, whatever has been done: classes have different names, a name leads to
an id exactly when that entry is the class of the name, and indexing afresh changes nothing. What is
done later leaves each entry what it is, and a rename is refused only when it must be, the table as
it was. -/
theorem exact_performAll (h : t.Fresh) (calls later : List TableCall) :
    let u := t.performAll calls
    u.Distinct ∧
      (∀ name id, u.lookupClass name = some id ↔ u.className? id = some name) ∧
      u.reindex = u ∧
      u.Keeps (u.performAll later) ∧
      ∀ source target,
        (u.renameClass source target = none ↔
          (∀ id, u.className? id ≠ some source) ∨ source ≠ target ∧
            ∃ id, u.className? id = some target) ∧
        (u.renameClass source target = none → u.perform (.renameClass source target) = u) := by
  intro u
  have hexact : u.Exact := (evolves_performAll t calls).exact h.exact
  refine ⟨hexact.distinct, fun _ _ => hexact.lookupClass_eq_some_iff, hexact.reindex_eq,
    (evolves_performAll u later).keeps, fun source target =>
      ⟨hexact.renameClass_eq_none_iff, fun hnone => ?_⟩⟩
  rw [perform, hnone]
  rfl

/-- A class with one nested in it, before they are indexed. -/
def nestedPair : TypeTable := ⟨#[.classType ⟨"a.B", none⟩, .classType ⟨"a.B$C", some 0⟩], []⟩

/-- An edit that renames the outer class. -/
def renameOuter : TableCall :=
  .edit ⟨"B.java", .empty, .empty, none⟩ ⟨[.renameClassType "a.B" "a.D"]⟩

/-- When the old name is entered again, the class gets an entry of its own, and the nested one keeps
its owner. -/
theorem exact_performAll_nestedPair :
    let u := nestedPair.reindex.performAll [renameOuter]
    let later := [TableCall.internClass "a.B" none]
    u.lookupClass "a.D" = some 0 ∧ u.reindex = u ∧ u.renameClass "a.B" "a.E" = none ∧
      (u.performAll later).lookupClass "a.B" = some 2 ∧
      ((u.performAll later).get? 1).map TypeEntry.unnamed = some (.classType ⟨"", some 0⟩) := by
  intro u later
  have hfresh : Fresh nestedPair.reindex := .reindexed (by decide)
  obtain ⟨-, hlookup, hreindex, hkeeps, hrename⟩ := exact_performAll hfresh [renameOuter] later
  refine ⟨(hlookup "a.D" 0).2 (by decide), hreindex,
    (hrename "a.B" "a.E").1.2 (.inl fun id hid => ?_), by decide,
    (hkeeps.unnamed (by decide)).trans (by decide)⟩
  have hnames : ∀ id < 2, u.className? id ≠ some "a.B" := by decide
  exact hnames id (lt_size_of_className? hid) hid

end TypeTable

end JavaRecipes
