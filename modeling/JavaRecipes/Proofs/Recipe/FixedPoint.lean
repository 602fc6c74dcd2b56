import JavaRecipes.Proofs.Recipe.Settled

/-!
Recipes without arguments are done after one run: on what it leaves, a second run changes nothing.
For calls that give way to other calls this takes that each is in one slot of its holder, as a
replacement goes into one slot, and that a root which is no compilation unit has no parent, as the
run could take away the link of the parent.
-/

namespace JavaRecipes

namespace SourceFile

/-- A file whose nodes link to their holders, which come after them. -/
theorem held_of_forall {f : SourceFile}
    (h : ∀ n < f.store.size, ∀ r ∈ f.store.children (some n), ∀ m ∈ r,
      m < n ∧ f.store.parent (some m) = some n) : f.Held := by
  have hheld : ∀ {n m}, f.store.Holds n m → m < n ∧ f.store.parent (some m) = some n :=
    fun hh => h _ (Store.holds_lt_size hh) _ hh _ rfl
  have hbelow : ∀ {n m}, Relation.TransGen f.store.Holds n m → m < n := by
    intro n m hnm
    induction hnm with
    | single hh => exact (hheld hh).1
    | tail _ hh ih => exact (hheld hh).1.trans ih
  exact ⟨fun n _ hcycle => Nat.lt_irrefl n (hbelow hcycle), fun _ hh => (hheld hh).2⟩

theorem typesInRange_of_forall_mem {f : SourceFile}
    (hnodes : ∀ node ∈ f.store.nodes, ∀ i ∈ node.data.typeIds, i < f.types.size)
    (hentries : ∀ e ∈ f.types.entries, ∀ i ∈ e.typeIds, i < f.types.size) : f.TypesInRange := by
  refine ⟨?_, fun id e he => hentries e (Array.mem_of_getElem? he)⟩
  intro r x hx
  obtain ⟨node, hnode, rfl⟩ := Option.map_eq_some_iff.1 hx
  exact hnodes node (Store.mem_of_get? hnode)

end SourceFile

namespace Recipe

/-- The recipes without arguments. -/
def argumentFree : List Recipe := [.beanVisibility, .actuatorMediaType, .multipartSizes]

/-- What such a recipe leaves of a file it leaves as it is. -/
theorem editSet_eq_nil {recipe : Recipe} (hrecipe : recipe ∈ argumentFree)
    {batch batch' : Batch} {i : Nat} {f g : SourceFile} (hheld : f.Held) (hrange : f.TypesInRange)
    (hindex : f.types.reindex = f.types)
    (hready : recipe = .actuatorMediaType → ActuatorMediaType.Replaceable f)
    (happly : (recipe.editSet batch i f).apply f = .ok g) :
    (recipe.editSet batch' i g).edits = [] := by
  have hsound : f.types.IndexSound := hindex ▸ (TypeTable.indexed_reindex f.types).sound
  have hnodup := recipe.nodup_editSet batch i f
  cases recipe with
  | renameBean r => simp [argumentFree] at hrecipe
  | beanVisibility => exact BeanVisibility.plan_eq_nil hheld.acyclic happly
  | actuatorMediaType =>
    exact ActuatorMediaType.plan_eq_nil hheld (hready rfl) hrange hindex happly
  | multipartSizes => exact MultipartSizes.plan_eq_nil hheld.acyclic hrange hsound hnodup happly

/-- After one run of a recipe without arguments a second one succeeds and changes nothing. -/
theorem run_merge_eq_nil {recipe : Recipe} (hrecipe : recipe ∈ argumentFree) {batch : Batch}
    (hheld : ∀ f ∈ batch, f.Held) (hrange : ∀ f ∈ batch, f.TypesInRange)
    (hindex : ∀ f ∈ batch, f.types.reindex = f.types)
    (hready : recipe = .actuatorMediaType → ∀ f ∈ batch, ActuatorMediaType.Replaceable f)
    {changes : List FileChange} (hrun : recipe.run batch = .ok changes) :
    recipe.run (merge batch changes) = .ok [] := by
  rw [run_eq] at hrun ⊢
  refine changeFiles_eq_nil fun i g hg => ?_
  obtain ⟨f, hf, happly⟩ := exists_of_getElem?_merge hrun hg
  have hmem := List.mem_of_getElem? hf
  exact editSet_eq_nil hrecipe (hheld f hmem) (hrange f hmem) (hindex f hmem)
    (fun h => hready h f hmem) happly

/-! ## An array of media types -/

/-- A file with a call `parseMediaType(ActuatorMediaType.V2_JSON)`, which is node 4, in an array. -/
def mediaFile (elements : List Ref) (root : NodeId) : SourceFile where
  path := "A.java"
  store := { nodes := #[
    ⟨some 2, .identifier { name := "ActuatorMediaType", type := some 0, variableType := none }⟩,
    ⟨some 2, .identifier { name := "V2_JSON", type := some 2, variableType := none }⟩,
    ⟨some 4, .fieldAccess { target := some 0, name := some 1, type := some 2 }⟩,
    ⟨some 4, .identifier { name := "parseMediaType", type := some 1, variableType := none }⟩,
    ⟨some 5,
      .methodInvocation { select := none, name := some 3, arguments := [some 2], type := some 3 }⟩,
    ⟨some 6, .newArray { elements, type := none }⟩,
    ⟨none, .compilationUnit { packageName := none, imports := [], classes := [some 5] }⟩] }
  types := {
    entries := #[.classType ⟨ActuatorMediaType.actuatorMediaType, none⟩,
      .classType ⟨ActuatorMediaType.mediaType, none⟩, .classType ⟨stringClass, none⟩,
      .method { declaring := 1, name := "parseMediaType", returns := some 1, params := [2] }]
    classes := [(ActuatorMediaType.actuatorMediaType, 0), (ActuatorMediaType.mediaType, 1),
      (stringClass, 2)] }
  root := some root

/-- The changes that the first run makes to a file. -/
def mediaChanges (f : SourceFile) : List FileChange := (ActuatorMediaType.run [f]).toOption.getD []

/-- One element: it is replaced by the first run. -/
theorem run_merge_eq_nil_mediaFile :
    run .actuatorMediaType [mediaFile [some 4] 6] = .ok (mediaChanges (mediaFile [some 4] 6)) ∧
      (mediaChanges (mediaFile [some 4] 6)).length = 1 ∧
      run .actuatorMediaType (merge [mediaFile [some 4] 6] (mediaChanges (mediaFile [some 4] 6))) =
        .ok [] := by
  have hheld : (mediaFile [some 4] 6).Held := SourceFile.held_of_forall (by decide)
  have hrange : (mediaFile [some 4] 6).TypesInRange :=
    SourceFile.typesInRange_of_forall_mem (by decide) (by decide)
  have hindex : (mediaFile [some 4] 6).types.reindex = (mediaFile [some 4] 6).types := by
    decide +kernel
  have hready : ActuatorMediaType.Replaceable (mediaFile [some 4] 6) :=
    ⟨ActuatorMediaType.once_of_forall (by decide), .inl (by decide)⟩
  have hrun : run .actuatorMediaType [mediaFile [some 4] 6] =
      .ok (mediaChanges (mediaFile [some 4] 6)) := by decide +kernel
  refine ⟨hrun, by decide +kernel, run_merge_eq_nil (by decide) ?_ ?_ ?_ ?_ hrun⟩
  · simpa using hheld
  · simpa using hrange
  · simpa using hindex
  · simpa using hready

/-- The first run over a file works, and the second one fails. -/
structure FailsAgain (f : SourceFile) : Prop where
  held : f.Held
  range : f.TypesInRange
  index : f.types.reindex = f.types
  first : run .actuatorMediaType [f] = .ok (mediaChanges f)
  second : run .actuatorMediaType (merge [f] (mediaChanges f)) =
    .error (.edit f.path (.detached (some 4)))

/-- The call as both elements of the array, one of which stays, and the call as the root, which
stays too: a second run finds it, but it has no parent any more. -/
theorem failsAgain_mediaFile :
    FailsAgain (mediaFile [some 4, some 4] 6) ∧ FailsAgain (mediaFile [some 4] 4) := by
  constructor
  · exact ⟨SourceFile.held_of_forall (by decide),
      SourceFile.typesInRange_of_forall_mem (by decide) (by decide),
      by decide +kernel, by decide +kernel, by decide +kernel⟩
  · exact ⟨SourceFile.held_of_forall (by decide),
      SourceFile.typesInRange_of_forall_mem (by decide) (by decide),
      by decide +kernel, by decide +kernel, by decide +kernel⟩

/-- A block with a local for the constant, a call with the local for its argument, and another call,
which the block has for its parent. -/
def loopFile : SourceFile where
  path := "A.java"
  store := { nodes := #[
    ⟨some 2, .identifier { name := "ActuatorMediaType", type := some 0, variableType := none }⟩,
    ⟨some 2, .identifier { name := "V2_JSON", type := some 2, variableType := none }⟩,
    ⟨some 4, .fieldAccess { target := some 0, name := some 1, type := some 2 }⟩,
    ⟨some 4, .identifier { name := "old", type := some 2, variableType := some 4 }⟩,
    ⟨some 5, .namedVariable { name := some 3, initializer := some 2, type := some 4 }⟩,
    ⟨some 13, .variableDeclarations {
      annotations := [], modifiers := [{ kind := .isFinal }], typeExpr := none
      declared := [some 4] }⟩,
    ⟨some 8, .identifier { name := "parseMediaType", type := some 1, variableType := none }⟩,
    ⟨some 8, .identifier { name := "old", type := some 2, variableType := some 4 }⟩,
    ⟨some 13, .methodInvocation {
      select := none, name := some 6, arguments := [some 7], type := some 3 }⟩,
    ⟨some 11, .identifier { name := "ActuatorMediaType", type := some 0, variableType := none }⟩,
    ⟨some 11, .identifier { name := "V3_JSON", type := some 2, variableType := none }⟩,
    ⟨some 12, .fieldAccess { target := some 9, name := some 10, type := some 2 }⟩,
    ⟨some 13, .methodInvocation {
      select := none, name := none, arguments := [some 11], type := some 3 }⟩,
    ⟨some 12, .block { statements := [some 5, some 8, some 12] }⟩] }
  types := {
    entries := #[.classType ⟨ActuatorMediaType.actuatorMediaType, none⟩,
      .classType ⟨ActuatorMediaType.mediaType, none⟩, .classType ⟨stringClass, none⟩,
      .method { declaring := 1, name := "parseMediaType", returns := some 1, params := [2] },
      .variable { name := "old", owner := none, type := some 2 }]
    classes := [(ActuatorMediaType.actuatorMediaType, 0), (ActuatorMediaType.mediaType, 1),
      (stringClass, 2)] }
  root := some 13

/-- It is not enough that the root is none of the calls. A walk outward from the first call does not
end, until the run takes the link of the second one away; then the local is found, and a second run
changes the first call. -/
theorem changesAgain_loopFile :
    loopFile.Held ∧ loopFile.TypesInRange ∧ loopFile.types.reindex = loopFile.types ∧
      ActuatorMediaType.Once loopFile ∧
      (∀ n d version, ActuatorMediaType.VersionCall loopFile n d version →
        loopFile.root ≠ some n) ∧
      run .actuatorMediaType [loopFile] = .ok (mediaChanges loopFile) ∧
      run .actuatorMediaType (merge [loopFile] (mediaChanges loopFile)) ≠ .ok [] := by
  refine ⟨SourceFile.held_of_forall (by decide),
    SourceFile.typesInRange_of_forall_mem (by decide) (by decide), by decide +kernel,
    ActuatorMediaType.once_of_forall (by decide), ?_, by decide +kernel, by decide +kernel⟩
  intro n d version hcall hroot
  obtain rfl : 13 = n := Option.some.inj hroot
  have hblock : loopFile.store.data? (some 13) =
      some (.block { statements := [some 5, some 8, some 12] }) := by decide
  rw [hcall.data] at hblock
  cases hblock

end Recipe

end JavaRecipes
