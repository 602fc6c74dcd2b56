import JavaRecipes.Proofs.Recipe.ClassNames
import JavaRecipes.Proofs.Types.Names

/-!
Nested classes after renaming a bean. A nested class has the name of the class around it, a `$` and
its own simple name. A rename changes the name of one entry, so the classes inside a renamed class
keep the name that was; `nestedNames_iff` tells when all nested classes are named after their owners
in the end.
-/

namespace JavaRecipes

namespace TypeTable

/-- The enclosing class of a class entry. -/
def classOwner? (t : TypeTable) (id : TypeId) : Option TypeId := (t.classAt? id).bind (·.owner)

/-- Every class that has an owner is named after it. -/
def NestedNames (t : TypeTable) : Prop :=
  ∀ id < t.size, ∀ owner ∈ t.classOwner? id, ∀ name ∈ t.className? id,
    ∃ outer ∈ t.className? owner, name = outer ++ "$" ++ ClassName.simple name

instance (t : TypeTable) : Decidable t.NestedNames :=
  inferInstanceAs (Decidable (∀ id < t.size, ∀ owner ∈ t.classOwner? id, ∀ name ∈ t.className? id,
    ∃ outer ∈ t.className? owner, name = outer ++ "$" ++ ClassName.simple name))

/-- What has an owner is a class. -/
theorem exists_className?_of_classOwner? {t : TypeTable} {id owner : TypeId}
    (h : t.classOwner? id = some owner) : ∃ name, t.className? id = some name := by
  obtain ⟨c, hc, -⟩ := Option.bind_eq_some_iff.1 h
  exact ⟨c.name, by simp [className?, hc]⟩

/-! ## Owners stay -/

theorem classOwner?_internClass (t : TypeTable) (name : String) (id : TypeId) :
    (t.internClass name none).2.classOwner? id = t.classOwner? id := by
  unfold classOwner? classAt?
  by_cases h : id < t.size
  · rw [get?_internClass t name none h]
  · have hnone : t.get? id = none := Array.getElem?_eq_none (Nat.le_of_not_lt h)
    cases he : (t.internClass name none).2.get? id with
    | none => simp [hnone]
    | some entry =>
      obtain ⟨-, -, rfl⟩ := get?_internClass_of_size_le t name none (Nat.le_of_not_lt h) he
      simp [hnone, TypeEntry.asClass?]

theorem classOwner?_renameClass {t t' : TypeTable} {source target : String}
    (h : t.renameClass source target = some t') (id : TypeId) :
    t'.classOwner? id = t.classOwner? id := by
  rcases renameClass_cases h with ⟨-, rfl⟩ | ⟨old, -, -, -, rfl⟩
  · rfl
  · change (((t.modify old _).get? id).bind TypeEntry.asClass?).bind _ = _
    rw [get?_modify]
    split
    · unfold classOwner? classAt?
      cases t.get? id with
      | none => rfl
      | some entry => cases entry <;> rfl
    · rfl

theorem classOwner?_renameMethod {t t' : TypeTable} {id : TypeId} {name : String}
    (h : t.renameMethod id name = some t') (id' : TypeId) :
    t'.classOwner? id' = t.classOwner? id' := by
  simp only [renameMethod, Option.map_eq_some_iff] at h
  obtain ⟨m, hm, rfl⟩ := h
  unfold classOwner? classAt?
  rw [get?_modify]
  split
  · rename_i hid
    subst hid
    unfold methodAt? at hm
    cases he : t.get? id' with
    | none => rfl
    | some entry => cases entry <;> simp_all [TypeEntry.asMethod?, TypeEntry.asClass?]
  · rfl

end TypeTable

namespace Draft

private theorem applyEdit_classOwner? {d d' : Draft} {e : Edit} (he : e.IsRenaming)
    (h : d.applyEdit e = .ok d') (id : TypeId) :
    d'.types.classOwner? id = d.types.classOwner? id := by
  rcases applyEdit_types he h with ⟨-, ht⟩ | ⟨_, _, -, ht⟩ | ⟨_, _, -, ht⟩ | ⟨_, _, -, ht⟩
  · rw [ht]
  · rw [ht, TypeTable.classOwner?_internClass]
  · exact TypeTable.classOwner?_renameClass ht id
  · exact TypeTable.classOwner?_renameMethod ht id

theorem applyEdits_classOwner? {d d' : Draft} {es : List Edit} (hes : ∀ e ∈ es, e.IsRenaming)
    (h : d.applyEdits es = .ok d') (id : TypeId) :
    d'.types.classOwner? id = d.types.classOwner? id := by
  induction es generalizing d with
  | nil =>
    obtain rfl := Except.ok.inj h
    rfl
  | cons e es ih =>
    obtain ⟨d₁, he, hrest⟩ := applyEdits_cons h
    rw [ih (fun a ha => hes a (List.mem_cons_of_mem _ ha)) hrest,
      applyEdit_classOwner? (hes e List.mem_cons_self) he]

end Draft

theorem EditSet.Renames.classOwner? {s : EditSet} {f g : SourceFile} (h : s.Renames f g)
    (id : TypeId) :
    g.types.classOwner? id = f.types.classOwner? id := by
  obtain ⟨-, d, hd, rfl⟩ := apply_eq_ok h.applied
  exact Draft.applyEdits_classOwner? h.only hd id

namespace RenameBean

variable {r : RenameBean} {batch : Batch} {i : Nat} {f g : SourceFile}

/-! ## One file -/

/-- The nested class `id` of a file has the owner `owner`; both with their names. -/
structure Nested (f : SourceFile) (id owner : TypeId) (name outer : String) : Prop where
  inside : f.types.classOwner? id = some owner
  named : f.types.className? id = some name
  ownerNamed : f.types.className? owner = some outer

/-- A nested class is named after its owner in the end just if the names that the run leaves the two
fit together. -/
theorem nestedNames_iff_of_renames (hf : batch[i]? = some f) (h : (r.editSet batch i f).Renames f g)
    (hsound : f.types.IndexSound) (hbefore : f.types.NestedNames) :
    g.types.NestedNames ↔ ∀ id owner name outer, Nested f id owner name outer →
      r.settledName batch i f id name =
        r.settledName batch i f owner outer ++ "$" ++
          ClassName.simple (r.settledName batch i f id name) := by
  have hnames : ∀ {id name}, f.types.className? id = some name →
      g.types.className? id = some (r.settledName batch i f id name) :=
    fun hname => className?_of_renames hf h hsound hname
  constructor
  · intro hafter id owner name outer hn
    have hname := hnames hn.named
    obtain ⟨outer', houter', heq⟩ := hafter id (TypeTable.lt_size_of_className? hname) owner
      (by rw [h.classOwner?, hn.inside]; rfl) _ hname
    rw [Option.mem_def, hnames hn.ownerNamed] at houter'
    obtain rfl := Option.some.inj houter'
    exact heq
  · intro hfit id _ owner howner name' hname'
    rw [Option.mem_def, h.classOwner?] at howner
    obtain ⟨name, hname⟩ := TypeTable.exists_className?_of_classOwner? howner
    obtain ⟨outer, houter, -⟩ :=
      hbefore id (TypeTable.lt_size_of_className? hname) owner howner name hname
    rw [Option.mem_def, hnames hname] at hname'
    obtain rfl := Option.some.inj hname'
    exact ⟨_, hnames houter, hfit id owner name outer ⟨howner, hname, houter⟩⟩

/-- A class that is renamed keeps what stands before its simple name. -/
private theorem eq_ofSimple_of_mem_carriedRenames {c : ClassRename}
    (hc : c ∈ r.carriedRenames batch i f) :
    c.target = ClassName.qualifier c.source ++ Text.capitalize r.newName ∨
      c.target = ClassName.qualifier c.source ++ (Text.capitalize r.newName ++ "Test") := by
  have hstart : (([] : List ClassRename).map ClassRename.target).Nodup ∧
      ∀ c ∈ ([] : List ClassRename), c.source ≠ c.target := by simp
  have hknown : c ∈ r.knownRenames batch f := by
    simpa using ((ClassRename.carryOut_spec hstart).2 c hc).2
  obtain ⟨b, -, hcb⟩ := List.mem_flatMap.1 (mem_distinct.1 (List.mem_filter.1 hknown).1)
  unfold classesOf at hcb
  split at hcb
  · simp only [List.mem_cons, List.not_mem_nil, or_false] at hcb
    rcases hcb with rfl | rfl
    · exact .inl rfl
    · exact .inr rfl
  · simp at hcb

/-- A nested class keeps the name of its owner in front, whether it is renamed or not. -/
private theorem settledName_nested (batch : Batch) (i : Nat) (f : SourceFile) (id : TypeId)
    (hplain : ClassName.simple (Text.capitalize r.newName) = Text.capitalize r.newName)
    {name outer : String} (hname : name = outer ++ "$" ++ ClassName.simple name) :
    r.settledName batch i f id name =
      outer ++ "$" ++ ClassName.simple (r.settledName batch i f id name) := by
  have hfront : ClassName.qualifier name = outer ++ "$" := by
    have h := (ClassName.qualifier_append_simple name).trans hname
    exact (String.append_left_inj _).1 h
  have htest : ClassName.simple (Text.capitalize r.newName ++ "Test") =
      Text.capitalize r.newName ++ "Test" := by
    rw [ClassName.simple_append (by simp [ClassName.isSeparator]), hplain]
  have hcases : r.settledName batch i f id name = name ∨ _ := settledName_cases id name
  rcases hcases with hkept | ⟨c, hc, rfl, htarget⟩
  · rw [hkept]
    exact hname
  · rw [htarget]
    rcases eq_ofSimple_of_mem_carriedRenames hc with heq | heq
    · rw [heq, ClassName.simple_qualifier_append, hplain, hfront]
    · rw [heq, ClassName.simple_qualifier_append, htest, hfront]

/-- So all hangs on the owners, where the new name is a simple one. -/
private theorem settledName_nested_iff (batch : Batch) (i : Nat) (f : SourceFile)
    (id owner : TypeId)
    (hplain : ClassName.simple (Text.capitalize r.newName) = Text.capitalize r.newName)
    {name outer : String} (hname : name = outer ++ "$" ++ ClassName.simple name) :
    r.settledName batch i f id name =
        r.settledName batch i f owner outer ++ "$" ++
          ClassName.simple (r.settledName batch i f id name) ↔
      r.settledName batch i f owner outer = outer := by
  have hself := settledName_nested batch i f id hplain hname
  constructor
  · intro h
    have hboth := h.symm.trans hself
    rwa [String.append_left_inj, String.append_left_inj] at hboth
  · intro h
    rw [h]
    exact hself

/-! ## A batch -/

/-- Where nested classes are named after their owners, a run that goes through keeps it so just if
it leaves fitting names to each nested class and its owner. With a new name that has no separator
these fit just if the run does not rename the owner. -/
theorem nestedNames_iff {changes : List FileChange} (hrun : r.run batch = .ok changes)
    (hsound : ∀ f ∈ batch, f.types.IndexSound) (hbefore : ∀ f ∈ batch, f.types.NestedNames) :
    ((∀ g ∈ merge batch changes, g.types.NestedNames) ↔
      ∀ i f id owner name outer, batch[i]? = some f → Nested f id owner name outer →
        r.settledName batch i f id name =
          r.settledName batch i f owner outer ++ "$" ++
            ClassName.simple (r.settledName batch i f id name)) ∧
    (ClassName.simple (Text.capitalize r.newName) = Text.capitalize r.newName →
      ((∀ g ∈ merge batch changes, g.types.NestedNames) ↔
        ∀ i f id owner name outer, batch[i]? = some f → Nested f id owner name outer →
          r.settledName batch i f owner outer = outer)) := by
  have hexact : (∀ g ∈ merge batch changes, g.types.NestedNames) ↔
      ∀ i f id owner name outer, batch[i]? = some f → Nested f id owner name outer →
        r.settledName batch i f id name =
          r.settledName batch i f owner outer ++ "$" ++
            ClassName.simple (r.settledName batch i f id name) := by
    constructor
    · intro hafter i f id owner name outer hf
      obtain ⟨g, hg, -⟩ := (merge_changeFiles hrun).2 i f hf
      have hmem := List.mem_of_getElem? hf
      exact (nestedNames_iff_of_renames hf (renames_of_run hrun hf hg) (hsound f hmem)
        (hbefore f hmem)).1 (hafter g (List.mem_of_getElem? hg)) id owner name outer
    · intro hfit g hg
      obtain ⟨i, hi⟩ := List.mem_iff_getElem?.1 hg
      obtain ⟨f, hf, -⟩ := exists_of_getElem?_merge hrun hi
      have hmem := List.mem_of_getElem? hf
      refine (nestedNames_iff_of_renames hf (renames_of_run hrun hf hi) (hsound f hmem)
        (hbefore f hmem)).2 ?_
      exact fun id owner name outer => hfit i f id owner name outer hf
  refine ⟨hexact, fun hplain => hexact.trans ?_⟩
  have hnamed : ∀ {i : Nat} {f id owner name outer}, batch[i]? = some f →
      Nested f id owner name outer →
      name = outer ++ "$" ++ ClassName.simple name := by
    intro i f id owner name outer hf hn
    obtain ⟨outer', houter', heq⟩ := hbefore f (List.mem_of_getElem? hf) id
      (TypeTable.lt_size_of_className? hn.named) owner hn.inside name hn.named
    rw [Option.mem_def, hn.ownerNamed] at houter'
    obtain rfl := Option.some.inj houter'
    exact heq
  constructor
  · intro hfit i f id owner name outer hf hn
    have hiff := settledName_nested_iff batch i f id owner hplain (hnamed hf hn)
    exact hiff.1 (hfit i f id owner name outer hf hn)
  · intro hkept i f id owner name outer hf hn
    have hiff := settledName_nested_iff batch i f id owner hplain (hnamed hf hn)
    exact hiff.2 (hkept i f id owner name outer hf hn)

/-! ## A class in a class -/

/-- A class with a class inside it, one of which is a component. -/
def nestedFile (outerMarked : Bool) : SourceFile :=
  let d : Draft := {}
  let (outer, d) := d.classType "sample.Foo"
  let (inner, d) := d.classType "sample.Foo$Inner" (some outer)
  let (mark, d) := d.annotationUse "org.springframework.stereotype.Component" []
  let (member, d) := d.classDeclaration {
    annotations := if outerMarked then [] else [some mark], name := "Inner", type := some inner }
  let (c, d) := d.classDeclaration {
    annotations := if outerMarked then [some mark] else [], name := "Foo", members := [some member]
    type := some outer }
  d.finish "Foo.java" (some "sample") [] [some c]

def innerRename : RenameBean := { typeFilter := none, oldName := "inner", newName := "bar" }

/-- The inner class can be renamed: it becomes `sample.Foo$Bar`. -/
theorem nestedNames_innerRename : ∃ changes,
    innerRename.run [nestedFile false] = .ok changes ∧
      ∀ g ∈ merge [nestedFile false] changes, g.types.NestedNames := by
  have hrun : innerRename.run [nestedFile false] =
      .ok ((innerRename.run [nestedFile false]).toOption.getD []) := by decide +kernel
  have hindexed : (nestedFile false).types.reindex = (nestedFile false).types := by decide +kernel
  have hsound : ∀ f ∈ [nestedFile false], f.types.IndexSound := by
    intro f hf
    rw [List.mem_singleton.1 hf, ← hindexed]
    exact (TypeTable.indexed_reindex _).sound
  have hbefore : ∀ f ∈ [nestedFile false], f.types.NestedNames := by decide +kernel
  have hplain : ClassName.simple (Text.capitalize innerRename.newName) =
      Text.capitalize innerRename.newName := by decide +kernel
  refine ⟨_, hrun, ((nestedNames_iff hrun hsound hbefore).2 hplain).2 ?_⟩
  intro i f id owner name outer hf hn
  obtain ⟨rfl, rfl⟩ : i = 0 ∧ f = nestedFile false := by
    cases i with
    | zero => exact ⟨rfl, by simpa using hf.symm⟩
    | succ i => simp at hf
  have hinside : ∀ id < (nestedFile false).types.size,
      ∀ owner ∈ (nestedFile false).types.classOwner? id, owner = 0 := by decide +kernel
  obtain rfl := hinside id (TypeTable.lt_size_of_className? hn.named) owner hn.inside
  obtain rfl : outer = "sample.Foo" := by
    have houter : (nestedFile false).types.className? 0 = some "sample.Foo" := by decide +kernel
    exact Option.some.inj (hn.ownerNamed.symm.trans houter)
  decide +kernel

/-- If the outer class is renamed, the inner one is still `sample.Foo$Inner`, inside
`sample.Bar`. -/
theorem nestedNames_outerRename : (nestedFile true).types.NestedNames ∧
    ∃ changes, fooRename.run [nestedFile true] = .ok changes ∧
      ¬ ∀ g ∈ merge [nestedFile true] changes, g.types.NestedNames := by
  have hrun : fooRename.run [nestedFile true] =
      .ok ((fooRename.run [nestedFile true]).toOption.getD []) := by decide +kernel
  exact ⟨by decide +kernel, _, hrun, by decide +kernel⟩

end RenameBean

end JavaRecipes
