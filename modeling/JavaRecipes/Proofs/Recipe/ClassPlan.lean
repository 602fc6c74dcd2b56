import JavaRecipes.Proofs.Edit.Applicable
import JavaRecipes.Proofs.Recipe.ClassNames
import JavaRecipes.Proofs.Recipe.Reports
import JavaRecipes.Proofs.Types.Names

/-!
What a plan has to do with its batch. Methods, classes and linked types of a plan are told by the
files of the batch, whatever their positions; and no class is renamed in two ways. A class could
only be so if it were renamed itself and named after another renamed one, but then two beans would
have one name, of which the second is the first with `Test` at its end (`eq_of_source_eq`). So the
lookups in the plan do not depend on its order.
-/

namespace JavaRecipes

/-- What the rename counts on in a file. -/
structure SourceFile.Regular (f : SourceFile) : Prop where
  /-- The identifier of a class declaration spells the simple name of the class. -/
  spelled : ∀ n ∈ f.nodes, ∀ d id, f.store.data? (some n) = some (.classDeclaration d) →
    d.type = some id →
    ∃ name, f.types.className? id = some name ∧
      f.store.identifierText? d.name = some (ClassName.simple name)
  /-- No two class names stand for one entry. -/
  distinct : ∀ name name' id, f.types.lookupClass name = some id →
    f.types.lookupClass name' = some id →
    name = name'
  links : f.store.LinksHold

/-- The same, as a check. -/
theorem SourceFile.regular_of_forall {f : SourceFile}
    (hspelled : ∀ n ∈ f.nodes, ∀ d ∈ f.store.class? (some n), ∀ id ∈ d.type,
      ∃ name ∈ f.types.className? id, f.store.identifierText? d.name = some (ClassName.simple name))
    (hdistinct : (f.types.classes.map (·.2)).Nodup)
    (hlinks : ∀ n < f.store.size, ∀ p ∈ f.store.parent (some n),
      some n ∈ f.store.children (some p)) :
    f.Regular where
  spelled n hn d id hd hid := hspelled n hn d (Store.class?_eq_some.2 hd) id hid
  distinct name name' id hname hname' := by
    have hmem : ∀ {index : ClassIndex} {key : String}, index.find? key = some id →
        (key, id) ∈ index := by
      intro index key hkey
      induction index with
      | nil => simp [ClassIndex.find?] at hkey
      | cons entry index ih =>
        simp only [ClassIndex.find?] at hkey
        split at hkey
        · rename_i heq
          obtain rfl := Option.some.inj hkey
          exact heq ▸ List.mem_cons_self
        · exact List.mem_cons_of_mem _ (ih hkey)
    exact congrArg Prod.fst (List.inj_on_of_nodup_map hdistinct (hmem hname) (hmem hname') rfl)
  links n p hp := hlinks n (Store.lt_size_of_parent hp) p hp

theorem find?_eq_some_iff_mem {α : Type} {p : α → Bool} {xs : List α}
    (h : ∀ x ∈ xs, ∀ y ∈ xs, p x → p y → x = y) {x : α} : xs.find? p = some x ↔ x ∈ xs ∧ p x := by
  constructor
  · intro hfind
    exact ⟨List.mem_of_find?_eq_some hfind, List.find?_some hfind⟩
  · rintro ⟨hx, hpx⟩
    obtain ⟨y, hy⟩ := Option.isSome_iff_exists.1 (List.find?_isSome.2 ⟨x, hx, hpx⟩)
    rw [hy, h y (List.mem_of_find?_eq_some hy) x hx (List.find?_some hy) hpx]

namespace RenameBean

variable {r : RenameBean} {batch : Batch} {f : SourceFile}

/-! ## Beans without their positions -/

theorem beansOf_eq_map (r : RenameBean) (i : Nat) (f : SourceFile) :
    r.beansOf i f = (r.beansOf 0 f).map fun b => { b with file := i } := by
  rw [beansOf, beansOf, List.map_filterMap]
  congr 1
  funext n
  cases hfound : r.foundBean? 0 f n with
  | some b =>
    obtain ⟨-, hbean, ⟨type, htype, hname⟩, hsource, hfilter, hold, hkey⟩ :=
      foundBean?_eq_some hfound
    rw [foundBean?_of i hbean htype hname hsource hfilter hold, ← hkey]
    rfl
  | none =>
    refine Option.eq_none_iff_forall_ne_some.2 fun b hb => ?_
    obtain ⟨-, hbean, ⟨type, htype, hname⟩, hsource, hfilter, hold, -⟩ := foundBean?_eq_some hb
    rw [foundBean?_of 0 hbean htype hname hsource hfilter hold] at hfound
    cases hfound

/-- The batch has a bean of some kind when one of its files has. -/
theorem exists_findBeans_iff {P : FoundBean → Prop} (hP : ∀ b i, P { b with file := i } ↔ P b) :
    (∃ b ∈ r.findBeans batch, P b) ↔ ∃ f ∈ batch, ∃ b ∈ r.beansOf 0 f, P b := by
  constructor
  · rintro ⟨b, hb, hPb⟩
    obtain ⟨i, f, hf, hb⟩ := mem_findBeans.1 hb
    rw [beansOf_eq_map] at hb
    obtain ⟨b₀, hb₀, rfl⟩ := List.mem_map.1 hb
    exact ⟨f, List.mem_of_getElem? hf, b₀, hb₀, (hP b₀ i).1 hPb⟩
  · rintro ⟨f, hf, b, hb, hPb⟩
    obtain ⟨i, hi⟩ := List.getElem?_of_mem hf
    refine ⟨{ b with file := i }, mem_findBeans.2 ⟨i, f, hi, ?_⟩, (hP b i).2 hPb⟩
    rw [beansOf_eq_map]
    exact List.mem_map.2 ⟨b, hb, rfl⟩

theorem mem_plan_methods {key : MethodKey} :
    key ∈ (r.plan batch).methods ↔ ∃ f ∈ batch, ∃ b ∈ r.beansOf 0 f, methodOf? b = some key := by
  rw [← exists_findBeans_iff fun _ _ => Iff.rfl]
  exact List.mem_filterMap

theorem mem_plan_classes {c : ClassRename} :
    c ∈ (r.plan batch).classes ↔ ∃ f ∈ batch, ∃ b ∈ r.beansOf 0 f, c ∈ r.classesOf b := by
  rw [← exists_findBeans_iff fun _ _ => Iff.rfl]
  exact mem_distinct.trans List.mem_flatMap

theorem mem_plan_linkedTypes (hfilter : r.typeFilter = none) {typeName : String} :
    typeName ∈ (r.plan batch).linkedTypes ↔
      ∃ f ∈ batch, ∃ b ∈ r.beansOf 0 f, b.typeName = typeName := by
  rw [← exists_findBeans_iff fun _ _ => Iff.rfl]
  simp only [plan, hfilter]
  exact List.mem_map

/-! ## Each class is renamed once -/

/-- A bean that renames its class has its name from that. -/
private theorem decapitalize_of_mem_classesOf (hf : f.Regular) {b : FoundBean}
    (hb : b ∈ r.beansOf 0 f) {c : ClassRename} (hc : c ∈ r.classesOf b) :
    Text.decapitalize (ClassName.simple b.typeName) = r.oldName ∧
      (c = .ofSimple b.typeName (Text.capitalize r.newName) ∨
        c = .ofSimple (b.typeName ++ "Test") (Text.capitalize r.newName ++ "Test")) := by
  unfold classesOf at hc
  split at hc
  · rename_i hcond
    obtain ⟨himplicit, hkind⟩ := Bool.and_eq_true_iff.1 hcond
    have hkind := of_decide_eq_true hkind
    refine ⟨?_, by simpa using hc⟩
    obtain ⟨n, hn, hfound⟩ := mem_beansOf.1 hb
    obtain ⟨-, hbean, ⟨type, htype, hname⟩, hsource, -, hold, -⟩ := foundBean?_eq_some hfound
    obtain ⟨hnode, -⟩ := Store.bean?_eq_some hbean
    simp only [Store.beanType, hkind, hnode] at htype
    obtain ⟨d, hd, hid⟩ := Option.bind_eq_some_iff.1 htype
    obtain ⟨name, hclass, hspelled⟩ := hf.spelled n hn d type (Store.class?_eq_some.1 hd) hid
    obtain rfl := Option.some.inj (hname.symm.trans (TypeTable.name?_of_className? hclass))
    have himplied :
        f.store.implicitName b.bean = some (Text.decapitalize (ClassName.simple b.typeName)) := by
      simp [Store.implicitName, hkind, hnode, hd, hspelled]
    cases hs : b.source with
    | explicit slots => simp [hs, NameSource.isImplicit] at himplicit
    | implicit name =>
      rw [hs] at hsource hold
      obtain rfl := List.mem_singleton.1 hold
      unfold Store.nameSource at hsource
      split at hsource
      · simp at hsource
      · split at hsource
        · simp at hsource
        · simpa [himplied] using hsource
  · simp at hc

/-- No bean name is that of a class and that of the class named after it. -/
private theorem decapitalize_simple_test (name : String) :
    Text.decapitalize (ClassName.simple (name ++ "Test")) ≠
      Text.decapitalize (ClassName.simple name) := by
  rw [ClassName.simple_append (by simp [ClassName.isSeparator])]
  by_cases hempty : ClassName.simple name = ""
  · rw [hempty]
    decide
  · rw [Text.decapitalize_append hempty]
    intro h
    have hlength := congrArg String.length h
    rw [String.length_append] at hlength
    have hfour : "Test".length = 4 := by decide
    omega

/-- A plan has at most one rename for a class. -/
theorem eq_of_source_eq (hbatch : ∀ f ∈ batch, f.Regular) {c c' : ClassRename}
    (hc : c ∈ (r.plan batch).classes) (hc' : c' ∈ (r.plan batch).classes)
    (hsource : c.source = c'.source) : c = c' := by
  obtain ⟨f, hf, b, hb, hcb⟩ := mem_plan_classes.1 hc
  obtain ⟨f', hf', b', hb', hcb'⟩ := mem_plan_classes.1 hc'
  obtain ⟨hold, hown | htest⟩ := decapitalize_of_mem_classesOf (hbatch f hf) hb hcb
  · obtain ⟨hold', hown' | htest'⟩ := decapitalize_of_mem_classesOf (hbatch f' hf') hb' hcb'
    · obtain htype : b.typeName = b'.typeName := by
        simpa [hown, hown', ClassRename.ofSimple] using hsource
      rw [hown, hown', htype]
    · obtain htype : b.typeName = b'.typeName ++ "Test" := by
        simpa [hown, htest', ClassRename.ofSimple] using hsource
      exact absurd (htype ▸ hold.trans hold'.symm) (decapitalize_simple_test _)
  · obtain ⟨hold', hown' | htest'⟩ := decapitalize_of_mem_classesOf (hbatch f' hf') hb' hcb'
    · obtain htype : b.typeName ++ "Test" = b'.typeName := by
        simpa [htest, hown', ClassRename.ofSimple] using hsource
      exact absurd (htype ▸ hold'.trans hold.symm) (decapitalize_simple_test _)
    · obtain htype : b.typeName = b'.typeName := by
        simpa [htest, htest', ClassRename.ofSimple] using hsource
      rw [htest, htest', htype]

/-! ## Lookups -/

theorem mem_classIds {plan : RenamePlan} {id : TypeId} {c : ClassRename} :
    (id, c) ∈ classIds plan f ↔ c ∈ plan.classes ∧ f.types.lookupClass c.source = some id := by
  simp only [classIds, List.mem_filterMap, Option.map_eq_some_iff, Prod.mk.injEq]
  constructor
  · rintro ⟨c, hc, id, hid, rfl, rfl⟩
    exact ⟨hc, hid⟩
  · rintro ⟨hc, hid⟩
    exact ⟨c, hc, id, hid, rfl, rfl⟩

/-- A lookup of an entry finds a class rename of the plan wherever it stands. -/
theorem find?_classIds_iff (hbatch : ∀ f ∈ batch, f.Regular) (hf : f.Regular)
    {p : TypeId × ClassRename → Bool} (hp : ∀ x y, p x → p y → x.1 = y.1)
    {x : TypeId × ClassRename} :
    (classIds (r.plan batch) f).find? p = some x ↔ x ∈ classIds (r.plan batch) f ∧ p x := by
  refine find?_eq_some_iff_mem fun y hy z hz hpy hpz => ?_
  obtain ⟨hyc, hyid⟩ := mem_classIds.1 hy
  obtain ⟨hzc, hzid⟩ := mem_classIds.1 hz
  have hid : y.1 = z.1 := hp y z hpy hpz
  rw [hid] at hyid
  exact Prod.ext hid (eq_of_source_eq hbatch hyc hzc (hf.distinct _ _ _ hyid hzid))

/-! ## Success -/

/-- A run over files whose links hold goes through when its edits fit their files and agree. -/
theorem run_ok_iff (hlinks : ∀ f ∈ batch, f.store.LinksHold) :
    (∃ changes, r.run batch = .ok changes) ↔ ∀ i f, batch[i]? = some f →
      (∀ e ∈ (r.editSet batch i f).edits, e.fault? f = none) ∧
        EditSet.Harmonious (r.editSet batch i f).edits := by
  rw [show r.run batch = changeFiles (r.editSet batch) batch from rfl, changeFiles_ok_iff]
  refine forall_congr' fun i => forall_congr' fun f => imp_congr_right fun hi => ?_
  have hnodup : (r.editSet batch i f).edits.Nodup := EditSet.ofList_nodup _
  rw [EditSet.apply_ok_iff hnodup (hlinks f (List.mem_of_getElem? hi)),
    EditSet.fault?_eq_none_iff hnodup]

/-! ## Two components of one name -/

/-- One of two components of one name; both files know both classes. -/
def twinFile (first : Bool) : SourceFile :=
  let d : Draft := {}
  let (a, d) := d.classType "a.Widget"
  let (b, d) := d.classType "b.Widget"
  let (mark, d) := d.annotationUse "org.springframework.stereotype.Component" []
  let (c, d) := d.classDeclaration {
    annotations := [some mark], name := "Widget", type := some (if first then a else b) }
  d.finish "Widget.java" (some (if first then "a" else "b")) [] [some c]

theorem regular_twinFile (first : Bool) : (twinFile first).Regular := by
  cases first <;>
    exact SourceFile.regular_of_forall (by decide +kernel) (by decide +kernel) (by decide +kernel)

def twinRename : RenameBean := { typeFilter := none, oldName := "widget", newName := "gadget" }

end RenameBean

end JavaRecipes
