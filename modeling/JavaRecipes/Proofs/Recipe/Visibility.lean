import JavaRecipes.Proofs.Edit.Conflicts
import JavaRecipes.Proofs.Edit.Settling
import JavaRecipes.Proofs.Recipe.Reports
import JavaRecipes.Proofs.Recipe.FixedPoint

/-!
Factory methods that lose `public`. In files without cycles the run goes through: every factory
method in reach keeps its other modifiers in their order and takes over the comments of the ones
that go, and nothing else in the file changes (`run_conserves`).
-/

namespace JavaRecipes

/-- Modifiers can always be taken away, and links stay. -/
theorem Draft.exists_applyEdits_removeModifier {kind : ModifierKind} {es : List Edit} (d : Draft)
    (hes : ∀ e ∈ es, ∃ r, e = .removeModifier r kind) :
    ∃ d', d.applyEdits es = .ok d' ∧ ∀ r, d'.store.parent r = d.store.parent r := by
  induction es generalizing d with
  | nil => exact ⟨d, rfl, fun _ => rfl⟩
  | cons e es ih =>
    rw [List.forall_mem_cons] at hes
    obtain ⟨⟨r, rfl⟩, hes⟩ := hes
    obtain ⟨d', hd', hparent⟩ := ih (d.updateData r (.removeModifier kind)) hes
    refine ⟨d', by simpa [applyEdits, applyEdit] using hd', fun r' => ?_⟩
    rw [hparent]
    exact d.store.parent_updateData r r' _

namespace BeanVisibility

/-- A method in reach that some annotation makes a factory method, be it public or not. -/
structure FactoryMethod (f : SourceFile) (n : NodeId) (d : MethodDeclaration) : Prop where
  reach : f.Reaches n
  data : f.store.data? (some n) = some (.methodDeclaration d)
  marked : ∃ a ∈ d.annotations, f.store.annotationName? f.types a = some beanMarker

/-- The method without `public`, with the comments that stood in front of it. -/
def withoutPublic (d : MethodDeclaration) : MethodDeclaration :=
  { d with
    modifiers := d.modifiers.filter (·.kind ≠ .isPublic)
    comments := d.comments ++ (d.modifiers.filter (·.kind = .isPublic)).flatMap (·.comments) }

/-- `g` is `f` with factory methods that are not public, and nothing else is different. -/
structure Conserves (f g : SourceFile) : Prop where
  path : g.path = f.path
  root : g.root = f.root
  types : g.types = f.types
  link : ∀ r, g.store.parent r = f.store.parent r
  factory : ∀ {n d}, FactoryMethod f n d →
    g.store.data? (some n) = some (.methodDeclaration (withoutPublic d))
  other : ∀ {n}, (∀ d, ¬ FactoryMethod f n d) → g.store.data? (some n) = f.store.data? (some n)

theorem withoutPublic_of_not_public {d : MethodDeclaration}
    (h : hasModifier d.modifiers .isPublic = false) :
    withoutPublic d = d := by
  rw [NodeData.hasModifier_eq_false_iff] at h
  have hkept : d.modifiers.filter (·.kind ≠ .isPublic) = d.modifiers := by simpa using h
  have hfreed : d.modifiers.filter (·.kind = .isPublic) = [] := by simpa using h
  simp only [withoutPublic, hkept, hfreed, List.flatMap_nil, List.append_nil]

variable {f : SourceFile} {n : NodeId} {d : MethodDeclaration}

theorem isPublicBean_iff : isPublicBean f d ↔ hasModifier d.modifiers .isPublic = true ∧
    ∃ a ∈ d.annotations, f.store.annotationName? f.types a = some beanMarker := by
  simp [isPublicBean, AnnotationPattern.find?, AnnotationPattern.holds]

/-- The plan is about the public ones among the factory methods. -/
theorem mem_plan_iff (hf : f.Acyclic) (hd : f.store.data? (some n) = some (.methodDeclaration d)) :
    .removeModifier (some n) .isPublic ∈ (plan f).edits ↔
      FactoryMethod f n d ∧ hasModifier d.modifiers .isPublic = true := by
  rw [mem_plan]
  constructor
  · rintro ⟨n', hn, d', hd', hpublic, heq⟩
    obtain ⟨hn', -⟩ := Edit.removeModifier.inj heq
    obtain rfl := Option.some.inj hn'
    obtain rfl := NodeData.methodDeclaration.inj (Option.some.inj (hd.symm.trans hd'))
    obtain ⟨hpublic, hmarked⟩ := isPublicBean_iff.1 hpublic
    exact ⟨⟨(SourceFile.mem_nodes_iff hf n).1 hn, hd, hmarked⟩, hpublic⟩
  · rintro ⟨hfactory, hpublic⟩
    exact ⟨n, (SourceFile.mem_nodes_iff hf n).2 hfactory.reach, d, hd,
      isPublicBean_iff.2 ⟨hpublic, hfactory.marked⟩, rfl⟩

/-- Nothing is wrong with the plan: its edits are of declarations, and there is one for each of
them. -/
theorem fault?_plan (f : SourceFile) : (plan f).fault? f = none := by
  refine (EditSet.fault?_eq_none_iff (EditSet.ofList_nodup _) f).2
    ⟨fun e he => ?_, fun a ha b hb r har hbr => ?_⟩
  · obtain ⟨n, -, d, hd, -, rfl⟩ := mem_plan.1 he
    exact roleFault?_eq_none_iff.2
      ⟨.methodDeclaration, by simp [Store.kind?, hd, NodeData.kind], rfl⟩
  · obtain ⟨n, -, -, -, -, rfl⟩ := mem_plan.1 ha
    obtain ⟨m, -, -, -, -, rfl⟩ := mem_plan.1 hb
    obtain rfl : m = n := Option.some.inj (Option.some.inj (hbr.trans har.symm))
    exact .inl rfl

theorem exists_apply_plan (hf : f.Acyclic) : ∃ g, (plan f).apply f = .ok g ∧ Conserves f g := by
  have hremove : ∀ e ∈ (plan f).edits, ∃ r, e = .removeModifier r .isPublic := by
    intro e he
    obtain ⟨n, -, -, -, -, rfl⟩ := mem_plan.1 he
    exact ⟨_, rfl⟩
  obtain ⟨t, ht, hlink⟩ :=
    Draft.exists_applyEdits_removeModifier { store := f.store, types := f.types } hremove
  obtain ⟨htypes, hdata⟩ := Draft.applyEdits_removeModifier hremove ht
  refine ⟨{ f with store := t.store, types := t.types }, by simp [EditSet.apply, fault?_plan, ht],
    rfl, rfl, htypes, hlink, fun {n d} hfactory => ?_, fun {n} hno => ?_⟩
  · simp only [hdata, hfactory.data, Option.map_some, mem_plan_iff hf hfactory.data,
      hfactory, true_and]
    cases hpublic : hasModifier d.modifiers .isPublic with
    | true => rfl
    | false => simp [withoutPublic_of_not_public hpublic]
  · have hkept : .removeModifier (some n) .isPublic ∉ (plan f).edits := by
      intro hmem
      obtain ⟨m, -, d, hd, -, heq⟩ := mem_plan.1 hmem
      obtain rfl := Option.some.inj (Edit.removeModifier.inj heq).1
      exact hno d ((mem_plan_iff hf hd).1 hmem).1
    simp only [hdata, hkept, if_false, Option.map_id']

/-- In files without cycles factory methods lose `public`, and all else is as it was. -/
theorem run_conserves {batch : Batch} (h : ∀ f ∈ batch, f.Acyclic) :
    ∃ changes, run batch = .ok changes ∧ List.Forall₂ Conserves batch (merge batch changes) := by
  have hfile : ∀ (i : Nat) (f : SourceFile), batch[i]? = some f →
      ∃ g, (plan f).apply f = .ok g ∧ Conserves f g :=
    fun i f hi => exists_apply_plan (h f (List.mem_of_getElem? hi))
  obtain ⟨changes, hrun⟩ : ∃ changes, run batch = .ok changes :=
    changeFiles_ok_iff.2 fun i f hi => (hfile i f hi).imp fun _ hg => hg.1
  obtain ⟨hlength, hget⟩ := merge_changeFiles hrun
  refine ⟨changes, hrun, List.forall₂_iff_get.2 ⟨hlength.symm, fun i hi hi' => ?_⟩⟩
  have hf : batch[i]? = some (batch.get ⟨i, hi⟩) := List.getElem?_eq_getElem hi
  obtain ⟨g, hg, hconserves⟩ := hfile i _ hf
  obtain ⟨g', hg', happly⟩ := hget i _ hf
  obtain rfl := Except.ok.inj (hg.symm.trans happly)
  rw [List.getElem?_eq_getElem hi'] at hg'
  obtain rfl := Option.some.inj hg'
  exact hconserves

/-- A factory method that is public twice over, with a marker behind another annotation, and a
method that is none. -/
def ovenFile : SourceFile :=
  let d : Draft := {}
  let (oven, d) := d.classType "sample.Oven"
  let (lazy, d) := d.annotationUse "org.springframework.context.annotation.Lazy" []
  let (marker, d) := d.annotationUse beanMarker []
  let (factory, d) := d.method {
    comments := ["// Made once."], annotations := [some lazy, some marker],
    name := "oven", returns := some oven
    modifiers :=
      [⟨.isPublic, ["// For tests."]⟩, ⟨.isStatic, []⟩, ⟨.isPublic, ["// And for all."]⟩] }
  let (other, d) := d.method { modifiers := [⟨.isPublic, []⟩], name := "heat" }
  let (c, d) := d.classDeclaration { name := "Kitchen", members := [some factory, some other] }
  d.finish "Kitchen.java" none [] [some c]

/-- Of the first method the other modifier and all comments are left, and the second one stays
public. -/
theorem run_conserves_ovenFile : ovenFile.Acyclic ∧
    ∃ changes g, run [ovenFile] = .ok changes ∧ merge [ovenFile] changes = [g] ∧
      (g.store.method? (some 6)).map (fun d => (d.modifiers, d.comments)) =
        some ([⟨.isStatic, []⟩], ["// Made once.", "// For tests.", "// And for all."]) ∧
      g.store.data? (some 8) = ovenFile.store.data? (some 8) := by
  have hacyclic : ovenFile.Acyclic := (SourceFile.held_of_forall (by decide +kernel)).acyclic
  obtain ⟨changes, hrun, hall⟩ := run_conserves (List.forall_mem_singleton.2 hacyclic)
  obtain ⟨g, _, hconserves, hnil, hg⟩ := List.forall₂_cons_left_iff.1 hall
  obtain rfl := List.forall₂_nil_left_iff.1 hnil
  have hfactory :
      FactoryMethod ovenFile 6 ((ovenFile.store.method? (some 6)).get (by decide +kernel)) :=
    ⟨(SourceFile.mem_nodes_iff hacyclic 6).1 (by decide +kernel),
      by decide +kernel, by decide +kernel⟩
  have hother : ∀ d, ¬ FactoryMethod ovenFile 8 d := by
    intro d h
    have hunmarked : ∀ d ∈ ovenFile.store.method? (some 8), d.annotations = [] := by decide +kernel
    obtain ⟨a, ha, -⟩ := h.marked
    rw [hunmarked d (Store.method?_eq_some.2 h.data)] at ha
    cases ha
  refine ⟨hacyclic, changes, g, hrun, hg, ?_, hconserves.other hother⟩
  rw [Store.method?_eq_some.2 (hconserves.factory hfactory)]
  decide +kernel

end BeanVisibility

end JavaRecipes
