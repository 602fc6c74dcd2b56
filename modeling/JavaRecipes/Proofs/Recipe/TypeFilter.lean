import JavaRecipes.Proofs.Recipe.ClassPlan

/-!
A rename without a type filter, and those with one. Each edit of the first is due to one bean, or to
one type that a bean has, so the rename that is restricted to that type makes it too; and the lookup
of a class finds the same rename whichever other types are there.
-/

namespace JavaRecipes

/-- A bean of the batch has the name and the type. -/
def HasBeanOfType (batch : Batch) (name typeName : String) : Prop :=
  ∃ f ∈ batch, ∃ n ∈ f.nodes, ∃ bean type source, f.store.bean? f.types n = some bean ∧
    f.store.beanType bean = some type ∧ f.types.name? type = some typeName ∧
    f.store.nameSource f.types bean = some source ∧ name ∈ source.names

namespace RenameBean

variable {r : RenameBean} {batch : Batch} {i : Nat} {f : SourceFile} {typeName : String}

/-- The rename of the beans of one type only. -/
def restrictTo (r : RenameBean) (typeName : String) : RenameBean :=
  { r with typeFilter := some typeName }

theorem mem_beansOf_restrictTo (hfilter : r.typeFilter = none) {b : FoundBean} :
    b ∈ (r.restrictTo typeName).beansOf i f ↔ b ∈ r.beansOf i f ∧ b.typeName = typeName := by
  simp only [mem_beansOf]
  constructor
  · rintro ⟨n, hn, hfound⟩
    obtain ⟨rfl, hbean, ⟨type, htype, hname⟩, hsource, hpasses, hold, hkey⟩ :=
      foundBean?_eq_some hfound
    have hall : r.passesFilter b.typeName := by simp [passesFilter, hfilter]
    refine ⟨⟨n, hn, ?_⟩, ?_⟩
    · rw [foundBean?_of b.file hbean htype hname hsource hall hold, ← hkey]
    · have hsame : (typeName == b.typeName) = true := hpasses
      exact (beq_iff_eq.1 hsame).symm
  · rintro ⟨⟨n, hn, hfound⟩, rfl⟩
    obtain ⟨rfl, hbean, ⟨type, htype, hname⟩, hsource, -, hold, hkey⟩ := foundBean?_eq_some hfound
    have hown : (r.restrictTo b.typeName).passesFilter b.typeName := by
      simp [passesFilter, restrictTo]
    refine ⟨n, hn, ?_⟩
    rw [foundBean?_of b.file hbean htype hname hsource hown hold, ← hkey]

/-- The types that beans of the old name have. -/
theorem hasBeanOfType_iff (hfilter : r.typeFilter = none) :
    HasBeanOfType batch r.oldName typeName ↔
      ∃ f ∈ batch, ∃ b ∈ r.beansOf 0 f, b.typeName = typeName := by
  refine exists_congr fun f => and_congr_right fun _ => ?_
  constructor
  · rintro ⟨n, hn, bean, type, source, hbean, htype, hname, hsource, hold⟩
    have hall : r.passesFilter typeName := by simp [passesFilter, hfilter]
    exact ⟨_, mem_beansOf.2 ⟨n, hn, foundBean?_of 0 hbean htype hname hsource hall hold⟩, rfl⟩
  · rintro ⟨b, hb, rfl⟩
    obtain ⟨n, hn, hfound⟩ := mem_beansOf.1 hb
    obtain ⟨-, hbean, ⟨type, htype, hname⟩, hsource, -, hold, -⟩ := foundBean?_eq_some hfound
    exact ⟨n, hn, b.bean, type, b.source, hbean, htype, hname, hsource, hold⟩

theorem hasBeanOfType_of_mem (hfilter : r.typeFilter = none) (hi : batch[i]? = some f)
    {b : FoundBean} (hb : b ∈ r.beansOf i f) : HasBeanOfType batch r.oldName b.typeName := by
  rw [hasBeanOfType_iff hfilter, ← exists_findBeans_iff fun _ _ => Iff.rfl]
  exact ⟨b, mem_findBeans.2 ⟨i, f, hi, hb⟩, rfl⟩

/-! ## Plans -/

/-- A bean of the batch is a bean of its own type. -/
theorem exists_bean_iff_restrictTo (hfilter : r.typeFilter = none) {P : FoundBean → Prop} :
    (∃ f ∈ batch, ∃ b ∈ r.beansOf 0 f, P b) ↔ ∃ typeName, HasBeanOfType batch r.oldName typeName ∧
      ∃ f ∈ batch, ∃ b ∈ (r.restrictTo typeName).beansOf 0 f, P b := by
  simp only [mem_beansOf_restrictTo hfilter]
  constructor
  · rintro ⟨f, hf, b, hb, hPb⟩
    exact ⟨b.typeName, (hasBeanOfType_iff hfilter).2 ⟨f, hf, b, hb, rfl⟩, f, hf, b, ⟨hb, rfl⟩, hPb⟩
  · rintro ⟨typeName, -, f, hf, b, ⟨hb, -⟩, hPb⟩
    exact ⟨f, hf, b, hb, hPb⟩

theorem mem_methods_iff_restrictTo (hfilter : r.typeFilter = none) {key : MethodKey} :
    key ∈ (r.plan batch).methods ↔ ∃ typeName, HasBeanOfType batch r.oldName typeName ∧
      key ∈ ((r.restrictTo typeName).plan batch).methods := by
  simp only [mem_plan_methods]
  exact exists_bean_iff_restrictTo hfilter

theorem mem_classes_iff_restrictTo (hfilter : r.typeFilter = none) {c : ClassRename} :
    c ∈ (r.plan batch).classes ↔ ∃ typeName, HasBeanOfType batch r.oldName typeName ∧
      c ∈ ((r.restrictTo typeName).plan batch).classes := by
  simp only [mem_plan_classes]
  exact exists_bean_iff_restrictTo hfilter

theorem mem_classIds_iff_restrictTo (hfilter : r.typeFilter = none) {x : TypeId × ClassRename} :
    x ∈ classIds (r.plan batch) f ↔ ∃ typeName, HasBeanOfType batch r.oldName typeName ∧
      x ∈ classIds ((r.restrictTo typeName).plan batch) f := by
  obtain ⟨id, c⟩ := x
  simp only [mem_classIds, mem_classes_iff_restrictTo hfilter]
  constructor
  · rintro ⟨⟨typeName, htype, hc⟩, hid⟩
    exact ⟨typeName, htype, hc, hid⟩
  · rintro ⟨typeName, htype, hc, hid⟩
    exact ⟨⟨typeName, htype, hc⟩, hid⟩

/-- A lookup finds what the lookup in one of the restricted plans finds. -/
theorem find?_classIds_iff_restrictTo (hbatch : ∀ f ∈ batch, f.Regular) (hf : f.Regular)
    (hfilter : r.typeFilter = none) {p : TypeId × ClassRename → Bool}
    (hp : ∀ x y, p x → p y → x.1 = y.1) {x : TypeId × ClassRename} :
    (classIds (r.plan batch) f).find? p = some x ↔
      ∃ typeName, HasBeanOfType batch r.oldName typeName ∧
      (classIds ((r.restrictTo typeName).plan batch) f).find? p = some x := by
  simp only [find?_classIds_iff hbatch hf hp, mem_classIds_iff_restrictTo hfilter]
  constructor
  · rintro ⟨⟨typeName, htype, hx⟩, hpx⟩
    exact ⟨typeName, htype, hx, hpx⟩
  · rintro ⟨typeName, htype, hx, hpx⟩
    exact ⟨⟨typeName, htype, hx⟩, hpx⟩

theorem mem_linkedTypes_restrictTo {linked : String} :
    linked ∈ ((r.restrictTo typeName).plan batch).linkedTypes ↔ linked = typeName := by
  simp [plan, restrictTo]

/-! ## Edits -/

theorem mem_identifierEdits_iff_restrictTo (hbatch : ∀ f ∈ batch, f.Regular) (hf : f.Regular)
    (hfilter : r.typeFilter = none) {n : NodeId} {d : Identifier} {e : Edit} :
    e ∈ identifierEdits (classIds (r.plan batch) f) n d ↔
      ∃ typeName, HasBeanOfType batch r.oldName typeName ∧
        e ∈ identifierEdits (classIds ((r.restrictTo typeName).plan batch) f) n d := by
  have hentry : ∀ x y : TypeId × ClassRename, (d.type = some x.1 && x.2.oldSimple = d.name) = true →
      (d.type = some y.1 && y.2.oldSimple = d.name) = true → x.1 = y.1 := by
    intro x y hx hy
    simp only [Bool.and_eq_true, decide_eq_true_eq] at hx hy
    exact Option.some.inj (hx.1.symm.trans hy.1)
  have hfind := fun x => find?_classIds_iff_restrictTo hbatch hf hfilter hentry (x := x)
  simp only [mem_identifierEdits, hfind]
  constructor
  · rintro ⟨hvariable, id, c, ⟨typeName, htype, hlookup⟩, he⟩
    exact ⟨typeName, htype, hvariable, id, c, hlookup, he⟩
  · rintro ⟨typeName, htype, hvariable, id, c, hlookup, he⟩
    exact ⟨hvariable, id, c, ⟨typeName, htype, hlookup⟩, he⟩

theorem mem_constructorEdits_iff_restrictTo (hbatch : ∀ f ∈ batch, f.Regular) (hf : f.Regular)
    (hfilter : r.typeFilter = none) {d : ClassDeclaration} {e : Edit} :
    e ∈ constructorEdits (classIds (r.plan batch) f) f.store d ↔
      ∃ typeName, HasBeanOfType batch r.oldName typeName ∧
        e ∈ constructorEdits (classIds ((r.restrictTo typeName).plan batch) f) f.store d := by
  have hentry : ∀ x y : TypeId × ClassRename, decide (d.type = some x.1) = true →
      decide (d.type = some y.1) = true → x.1 = y.1 := by
    intro x y hx hy
    exact Option.some.inj ((of_decide_eq_true hx).symm.trans (of_decide_eq_true hy))
  have hfind := fun x => find?_classIds_iff_restrictTo hbatch hf hfilter hentry (x := x)
  constructor
  · intro he
    cases hlookup : (classIds (r.plan batch) f).find? fun x => decide (d.type = some x.1) with
    | none => simp [constructorEdits, hlookup] at he
    | some x =>
      obtain ⟨typeName, htype, hlookup'⟩ := (hfind x).1 hlookup
      refine ⟨typeName, htype, ?_⟩
      simp only [constructorEdits, hlookup] at he
      simpa only [constructorEdits, hlookup'] using he
  · rintro ⟨typeName, htype, he⟩
    cases hlookup : (classIds ((r.restrictTo typeName).plan batch) f).find?
        fun x => decide (d.type = some x.1) with
    | none => simp [constructorEdits, hlookup] at he
    | some x =>
      have hlookup' := (hfind x).2 ⟨typeName, htype, hlookup⟩
      simp only [constructorEdits, hlookup] at he
      simpa only [constructorEdits, hlookup'] using he

/-- Every edit comes about with one of the types already, and those of each type come about without
a filter. -/
theorem origin_iff_restrictTo (hbatch : ∀ f ∈ batch, f.Regular) (hfilter : r.typeFilter = none)
    (hi : batch[i]? = some f) {e : Edit} :
    r.Origin batch i f e ↔ ∃ typeName, HasBeanOfType batch r.oldName typeName ∧
      (r.restrictTo typeName).Origin batch i f e := by
  have hf := hbatch f (List.mem_of_getElem? hi)
  have hown : ∀ {b : FoundBean}, b ∈ r.beansOf i f → HasBeanOfType batch r.oldName b.typeName ∧
      b ∈ (r.restrictTo b.typeName).beansOf i f := fun hb =>
    ⟨hasBeanOfType_of_mem hfilter hi hb, (mem_beansOf_restrictTo hfilter).2 ⟨hb, rfl⟩⟩
  constructor
  · intro h
    cases h with
    | slot hslot he =>
      cases hslot with
      | bean hb hsource hslot =>
        obtain ⟨htype, hb'⟩ := hown hb
        exact ⟨_, htype, .slot (.bean hb' hsource hslot) he⟩
      | reference hn hd hplace hlinked hslot =>
        obtain ⟨typeName, hname, hmem⟩ := (Option.any_eq_true _ _).1 hlinked
        have hmem := List.contains_iff_mem.1 hmem
        rw [mem_plan_linkedTypes hfilter, ← hasBeanOfType_iff hfilter] at hmem
        refine ⟨typeName, hmem, .slot (.reference hn hd hplace ?_ hslot) he⟩
        refine (Option.any_eq_true _ _).2 ⟨typeName, hname, ?_⟩
        exact List.contains_iff_mem.2 (mem_linkedTypes_restrictTo.2 rfl)
    | factoryName hb himplicit hkind hd =>
      obtain ⟨htype, hb'⟩ := hown hb
      exact ⟨_, htype, .factoryName hb' himplicit hkind hd⟩
    | factoryType hb himplicit hkind hd hid =>
      obtain ⟨htype, hb'⟩ := hown hb
      exact ⟨_, htype, .factoryType hb' himplicit hkind hd hid⟩
    | classType hc =>
      obtain ⟨typeName, htype, hc⟩ := (mem_classIds_iff_restrictTo hfilter).1 hc
      exact ⟨typeName, htype, .classType hc⟩
    | callName hn hd hid hkey hmem =>
      obtain ⟨typeName, htype, hmem⟩ := (mem_methods_iff_restrictTo hfilter).1 hmem
      exact ⟨typeName, htype, .callName hn hd hid hkey hmem⟩
    | callType hn hd hid hkey hmem =>
      obtain ⟨typeName, htype, hmem⟩ := (mem_methods_iff_restrictTo hfilter).1 hmem
      exact ⟨typeName, htype, .callType hn hd hid hkey hmem⟩
    | className hn hd he =>
      obtain ⟨typeName, htype, he⟩ := (mem_identifierEdits_iff_restrictTo hbatch hf hfilter).1 he
      exact ⟨typeName, htype, .className hn hd he⟩
    | constructorName hn hd he =>
      obtain ⟨typeName, htype, he⟩ := (mem_constructorEdits_iff_restrictTo hbatch hf hfilter).1 he
      exact ⟨typeName, htype, .constructorName hn hd he⟩
  · rintro ⟨typeName, htype, h⟩
    cases h with
    | slot hslot he =>
      cases hslot with
      | bean hb hsource hslot =>
        exact .slot (.bean ((mem_beansOf_restrictTo hfilter).1 hb).1 hsource hslot) he
      | reference hn hd hplace hlinked hslot =>
        obtain ⟨linked, hname, hmem⟩ := (Option.any_eq_true _ _).1 hlinked
        obtain rfl := mem_linkedTypes_restrictTo.1 (List.contains_iff_mem.1 hmem)
        refine .slot (.reference hn hd hplace ?_ hslot) he
        refine (Option.any_eq_true _ _).2 ⟨linked, hname, List.contains_iff_mem.2 ?_⟩
        rwa [mem_plan_linkedTypes hfilter, ← hasBeanOfType_iff hfilter]
    | factoryName hb himplicit hkind hd =>
      exact .factoryName ((mem_beansOf_restrictTo hfilter).1 hb).1 himplicit hkind hd
    | factoryType hb himplicit hkind hd hid =>
      exact .factoryType ((mem_beansOf_restrictTo hfilter).1 hb).1 himplicit hkind hd hid
    | classType hc =>
      exact .classType ((mem_classIds_iff_restrictTo hfilter).2 ⟨typeName, htype, hc⟩)
    | callName hn hd hid hkey hmem =>
      exact .callName hn hd hid hkey
        ((mem_methods_iff_restrictTo hfilter).2 ⟨typeName, htype, hmem⟩)
    | callType hn hd hid hkey hmem =>
      exact .callType hn hd hid hkey
        ((mem_methods_iff_restrictTo hfilter).2 ⟨typeName, htype, hmem⟩)
    | className hn hd he =>
      exact .className hn hd
        ((mem_identifierEdits_iff_restrictTo hbatch hf hfilter).2 ⟨typeName, htype, he⟩)
    | constructorName hn hd he =>
      exact .constructorName hn hd
        ((mem_constructorEdits_iff_restrictTo hbatch hf hfilter).2 ⟨typeName, htype, he⟩)

/-! ## Runs -/

/-- A restricted run goes through when the run without a filter does. -/
theorem restrictTo_run_ok (hbatch : ∀ f ∈ batch, f.Regular) (hfilter : r.typeFilter = none)
    (h : ∃ changes, r.run batch = .ok changes) (htype : HasBeanOfType batch r.oldName typeName) :
    ∃ changes, (r.restrictTo typeName).run batch = .ok changes := by
  have hlinks : ∀ f ∈ batch, f.store.LinksHold := fun f hf => (hbatch f hf).links
  rw [run_ok_iff hlinks] at h ⊢
  intro i f hi
  obtain ⟨hfault, hharm⟩ := h i f hi
  have hsub : ((r.restrictTo typeName).editSet batch i f).edits ⊆ (r.editSet batch i f).edits := by
    intro e he
    rw [mem_editSet hi] at he ⊢
    exact (origin_iff_restrictTo hbatch hfilter hi).2 ⟨typeName, htype, he⟩
  exact ⟨fun e he => hfault e (hsub he), hharm.subset hsub⟩

/-- With the names of a rename that was made, an empty filter is none. -/
private theorem make_some {old new : String} (hmake : make none old new = .ok r)
    (typeName : String) :
    r.typeFilter = none ∧ r.oldName = old ∧
      make (some typeName) old new = .ok (if typeName = "" then r else r.restrictTo typeName) := by
  unfold make at hmake ⊢
  split at hmake
  · cases hmake
  · rename_i hold
    split at hmake
    · cases hmake
    · rename_i hnew
      obtain rfl := Except.ok.inj hmake
      refine ⟨rfl, rfl, ?_⟩
      by_cases hempty : typeName = "" <;> simp [hold, hnew, hempty, restrictTo]

/-- Without a type filter a rename makes the edits that the renames with a filter make, for all
types that beans of the old name have; and all of these go through if it does. -/
theorem mem_editsAt_iff_filtered (hbatch : ∀ f ∈ batch, f.Regular) {old new : String}
    {changes : List FileChange} (hmake : make none old new = .ok r)
    (hrun : r.run batch = .ok changes) :
    (∀ typeName, HasBeanOfType batch old typeName →
      ∃ r' changes', make (some typeName) old new = .ok r' ∧ r'.run batch = .ok changes') ∧
    ∀ i e, e ∈ editsAt changes i ↔
      ∃ typeName r' changes', HasBeanOfType batch old typeName ∧
        make (some typeName) old new = .ok r' ∧
        r'.run batch = .ok changes' ∧ e ∈ editsAt changes' i := by
  obtain ⟨hfilter, rfl, -⟩ := make_some hmake ""
  have hmade := fun typeName => (make_some hmake typeName).2.2
  have hruns : ∀ typeName, HasBeanOfType batch r.oldName typeName →
      ∃ changes', (if typeName = "" then r else r.restrictTo typeName).run batch =
        .ok changes' := by
    intro typeName htype
    split
    · exact ⟨changes, hrun⟩
    · exact restrictTo_run_ok hbatch hfilter ⟨changes, hrun⟩ htype
  refine ⟨fun typeName htype => ?_, fun i e => ?_⟩
  · obtain ⟨changes', hrun'⟩ := hruns typeName htype
    exact ⟨_, changes', hmade typeName, hrun'⟩
  · cases hi : batch[i]? with
    | none =>
      have hle : batch.length ≤ i := List.getElem?_eq_none_iff.1 hi
      rw [editsAt_of_length_le hrun hle]
      constructor
      · intro he
        cases he
      · rintro ⟨typeName, r', changes', -, -, hrun', he⟩
        rw [editsAt_of_length_le hrun' hle] at he
        cases he
    | some f =>
      rw [editsAt_changeFiles hrun hi]
      constructor
      · intro he
        obtain ⟨typeName, htype, horigin⟩ :=
          (origin_iff_restrictTo hbatch hfilter hi).1 ((mem_editSet hi).1 he)
        obtain ⟨changes', hrun'⟩ := hruns typeName htype
        refine ⟨typeName, _, changes', htype, hmade typeName, hrun', ?_⟩
        rw [editsAt_changeFiles hrun' hi]
        split
        · exact he
        · exact (mem_editSet hi).2 horigin
      · rintro ⟨typeName, r', changes', htype, hmake', hrun', he⟩
        rw [hmade typeName] at hmake'
        obtain rfl := Except.ok.inj hmake'
        rw [editsAt_changeFiles hrun' hi] at he
        split at he
        · exact he
        · exact (mem_editSet hi).2
            ((origin_iff_restrictTo hbatch hfilter hi).2 ⟨typeName, htype, (mem_editSet hi).1 he⟩)

/-- The rename of one of two components is part of the rename of both. -/
theorem mem_editsAt_iff_filtered_twinFile :
    ∃ changes r' changes', twinRename.run [twinFile true, twinFile false] = .ok changes ∧
      make (some "a.Widget") "widget" "gadget" = .ok r' ∧
      r'.run [twinFile true, twinFile false] = .ok changes' ∧ editsAt changes' 1 ≠ [] ∧
      ∀ e ∈ editsAt changes' 1, e ∈ editsAt changes 1 := by
  have hregular : ∀ f ∈ [twinFile true, twinFile false], f.Regular := by
    intro f hf
    simp only [List.mem_cons, List.not_mem_nil, or_false] at hf
    rcases hf with rfl | rfl <;> exact regular_twinFile _
  have hrun : twinRename.run [twinFile true, twinFile false] =
      .ok ((twinRename.run [twinFile true, twinFile false]).toOption.getD []) := by decide +kernel
  have htype : HasBeanOfType [twinFile true, twinFile false] "widget" "a.Widget" :=
    (hasBeanOfType_iff (r := twinRename) rfl).2 ⟨twinFile true, by simp, by decide +kernel⟩
  obtain ⟨hruns, hedits⟩ :=
    mem_editsAt_iff_filtered hregular (rfl : make none "widget" "gadget" = .ok twinRename) hrun
  obtain ⟨r', changes', hmake, hrun'⟩ := hruns "a.Widget" htype
  refine ⟨_, r', changes', hrun, hmake, hrun', ?_, fun e he => ?_⟩
  · obtain rfl : (⟨some "a.Widget", "widget", "gadget"⟩ : RenameBean) = r' := Except.ok.inj hmake
    rw [editsAt_changeFiles hrun' rfl]
    decide +kernel
  · exact (hedits 1 e).2 ⟨"a.Widget", r', changes', htype, hmake, hrun', he⟩

end RenameBean

end JavaRecipes
