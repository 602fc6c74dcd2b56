import JavaRecipes.Proofs.Recipe.ClassPlan

/-!
Renaming a bean does not depend on the order of the batch. The edits of a file stand in three
groups: those of its beans, the class renames, and those of its nodes. Only the second group is in
the order of the plan, and so of the batch; the others read the plan as sets, and the lookups in it
have one match at most.
-/

namespace JavaRecipes

namespace EditSet

/-- What is added is what is new, without repetitions. -/
theorem pushAll_edits (s : EditSet) (es : List Edit) :
    (s.pushAll es).edits = s.edits ++ (ofList es).edits.filter (· ∉ s.edits) := by
  induction es using List.reverseRecOn with
  | nil => simp [pushAll, ofList, empty]
  | append_singleton es e ih =>
    have hpush : ∀ t : EditSet, t.pushAll (es ++ [e]) = (t.pushAll es).push e := by simp [pushAll]
    rw [ofList, hpush, hpush]
    change ((s.pushAll es).push e).edits =
      s.edits ++ ((ofList es).push e).edits.filter (· ∉ s.edits)
    by_cases hes : e ∈ es
    · have hs : e ∈ (s.pushAll es).edits := mem_pushAll.2 (.inr hes)
      rw [push, if_pos hs, push, if_pos (mem_ofList.2 hes), ih]
    · rw [push, push, if_neg (mem_ofList.not.2 hes)]
      by_cases hs : e ∈ s.edits
      · rw [if_pos (mem_pushAll.2 (.inl hs)), ih]
        simp [hs]
      · rw [if_neg (mem_pushAll.not.2 (by simp [hs, hes])), ih]
        simp [hs]

/-- The middle of a set may be listed in another order. -/
theorem ofList_middle {before middle middle' after : List Edit}
    (h : ∀ e, e ∈ middle ↔ e ∈ middle') :
    ∃ b m m' a, (ofList (before ++ middle ++ after)).edits = b ++ m ++ a ∧
      (ofList (before ++ middle' ++ after)).edits = b ++ m' ++ a ∧ m.Perm m' ∧
      ∀ e ∈ m, e ∈ middle := by
  have hsplit : ∀ es, (ofList (before ++ es ++ after)).edits =
      (ofList before).edits ++ (ofList es).edits.filter (· ∉ (ofList before).edits) ++
        (ofList after).edits.filter fun e => e ∉ before ∧ e ∉ es := by
    intro es
    have hfold : ofList (before ++ es ++ after) = ((ofList before).pushAll es).pushAll after := by
      simp [ofList, pushAll]
    rw [hfold, pushAll_edits, pushAll_edits _ es]
    congr 1
    refine List.filter_congr fun e _ => ?_
    simp only [List.mem_append, List.mem_filter, mem_ofList, decide_eq_true_eq, decide_eq_decide]
    tauto
  refine ⟨_, _, (ofList middle').edits.filter (· ∉ (ofList before).edits), _, hsplit middle, ?_,
    List.Perm.filter _ ?_, ?_⟩
  · rw [hsplit middle']
    simp only [h]
  · exact (List.perm_ext_iff_of_nodup (ofList_nodup _) (ofList_nodup _)).2 (by simpa using h)
  · intro e he
    exact mem_ofList.1 (List.mem_filter.1 he).1

end EditSet

/-- The same edits in the same order, but for the order among the class renames. -/
def SameUpToClassOrder (es es' : List Edit) : Prop :=
  ∃ before classes classes' after, es = before ++ classes ++ after ∧
    es' = before ++ classes' ++ after ∧
    classes.Perm classes' ∧ ∀ e ∈ classes, e.IsClassRename

theorem SameUpToClassOrder.mem_iff {es es' : List Edit} (h : SameUpToClassOrder es es') (e : Edit) :
    e ∈ es ↔ e ∈ es' := by
  obtain ⟨before, classes, classes', after, rfl, rfl, hperm, -⟩ := h
  simp [hperm.mem_iff]

namespace RenameBean

variable {r : RenameBean} {batch batch' : Batch} {i j : Nat} {f : SourceFile}

/-! ## Two batches of the same files -/

/-- The beans that the plan has for a file, in order. -/
theorem filter_plan_beans (hi : batch[i]? = some f) :
    (r.plan batch).beans.filter (·.file == i) = r.beansOf i f := by
  have hfile : ∀ (k : Nat) (g : SourceFile), (r.beansOf k g).filter (·.file == i) =
      if k = i then r.beansOf k g else [] := by
    intro k g
    rw [beansOf_eq_map]
    split
    · rename_i hk
      simp [hk]
    · rename_i hk
      simp [hk]
  have hother : ∀ (files : Batch) (start : Nat), i < start →
      ((files.zipIdx start).flatMap fun x => if x.2 = i then r.beansOf x.2 x.1 else []) = [] := by
    intro files
    induction files with
    | nil => simp
    | cons g files ih =>
      intro start hlt
      have hne : start ≠ i := by omega
      simp [List.zipIdx_cons, hne, ih (start + 1) (by omega)]
  have hfrom : ∀ (files : Batch) (start k : Nat), start + k = i → files[k]? = some f →
      ((files.zipIdx start).flatMap fun x => if x.2 = i then r.beansOf x.2 x.1 else []) =
        r.beansOf i f := by
    intro files
    induction files with
    | nil => simp
    | cons g files ih =>
      intro start k hk hf
      cases k with
      | zero =>
        obtain rfl : g = f := by simpa using hf
        obtain rfl : start = i := by omega
        simp [List.zipIdx_cons, hother files (start + 1) (by omega)]
      | succ k =>
        have hne : start ≠ i := by omega
        simp [List.zipIdx_cons, hne, ih (start + 1) k (by omega) (by simpa using hf)]
  change (r.findBeans batch).filter (·.file == i) = _
  rw [findBeans, List.filter_flatMap]
  simp only [hfile]
  exact hfrom batch 0 i (by omega) hi

/-- What the beans of a file have changed does not depend on its position. -/
theorem beanEdits_eq (hi : batch[i]? = some f) :
    ((r.plan batch).beans.filter (·.file == i)).flatMap (r.beanEdits f) =
      (r.beansOf 0 f).flatMap (r.beanEdits f) := by
  rw [filter_plan_beans hi, beansOf_eq_map, List.flatMap_map]
  rfl

theorem mem_classes_iff_of_mem_iff (hmem : ∀ f, f ∈ batch ↔ f ∈ batch') (c : ClassRename) :
    c ∈ (r.plan batch).classes ↔ c ∈ (r.plan batch').classes := by
  simp only [mem_plan_classes, hmem]

/-- Nor does what is changed at a node. -/
theorem nodeEdits_eq (hbatch : ∀ f ∈ batch, f.Regular) (hmem : ∀ f, f ∈ batch ↔ f ∈ batch')
    (hf : f.Regular) (n : NodeId) :
    r.nodeEdits (r.plan batch) f n = r.nodeEdits (r.plan batch') f n := by
  have hmethods : (r.plan batch).methods.contains = (r.plan batch').methods.contains := by
    funext key
    rw [Bool.eq_iff_iff]
    simp only [List.contains_iff_mem, mem_plan_methods, hmem]
  have hlinked : (r.plan batch).linkedTypes.contains = (r.plan batch').linkedTypes.contains := by
    funext typeName
    rw [Bool.eq_iff_iff]
    cases hfilter : r.typeFilter with
    | none => simp only [List.contains_iff_mem, mem_plan_linkedTypes hfilter, hmem]
    | some filter => simp [plan, hfilter]
  have hfind : ∀ {p : TypeId × ClassRename → Bool}, (∀ x y, p x → p y → x.1 = y.1) →
      (classIds (r.plan batch) f).find? p = (classIds (r.plan batch') f).find? p := by
    intro p hp
    have hbatch' : ∀ f ∈ batch', f.Regular := fun g hg => hbatch g ((hmem g).2 hg)
    refine Option.ext fun x => ?_
    obtain ⟨id, c⟩ := x
    rw [find?_classIds_iff hbatch hf hp, find?_classIds_iff hbatch' hf hp,
      mem_classIds, mem_classIds, mem_classes_iff_of_mem_iff hmem]
  have hentry :
      ∀ {type : Option TypeId} {q : TypeId × ClassRename → Bool} (x y : TypeId × ClassRename),
      (decide (type = some x.1) && q x) = true → (decide (type = some y.1) && q y) = true →
          x.1 = y.1 := by
    intro type q x y hx hy
    simp only [Bool.and_eq_true, decide_eq_true_eq] at hx hy
    exact Option.some.inj (hx.1.symm.trans hy.1)
  unfold nodeEdits
  split
  · simp only [callEdits, hmethods]
  · rename_i d _
    have hlookup := hfind
      (p := fun x => decide (d.type = some x.1) && decide (x.2.oldSimple = d.name))
      (hentry (q := fun x => decide (x.2.oldSimple = d.name)))
    simp only [identifierEdits]
    rw [hlookup]
  · rename_i d _
    have hlookup := hfind (p := fun x => decide (d.type = some x.1)) fun x y hx hy =>
      Option.some.inj ((of_decide_eq_true hx).symm.trans (of_decide_eq_true hy))
    simp only [constructorEdits]
    rw [hlookup]
  · simp only [referenceEdits, hlinked]
  · rfl

/-- A file has the same edits in two batches of the same files. -/
theorem sameUpToClassOrder_editSet (hbatch : ∀ f ∈ batch, f.Regular)
    (hmem : ∀ f, f ∈ batch ↔ f ∈ batch') (hi : batch[i]? = some f) (hj : batch'[j]? = some f) :
    SameUpToClassOrder (r.editSet batch i f).edits (r.editSet batch' j f).edits := by
  have hf := hbatch f (List.mem_of_getElem? hi)
  have hclasses : ∀ e,
      e ∈ (classIds (r.plan batch) f).map (fun x => Edit.renameClassType x.2.source x.2.target) ↔
      e ∈ (classIds (r.plan batch') f).map
        (fun x => Edit.renameClassType x.2.source x.2.target) := by
    intro e
    simp only [List.mem_map, Prod.exists, mem_classIds, mem_classes_iff_of_mem_iff hmem]
  obtain ⟨b, m, m', a, hedits, hedits', hperm, hmiddle⟩ := EditSet.ofList_middle hclasses
  refine ⟨b, m, m', a, ?_, ?_, hperm, fun e he => ?_⟩
  · rw [← hedits, editSet, fileEdits, beanEdits_eq hi]
  · rw [← hedits', editSet, fileEdits, beanEdits_eq hj, ← funext (nodeEdits_eq hbatch hmem hf)]
  · obtain ⟨x, -, rfl⟩ := List.mem_map.1 (hmiddle e he)
    exact ⟨_, _, rfl⟩

/-! ## Runs -/

/-- A rename does not depend on the order of the batch: it goes through in any order or in none, and
a file is changed in all of them or in none, by the same edits. Only class renames may stand in
another order. -/
theorem run_perm (hbatch : ∀ f ∈ batch, f.Regular) (hperm : batch.Perm batch') (r : RenameBean) :
    ((∃ changes, r.run batch = .ok changes) ↔ ∃ changes', r.run batch' = .ok changes') ∧
      ∀ changes changes', r.run batch = .ok changes → r.run batch' = .ok changes' →
        ∀ (i j : Nat) (f : SourceFile), batch[i]? = some f → batch'[j]? = some f →
          ((changeAt? changes i).isSome ↔ (changeAt? changes' j).isSome) ∧
            SameUpToClassOrder (editsAt changes i) (editsAt changes' j) := by
  have hmem : ∀ f, f ∈ batch ↔ f ∈ batch' := fun f => hperm.mem_iff
  have hlinks : ∀ f ∈ batch, f.store.LinksHold := fun f hf => (hbatch f hf).links
  have hsame : ∀ {i j f}, batch[i]? = some f → batch'[j]? = some f →
      SameUpToClassOrder (r.editSet batch i f).edits (r.editSet batch' j f).edits :=
    sameUpToClassOrder_editSet hbatch hmem
  refine ⟨?_, fun changes changes' hrun hrun' i j f hi hj => ⟨?_, ?_⟩⟩
  · rw [run_ok_iff hlinks, run_ok_iff fun f hf => hlinks f ((hmem f).2 hf)]
    constructor
    · intro h j f hj
      obtain ⟨i, hi⟩ := List.getElem?_of_mem ((hmem f).2 (List.mem_of_getElem? hj))
      obtain ⟨hfault, hharm⟩ := h i f hi
      exact ⟨fun e he => hfault e (((hsame hi hj).mem_iff e).2 he),
        hharm.subset fun e he => ((hsame hi hj).mem_iff e).2 he⟩
    · intro h i f hi
      obtain ⟨j, hj⟩ := List.getElem?_of_mem ((hmem f).1 (List.mem_of_getElem? hi))
      obtain ⟨hfault, hharm⟩ := h j f hj
      exact ⟨fun e he => hfault e (((hsame hi hj).mem_iff e).1 he),
        hharm.subset fun e he => ((hsame hi hj).mem_iff e).1 he⟩
  · have hempty : (r.editSet batch i f).edits = [] ↔ (r.editSet batch' j f).edits = [] := by
      simp only [List.eq_nil_iff_forall_not_mem, (hsame hi hj).mem_iff]
    rw [isSome_changeAt?_iff hrun hi, isSome_changeAt?_iff hrun' hj]
    exact not_congr hempty
  · rw [editsAt_changeFiles hrun hi, editsAt_changeFiles hrun' hj]
    exact hsame hi hj

/-- Two files in both orders: the class renames of each change places, and nothing else does. -/
theorem run_perm_twinFile :
    ∃ changes changes', twinRename.run [twinFile true, twinFile false] = .ok changes ∧
      twinRename.run [twinFile false, twinFile true] = .ok changes' ∧
      SameUpToClassOrder (editsAt changes 0) (editsAt changes' 1) ∧
      editsAt changes 0 ≠ editsAt changes' 1 := by
  have hregular : ∀ f ∈ [twinFile true, twinFile false], f.Regular := by
    intro f hf
    simp only [List.mem_cons, List.not_mem_nil, or_false] at hf
    rcases hf with rfl | rfl <;> exact regular_twinFile _
  obtain ⟨hiff, hsame⟩ := run_perm hregular (List.Perm.swap _ _ []) twinRename
  have hrun : ∃ changes, twinRename.run [twinFile true, twinFile false] = .ok changes :=
    ⟨(twinRename.run [twinFile true, twinFile false]).toOption.getD [], by decide +kernel⟩
  obtain ⟨changes', hrun'⟩ := hiff.1 hrun
  obtain ⟨changes, hrun⟩ := hrun
  refine ⟨changes, changes', hrun, hrun', (hsame changes changes' hrun hrun' 0 1 _ rfl rfl).2, ?_⟩
  rw [editsAt_changeFiles hrun rfl, editsAt_changeFiles hrun' rfl]
  decide +kernel

end RenameBean

end JavaRecipes
