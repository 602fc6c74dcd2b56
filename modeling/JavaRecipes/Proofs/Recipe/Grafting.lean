import JavaRecipes.Proofs.Edit.KeptTree
import JavaRecipes.Proofs.Recipe.Planned
import JavaRecipes.Proofs.Tree.Preorder
import JavaRecipes.Recipe.Batch

/-!
The edits that the recipes plan for a linked tree keep it tidy. Bean names are replaced by literals,
sizes are wrapped where they stand, and a call with its receiver gives way to another call with that
receiver; calls are replaced from the outside to the inside, so that no receiver has been replaced
before it is used.
-/

namespace JavaRecipes

theorem Store.invocation?_eq_some {s : Store} {r : Ref} {d : MethodInvocation} :
    s.invocation? r = some d ↔ s.data? r = some (.methodInvocation d) := by
  unfold invocation?
  cases s.data? r with
  | none => simp
  | some x => cases x <;> simp [NodeData.invocation?]

theorem MethodPattern.holds_iff {p : MethodPattern} {s : Store} {types : TypeTable} {r : Ref}
    {c : MethodInvocation} (hc : s.data? r = some (.methodInvocation c)) :
    p.holds s types r ↔ ∃ id, c.type = some id ∧ p.holdsOfType types id := by
  simp [holds, Store.invocation?_eq_some.2 hc, Option.any_eq_true]

namespace EditSet

/-- The edits of a set stand in an order if each comes before those that are not to come before it,
wherever these are listed. -/
theorem pairwise_ofList {R : Edit → Edit → Prop} {es : List Edit}
    (h : ∀ before a after, es = before ++ a :: after → ∀ b ∈ es, ¬ R a b → b ∈ before) :
    (ofList es).edits.Pairwise R := by
  have hrun : ∀ rest listed (s : EditSet), es = listed ++ rest → (∀ e, e ∈ s.edits ↔ e ∈ listed) →
      s.edits.Pairwise R → (s.pushAll rest).edits.Pairwise R := by
    intro rest
    induction rest with
    | nil => exact fun _ _ _ _ hs => hs
    | cons e rest ih =>
      intro listed s hes hlisted hs
      change ((s.push e).pushAll rest).edits.Pairwise R
      refine ih (listed ++ [e]) (s.push e) (by simp [hes]) (fun a => ?_) ?_
      · rw [mem_push, hlisted, List.mem_append, List.mem_singleton]
      · by_cases he : e ∈ s.edits
        · rwa [push, if_pos he]
        · rw [push, if_neg he]
          refine List.pairwise_append.2 ⟨hs, List.pairwise_singleton _ _, fun a ha b hb => ?_⟩
          obtain rfl := List.mem_singleton.1 hb
          by_contra hab
          obtain ⟨before, after, rfl⟩ := List.append_of_mem ((hlisted a).1 ha)
          have hmem := h before a (after ++ b :: rest) (by simp [hes]) b (by simp [hes]) hab
          exact he ((hlisted b).2 (List.mem_append_left _ hmem))
  exact hrun es [] empty rfl (by simp [empty]) .nil

end EditSet

/-! ## Sizes -/

namespace MultipartSizes

/-- A call of a setter with one argument, and what its argument becomes. -/
structure Matched (f : SourceFile) (n : NodeId) (d : MethodInvocation) (argument : Ref)
    (c : Conversion) :
    Prop where
  data : f.store.data? (some n) = some (.methodInvocation d)
  argument : d.arguments = [argument]
  conversion : conversion? f n = some c

/-- The signature that a matched call gets. -/
def resized (f : SourceFile) (d : MethodInvocation) (c : Conversion) : MethodSignature :=
  ⟨factoryClass, c.setter.name, returnName? f.types d, [dataSize]⟩

theorem mem_nodeEdits {f : SourceFile} {n : NodeId} {e : Edit} :
    e ∈ nodeEdits f n ↔ ∃ d argument c, Matched f n d argument c ∧
      (e = .replaceExpression argument (wrapped argument c) ∨
        e = .retypeInvocation (some n) (resized f d c)) := by
  constructor
  · intro he
    unfold nodeEdits at he
    split at he
    · rename_i c d hc hd
      split at he
      · rename_i argument hargument
        refine ⟨d, argument, c, ⟨Store.invocation?_eq_some.1 hd, hargument, hc⟩, ?_⟩
        simpa [resized] using he
      · simp at he
    · simp at he
  · rintro ⟨d, argument, c, ⟨hd, hargument, hc⟩, he⟩
    simp only [nodeEdits, hc, Store.invocation?_eq_some.2 hd, hargument]
    simpa [resized] using he

theorem mem_plan {f : SourceFile} {e : Edit} (he : e ∈ (plan f).edits) :
    ∃ n ∈ f.nodes, e ∈ nodeEdits f n := by
  unfold plan at he
  split at he
  · exact List.mem_flatMap.1 (EditSet.mem_ofList.1 he)
  · simp [EditSet.empty] at he

theorem existingNodes_wrapped (argument : Ref) (c : Conversion) :
    (wrapped argument c).existingNodes = [argument] := rfl

theorem grafts {f : SourceFile} (hnodup : (plan f).edits.Nodup)
    (hfault : (plan f).fault? f = none) :
    (plan f).Grafts f := by
  refine ⟨fun e he => ?_, ?_⟩
  · obtain ⟨n, hn, hmem⟩ := mem_plan he
    obtain ⟨d, argument, c, hmatched, rfl | rfl⟩ := mem_nodeEdits.1 hmem
    · obtain ⟨m, hm, rfl⟩ := exists_target ((EditSet.fault?_eq_none hfault).1 _ he) rfl
      have hheld : f.store.Holds n m := by
        simp [Store.holds_iff hmatched.data, NodeData.children, NodeData.childFields,
          ChildField.children, hmatched.argument]
      refine ⟨m, rfl, .step (SourceFile.reaches_of_mem_nodes hn) hheld hm,
        by simp [wrapped], ?_, .inl ?_⟩
      · rw [existingNodes_wrapped]
        exact ⟨by simpa using hm, fun k => List.count_le_length⟩
      · rw [existingNodes_wrapped]
        simp
    · trivial
  · refine (EditSet.pairwise_replaced hnodup hfault).imp_of_mem
      fun {a b} ha hb hab r har => ⟨hab r har, ?_⟩
    obtain ⟨n, hn, hmem⟩ := mem_plan hb
    obtain ⟨d, argument, c, hmatched, rfl | rfl⟩ := mem_nodeEdits.1 hmem
    · intro hr
      obtain rfl : r = argument := by simpa [Edit.used, existingNodes_wrapped] using hr
      exact hab r har rfl
    · simp [Edit.used]

end MultipartSizes

/-! ## Media types -/

namespace ActuatorMediaType

/-- A call with one argument that stands for a version. -/
structure Matched (f : SourceFile) (n : NodeId) (d : MethodInvocation)
    (version : String) : Prop where
  data : f.store.data? (some n) = some (.methodInvocation d)
  holds : parseMediaType.holds f.store f.types (some n)
  argument : ∃ argument, d.arguments = [argument] ∧ version? f argument = some version

theorem mem_nodeEdits {f : SourceFile} {n : NodeId} {e : Edit} :
    e ∈ nodeEdits f n ↔ ∃ d version, Matched f n d version ∧
      e = .replaceExpression (some n) (replacement d.select version) := by
  constructor
  · intro he
    unfold nodeEdits at he
    split at he
    · rename_i hholds
      split at he
      · rename_i select name argument type hd
        simp only [Option.mem_toList, Option.map_eq_some_iff] at he
        obtain ⟨version, hversion, rfl⟩ := he
        exact ⟨_, version, ⟨Store.invocation?_eq_some.1 hd, hholds, argument, rfl, hversion⟩, rfl⟩
      · simp at he
    · simp at he
  · rintro ⟨⟨select, name, arguments, type⟩, version, ⟨hd, hholds, argument, rfl, hversion⟩, rfl⟩
    simp only [nodeEdits, hholds, if_true, Store.invocation?_eq_some.2 hd]
    simp [hversion]

theorem mem_plan {f : SourceFile} {e : Edit} (he : e ∈ (plan f).edits) :
    ∃ n ∈ f.nodes, e ∈ nodeEdits f n := by
  unfold plan at he
  split at he
  · exact List.mem_flatMap.1 (EditSet.mem_ofList.1 he)
  · simp [EditSet.empty] at he

theorem existingNodes_replacement (select : Ref) (version : String) :
    (replacement select version).existingNodes = (select.map some).toList := by
  cases select <;> rfl

theorem holds_of_mem_existingNodes {f : SourceFile} {n m : NodeId} {d : MethodInvocation}
    {version version' : String} (h : Matched f n d version)
    (hm : some m ∈ (replacement d.select version').existingNodes) : f.store.Holds n m := by
  rw [existingNodes_replacement] at hm
  obtain ⟨select, hselect, hm⟩ : ∃ k, d.select = some k ∧ some k = some m := by simpa using hm
  rw [hm] at hselect
  simp [Store.holds_iff h.data, NodeData.children, NodeData.childFields,
    ChildField.children, hselect]

/-- A call is replaced before its receiver. -/
theorem pairwise_plan {f : SourceFile} (hf : f.Held) :
    (plan f).edits.Pairwise fun a b => ∀ r, a.replaced? = some r → r ∉ b.used := by
  unfold plan
  split
  · refine EditSet.pairwise_ofList fun before a after hsplit b hb hnot => ?_
    simp only [not_forall, not_not] at hnot
    obtain ⟨r, har, hr⟩ := hnot
    -- The edit `a` is about a node that the call of `b` holds; that call is visited before the
    -- node.
    obtain ⟨ns, m, ns', es, es', hnodes, hedits, rfl⟩ := exists_of_flatMap_eq_append hsplit
    obtain ⟨d, version, -, rfl⟩ := mem_nodeEdits.1 (show a ∈ nodeEdits f m by simp [hedits])
    obtain rfl := Option.some.inj har
    obtain ⟨q, hq, hb⟩ := List.mem_flatMap.1 hb
    obtain ⟨d', version', hmatched, rfl⟩ := mem_nodeEdits.1 hb
    have hbefore :=
      hf.mem_before hnodes (SourceFile.reaches_of_mem_nodes hq)
        (holds_of_mem_existingNodes hmatched hr)
    exact List.mem_append_left _ (List.mem_flatMap.2 ⟨q, hbefore, hb⟩)
  · exact .nil

theorem grafts {f : SourceFile} (hf : f.Linked) (hnodup : (plan f).edits.Nodup)
    (hfault : (plan f).fault? f = none) : (plan f).Grafts f := by
  refine ⟨fun e he => ?_, ?_⟩
  · obtain ⟨n, hn, hmem⟩ := mem_plan he
    obtain ⟨d, version, hmatched, rfl⟩ := mem_nodeEdits.1 hmem
    have hreach := (SourceFile.mem_nodes_iff hf.acyclic n).1 hn
    refine ⟨n, rfl, hreach, by simp [replacement], ⟨fun hm => ?_, fun m => ?_⟩, .inr fun m hm => ?_⟩
    · exact hf.lt_size hreach (holds_of_mem_existingNodes hmatched hm)
    · rw [existingNodes_replacement]
      exact List.count_le_length.trans (by cases d.select <;> simp)
    · exact holds_of_mem_existingNodes hmatched hm
  · exact ((EditSet.pairwise_replaced hnodup hfault).and (pairwise_plan ⟨hf.acyclic, hf.link⟩)).imp
      fun h r hr => ⟨h.1 r hr, h.2 r hr⟩

end ActuatorMediaType

/-! ## Beans -/

theorem BeanVisibility.mem_plan {f : SourceFile} {e : Edit} :
    e ∈ (plan f).edits ↔ ∃ n ∈ f.nodes, ∃ d, f.store.data? (some n) = some (.methodDeclaration d) ∧
      isPublicBean f d ∧ e = .removeModifier (some n) .isPublic := by
  rw [plan, EditSet.mem_ofList, List.mem_flatMap]
  refine exists_congr fun n => and_congr_right fun _ => ?_
  unfold nodeEdits
  cases hd : f.store.method? (some n) with
  | none =>
    have hno : ∀ d, f.store.data? (some n) ≠ some (.methodDeclaration d) := fun d h => by
      rw [Store.method?_eq_some.2 h] at hd
      cases hd
    simp [hno]
  | some d =>
    rw [Store.method?_eq_some.1 hd]
    by_cases hpublic : isPublicBean f d <;> simp [hpublic]

theorem BeanVisibility.grafts (f : SourceFile) : (plan f).Grafts f := by
  have hkeep : ∀ e ∈ (plan f).edits, e.replaced? = none ∧ e.Grafts f := by
    intro e he
    obtain ⟨n, -, d, -, -, rfl⟩ := mem_plan.1 he
    exact ⟨rfl, trivial⟩
  refine ⟨fun e he => (hkeep e he).2, List.pairwise_of_forall_mem_list fun a ha b _ r har => ?_⟩
  rw [(hkeep a ha).1] at har
  cases har

theorem RenameBean.grafts {r : RenameBean} {batch : Batch} {i : Nat} {f : SourceFile}
    (hi : batch[i]? = some f) (hf : f.Linked) (hfault : (r.editSet batch i f).fault? f = none) :
    (r.editSet batch i f).Grafts f := by
  have hplanned : ∀ {a snippet}, .replaceExpression a snippet ∈ (r.editSet batch i f).edits →
      snippet = .stringLiteral r.newName ∧ ∃ m, a = some m ∧ f.Reaches m := by
    intro a snippet he
    obtain ⟨hsnippet, slot, hslot, -, -, rfl⟩ :=
      planned_of_replaceExpression ((mem_editSet hi).1 he)
    obtain ⟨m, -, hm⟩ := exists_target ((EditSet.fault?_eq_none hfault).1 _ he) rfl
    obtain ⟨-, c, x, -, hc, hx, hmem⟩ := hslot.container hf.acyclic
    rw [hm] at hmem
    have hheld : f.store.Holds c m :=
      (Store.holds_iff hx).2 (NodeData.mem_children_of_mem_valueSlots hmem)
    exact ⟨hsnippet, m, hm, hf.reaches hc hheld⟩
  refine ⟨fun e he => ?_, ?_⟩
  · cases e with
    | replaceExpression a snippet =>
      obtain ⟨rfl, m, rfl, hm⟩ := hplanned he
      exact ⟨m, rfl, hm,
        by simp, ⟨by simp [Snippet.existingNodes], by simp [Snippet.existingNodes]⟩,
        .inl (by simp [Snippet.existingNodes])⟩
    | _ => trivial
  · refine (EditSet.pairwise_replaced (EditSet.ofList_nodup _) hfault).imp_of_mem
      fun {a b} _ hb hab r' har => ⟨hab r' har, ?_⟩
    cases b with
    | replaceExpression a' snippet =>
      obtain ⟨rfl, -⟩ := hplanned hb
      simp [Edit.used, Snippet.existingNodes]
    | _ => simp [Edit.used]

/-! ## All of them -/

namespace Recipe

/-- The edits that a recipe plans for a file of a batch. -/
def editSet : Recipe → Batch → Nat → SourceFile → EditSet
  | .renameBean r => r.editSet
  | .beanVisibility => fun _ _ => BeanVisibility.plan
  | .actuatorMediaType => fun _ _ => ActuatorMediaType.plan
  | .multipartSizes => fun _ _ => MultipartSizes.plan

theorem run_eq (recipe : Recipe) (batch : Batch) :
    recipe.run batch = changeFiles (recipe.editSet batch) batch := by
  cases recipe <;> rfl

theorem nodup_editSet (recipe : Recipe) (batch : Batch) (i : Nat) (f : SourceFile) :
    (recipe.editSet batch i f).edits.Nodup := by
  have hsome : ∀ (b : Bool) (es : List Edit),
      (if b then EditSet.ofList es else .empty).edits.Nodup := by
    intro b es
    cases b
    · exact .nil
    · exact EditSet.ofList_nodup es
  cases recipe with
  | renameBean r => exact EditSet.ofList_nodup _
  | beanVisibility => exact EditSet.ofList_nodup _
  | actuatorMediaType => exact hsome _ _
  | multipartSizes => exact hsome _ _

/-- What a recipe plans for a linked tree keeps it tidy. -/
theorem grafts {recipe : Recipe} {batch : Batch} {i : Nat} {f : SourceFile}
    (hi : batch[i]? = some f) (hf : f.Linked)
    (hfault : (recipe.editSet batch i f).fault? f = none) :
    (recipe.editSet batch i f).Grafts f := by
  have hnodup := recipe.nodup_editSet batch i f
  cases recipe with
  | renameBean r => exact RenameBean.grafts hi hf hfault
  | beanVisibility => exact BeanVisibility.grafts f
  | actuatorMediaType => exact ActuatorMediaType.grafts hf hnodup hfault
  | multipartSizes => exact MultipartSizes.grafts hnodup hfault

/-- A run keeps trees tidy. -/
theorem tidy_of_run {recipe : Recipe} {batch : Batch} {changes : List FileChange}
    (h : recipe.run batch = .ok changes) {i : Nat} {f g : SourceFile} (hi : batch[i]? = some f)
    (hg : (merge batch changes)[i]? = some g) {aside : Set NodeId}
    (htidy : f.store.Tidy f.root aside) :
    g.store.Tidy g.root aside := by
  rw [run_eq] at h
  obtain ⟨f', hf', happly⟩ := exists_of_getElem?_merge h hg
  obtain rfl := Option.some.inj (hi.symm.trans hf')
  have hf : f.Linked := htidy.linked f.path f.types
  exact ((grafts hi hf (EditSet.apply_eq_ok happly).1).tidy hf htidy happly).2.1

end Recipe

end JavaRecipes
