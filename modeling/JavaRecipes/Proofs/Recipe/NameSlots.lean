import JavaRecipes.Proofs.Recipe.NameValues

/-!
The values that renaming a bean changes. A slot is selected when it has the old name and either
names a bean or refers to one; after a run every selected slot has the new name, and all other
strings of the file are as they were (`renamed_slots`).
-/

namespace JavaRecipes

namespace Store

/-- An empty slot stands for nothing. -/
theorem exists_of_slotValue {s : Store} {types : TypeTable} {r : Ref} {v : String × Bool}
    (h : s.slotValue types r = some v) : ∃ n, r = some n := by
  cases r with
  | none => simp [slotValue, stringLiteral?, literal?, referencedVariable, data?, get?] at h
  | some n => exact ⟨n, rfl⟩

/-- A value that is no name for a constant is a string itself. -/
theorem stringLiteral?_of_slotValue {s : Store} {types : TypeTable} {r : Ref} {value : String}
    (h : s.slotValue types r = some (value, false)) : s.stringLiteral? r = some value := by
  unfold slotValue at h
  split at h
  · rename_i value' hvalue
    simp only [Option.some.injEq, Prod.mk.injEq, and_true] at h
    rw [hvalue, h]
  · split at h
    · simp at h
    · simp only at h
      split at h
      · simp at h
      · obtain ⟨_, -, heq⟩ := Option.map_eq_some_iff.1 h
        simp at heq

/-- A name for a constant names a variable. -/
theorem referencedVariable_of_slotValue {s : Store} {types : TypeTable} {r : Ref} {value : String}
    (h : s.slotValue types r = some (value, true)) : (s.referencedVariable r).isSome := by
  unfold slotValue at h
  split at h
  · simp at h
  · split at h
    · simp at h
    · rename_i hvar
      simpa [Option.isSome_iff_ne_none] using hvar

theorem slotValue_of_namedSlot {s : Store} {types : TypeTable} {slot : AttributeSlot}
    {name : String} (h : (s.namedSlot types slot).name = some name) :
    s.slotValue types slot.node = some (name, (s.namedSlot types slot).aliased) := by
  simp only [namedSlot] at h ⊢
  obtain ⟨⟨value, aliased⟩, hvalue, rfl⟩ := Option.map_eq_some_iff.1 h
  simp [hvalue]

end Store

namespace SourceFile

/-- A parameter of a method, or a statement of a block that a class holds. -/
def IsMember (f : SourceFile) (n : NodeId) : Prop :=
  (∃ p d, f.Reaches p ∧ f.store.data? (some p) = some (.methodDeclaration d) ∧
      some n ∈ d.parameters) ∨
    ∃ c d body block, f.Reaches c ∧ f.store.data? (some c) = some (.classDeclaration d) ∧
      f.store.Holds c body ∧ f.store.data? (some body) = some (.block block) ∧
      some n ∈ block.statements

/-- In a linked tree the parent links show the same. -/
theorem Linked.isParameterOrField_iff {f : SourceFile} (hf : f.Linked) {n : NodeId}
    (hn : f.Reaches n) : f.store.isParameterOrField (some n) ↔ f.IsMember n := by
  -- a node that is linked to another one is held by it
  have hup : ∀ {m k : NodeId}, f.Reaches m → f.store.parent (some m) = some k →
      f.Reaches k ∧ f.store.Holds k m := by
    intro m k hm hparent
    cases hm with
    | start hroot _ =>
      rw [← hroot, hf.root] at hparent
      simp at hparent
    | @step k' _ hk' hh _ =>
      rw [hf.link hk' hh] at hparent
      obtain rfl := Option.some.inj hparent
      exact ⟨hk', hh⟩
  constructor
  · intro h
    unfold Store.isParameterOrField at h
    split at h
    · rename_i d hd
      obtain ⟨p, hp⟩ := Store.exists_of_data? hd
      rw [hp] at hd
      exact .inl ⟨p, d, (hup hn hp).1, hd, by simpa using h⟩
    · rename_i block hblock
      obtain ⟨body, hbody⟩ := Store.exists_of_data? hblock
      rw [hbody] at hblock h
      obtain ⟨hreach, hheld⟩ := hup hn hbody
      obtain ⟨d, hd⟩ := Option.isSome_iff_exists.1 h
      have hd' := Store.class?_eq_some.1 hd
      obtain ⟨c, hc⟩ := Store.exists_of_data? hd'
      rw [hc] at hd'
      obtain ⟨hcreach, hcheld⟩ := hup hreach hc
      refine .inr ⟨c, d, body, block, hcreach, hd', hcheld, hblock, ?_⟩
      simpa [Store.holds_iff hblock, NodeData.children,
        NodeData.childFields, ChildField.children] using hheld
    · simp at h
  · rintro (⟨p, d, hp, hd, hmem⟩ | ⟨c, d, body, block, hc, hd, hheld, hblock, hmem⟩)
    · have hheld : f.store.Holds p n := by
        simp [Store.holds_iff hd, NodeData.children, NodeData.childFields,
          ChildField.children, hmem]
      simp [Store.isParameterOrField, hf.link hp hheld, hd, hmem]
    · have hbody := hf.reaches hc hheld
      have hheld' : f.store.Holds body n := by
        simpa [Store.holds_iff hblock, NodeData.children,
          NodeData.childFields, ChildField.children] using hmem
      simp [Store.isParameterOrField, hf.link hbody hheld', hblock, Store.isClassBody,
        hf.link hc hheld, Store.class?_eq_some.2 hd]

/-- The slot of a container in `f` has the node `b` in `g`. -/
def SlotBecomes (f g : SourceFile) (slot : AttributeSlot) (b : Ref) : Prop :=
  ∃ k : Nat, (f.store.children slot.container)[k]? = some slot.node ∧
    (g.store.children slot.container)[k]? = some b

end SourceFile

namespace RenameBean

/-- A qualifier of this type refers to a bean: it is the filter, or without one the type of a bean
of the batch that has the old name. -/
def LinkedType (r : RenameBean) (batch : Batch) (typeName : String) : Prop :=
  match r.typeFilter with
  | some filter => typeName = filter
  | none => ∃ f ∈ batch, ∃ b x, f.DeclaresBean b x typeName ∧ f.HasName x b.marker r.oldName

/-- A slot that stands for the old name, and names a bean that passes the filter or is a value of a
qualifier that refers to one. -/
inductive Selected (r : RenameBean) (batch : Batch) (f : SourceFile) (slot : AttributeSlot) : Prop
  | bean {b : Bean} {x : NodeData} {typeName : String} : f.DeclaresBean b x typeName →
    r.Passes typeName → f.NameSlot x.annotations b.marker slot →
    f.StandsFor slot.node r.oldName → Selected r batch f slot
  | reference {n : NodeId} {d : VariableDeclarations} {typeName : String} : f.Reaches n →
    f.store.data? (some n) = some (.variableDeclarations d) → f.IsMember n →
    f.HasType d.typeExpr typeName → r.LinkedType batch typeName →
    f.QualifierSlot d.annotations slot → f.StandsFor slot.node r.oldName → Selected r batch f slot

variable {r : RenameBean} {batch : Batch} {i : Nat} {f g : SourceFile}

theorem Selected.standsFor {slot : AttributeSlot} (h : r.Selected batch f slot) :
    f.StandsFor slot.node r.oldName := by
  cases h with
  | bean _ _ _ hvalue => exact hvalue
  | reference _ _ _ _ _ _ hvalue => exact hvalue

theorem mem_linkedTypes (hbatch : ∀ f ∈ batch, f.Acyclic) {typeName : String} :
    typeName ∈ (r.plan batch).linkedTypes ↔ r.LinkedType batch typeName := by
  unfold plan LinkedType
  cases hfilter : r.typeFilter with
  | some filter => simp
  | none =>
    have hpasses : r.Passes typeName := by simp [Passes, hfilter]
    simp only [List.mem_map, mem_findBeans]
    constructor
    · rintro ⟨b, ⟨j, f, hf, hb⟩, rfl⟩
      have hmem := List.mem_of_getElem? hf
      obtain ⟨x, hdeclares, -, hnamed⟩ :=
        (exists_mem_beansOf_iff j (hbatch f hmem)).1 ⟨b, hb, rfl, rfl⟩
      exact ⟨f, hmem, b.bean, x, hdeclares, hnamed⟩
    · rintro ⟨f, hmem, bean, x, hdeclares, hnamed⟩
      obtain ⟨j, hf⟩ := List.getElem?_of_mem hmem
      obtain ⟨b, hb, -, htype⟩ :=
        (exists_mem_beansOf_iff j (hbatch f hmem)).2 ⟨x, hdeclares, hpasses, hnamed⟩
      exact ⟨b, ⟨j, f, hf, hb⟩, htype⟩

/-- A selected slot is planned to be changed. -/
private theorem Selected.exists_planned (hbatch : ∀ f ∈ batch, f.Linked) (hf : batch[i]? = some f)
    {slot : AttributeSlot} (h : r.Selected batch f slot) :
    ∃ s, r.Planned batch i f s ∧ s.name = some r.oldName ∧ s.slot = slot := by
  have hlinked := hbatch f (List.mem_of_getElem? hf)
  have hac := hlinked.acyclic
  cases h with
  | @bean b x typeName hdeclares hpasses hslot hvalue =>
    have hold := SourceFile.map_slotValue_eq_some_iff.2 hvalue
    have hnamed := SourceFile.HasName.value hslot hvalue
    obtain ⟨found, hfound, rfl, -⟩ :=
      (exists_mem_beansOf_iff i hac).2 ⟨x, hdeclares, hpasses, hnamed⟩
    have hsource := nameSource_of_mem_beansOf hfound
    cases hs : found.source with
    | explicit slots =>
      rw [hs] at hsource
      have hmem : f.store.namedSlot f.types slot ∈ slots :=
        (SourceFile.mem_explicit_iff hdeclares.data hsource).2 ⟨hslot, rfl⟩
      exact ⟨_, .bean hfound hs hmem, hold, rfl⟩
    | implicit name =>
      rw [hs, SourceFile.nameSource_eq_implicit_iff hdeclares.data hdeclares.marked] at hsource
      exact absurd hslot (hsource.1 slot)
  | @reference n d typeName hn hd hplace htyped htype hslot hvalue =>
    obtain ⟨type, htype', hname⟩ := SourceFile.typeOf_iff.2 htyped
    refine ⟨f.store.namedSlot f.types slot, .reference ((SourceFile.mem_nodes_iff hac n).2 hn) hd
      ((hlinked.isParameterOrField_iff hn).2 hplace) ?_
      (SourceFile.mem_qualifierSlots_iff.2 ⟨hslot, rfl⟩),
      SourceFile.map_slotValue_eq_some_iff.2 hvalue, rfl⟩
    simp [htype', hname, mem_linkedTypes fun f hf => (hbatch f hf).acyclic, htype]

private theorem selected_of_planned (hbatch : ∀ f ∈ batch, f.Linked) (hf : batch[i]? = some f)
    {s : NamedSlot} (h : r.Planned batch i f s) (hold : s.name = some r.oldName) :
    r.Selected batch f s.slot := by
  have hlinked := hbatch f (List.mem_of_getElem? hf)
  have hac := hlinked.acyclic
  have hvalue : f.StandsFor s.slot.node r.oldName := by
    rw [(h.container hac).1] at hold
    exact SourceFile.map_slotValue_eq_some_iff.1 hold
  cases h with
  | @bean b slots _ hb hsource hmem =>
    obtain ⟨x, hdeclares, hpasses, -⟩ := (exists_mem_beansOf_iff i hac).1 ⟨b, hb, rfl, rfl⟩
    have hsource' := hsource ▸ nameSource_of_mem_beansOf hb
    have hslot := ((SourceFile.mem_explicit_iff hdeclares.data hsource').1 hmem).1
    exact .bean hdeclares hpasses hslot hvalue
  | @reference n d _ hn hd hplace htypes hmem =>
    have hreach := (SourceFile.mem_nodes_iff hac n).1 hn
    obtain ⟨typeName, hbind, hcontains⟩ := (Option.any_eq_true _ _).1 htypes
    obtain ⟨type, htype, hname⟩ := Option.bind_eq_some_iff.1 hbind
    rw [List.contains_iff_mem, mem_linkedTypes fun f hf => (hbatch f hf).acyclic] at hcontains
    exact .reference hreach hd ((hlinked.isParameterOrField_iff hreach).1 hplace)
      (SourceFile.typeOf_iff.1 ⟨type, htype, hname⟩) hcontains
      (SourceFile.mem_qualifierSlots_iff.1 hmem).1 hvalue

/-- The selected slots are those that a run plans to change. -/
theorem selected_iff (hbatch : ∀ f ∈ batch, f.Linked) (hf : batch[i]? = some f)
    {slot : AttributeSlot} : r.Selected batch f slot ↔
      ∃ s, r.Planned batch i f s ∧ s.name = some r.oldName ∧ s.slot = slot := by
  constructor
  · exact fun h => h.exists_planned hbatch hf
  · rintro ⟨s, hplanned, hold, rfl⟩
    exact selected_of_planned hbatch hf hplanned hold

/-! ## Slots after a run -/

/-- A planned value is planned to be changed. -/
private theorem mem_edits_of_planned (hf : batch[i]? = some f) {slot : NamedSlot}
    (hslot : r.Planned batch i f slot) (hname : slot.name = some r.oldName) :
    (if slot.aliased then .replaceExpression slot.slot.node (.stringLiteral r.newName)
      else .setLiteral slot.slot.node (.string r.newName)) ∈ (r.editSet batch i f).edits :=
  (mem_editSet hf).2 (.slot hslot (mem_slotEdits.2 ⟨hname, rfl⟩))

/-- Whatever settles in the slot of a planned value is a string with the new name. -/
theorem stringLiteral?_of_settles (hlinked : f.Linked) (hf : batch[i]? = some f)
    (h : (r.editSet batch i f).Renames f g) {slot : NamedSlot} (hslot : r.Planned batch i f slot)
    (hname : slot.name = some r.oldName) {b : Ref}
    (hb : Settles (r.editSet batch i f).edits f g slot.slot.node b) :
    g.store.stringLiteral? b = some r.newName := by
  have hedit := mem_edits_of_planned hf hslot hname
  cases haliased : slot.aliased with
  | true =>
    rw [haliased, if_pos rfl] at hedit
    cases hb with
    | kept hno => exact absurd hedit (hno r.newName)
    | @filled value m type hmem _ hdata =>
      have heq := h.edit_eq hmem hedit rfl rfl
      simp only [Edit.replaceExpression.injEq, Snippet.stringLiteral.injEq, true_and] at heq
      subst heq
      exact Store.stringLiteral?_eq_some.2 ⟨type, hdata⟩
  | false =>
    rw [haliased, if_neg (by simp)] at hedit
    cases hb with
    | kept hno =>
      have heq := (hslot.container hlinked.acyclic).1
      rw [heq] at hname
      have hvalue := Store.slotValue_of_namedSlot hname
      rw [← heq, haliased] at hvalue
      obtain ⟨type, hdata⟩ :=
        Store.stringLiteral?_eq_some.1 (Store.stringLiteral?_of_slotValue hvalue)
      obtain ⟨n, hn⟩ := Store.exists_of_data? hdata
      rw [hn] at hdata hedit ⊢
      exact Store.stringLiteral?_eq_some.2 ⟨type, h.literal_of_mem hedit hdata⟩
    | filled hmem _ _ =>
      have heq := h.edit_eq hmem hedit rfl rfl
      simp at heq

/-- An old literal that is a string of the result got the new name in a selected slot, or was that
string before. -/
private theorem selected_or_kept_of_lt (hbatch : ∀ f ∈ batch, f.Linked) (hf : batch[i]? = some f)
    (h : (r.editSet batch i f).Renames f g) {n : NodeId} {value : String} {type : Option TypeId}
    (hlt : n < f.store.size) (hreach : f.Reaches n)
    (hdata : g.store.data? (some n) = some (.literal { value := .string value, type })) :
    (∃ slot, r.Selected batch f slot ∧ value = r.newName ∧ f.SlotBecomes g slot (some n)) ∨
      (f.Reaches n ∧ f.store.stringLiteral? (some n) = some value) := by
  have hlinked := hbatch f (List.mem_of_getElem? hf)
  obtain ⟨x, hx⟩ := Store.exists_data? hlt
  have hkind := h.kind_eq hx hdata
  cases x <;> simp [NodeData.kind] at hkind
  rename_i d
  by_cases hset : ∃ v, .setLiteral (some n) v ∈ (r.editSet batch i f).edits
  · obtain ⟨v, hv⟩ := hset
    obtain ⟨rfl, slot, hslot, hname, haliased, hnode⟩ :=
      planned_of_setLiteral ((mem_editSet hf).1 hv)
    rw [h.literal_of_mem hv hx] at hdata
    simp only [Option.some.injEq, NodeData.literal.injEq, Literal.mk.injEq,
      LiteralValue.string.injEq] at hdata
    refine .inl ⟨slot.slot, (selected_iff hbatch hf).2 ⟨slot, hslot, hname, rfl⟩,
      hdata.1.symm, ?_⟩
    obtain ⟨-, c, y, hc, hcreach, hy, hmem⟩ := hslot.container hlinked.acyclic
    rw [hnode] at hmem
    have hchild : some n ∈ f.store.children (some c) := by
      rw [Store.children_eq_of_data? hy]
      exact NodeData.mem_children_of_mem_valueSlots hmem
    obtain ⟨k, b, hka, hkb, hsettled⟩ := h.exists_settled hlinked hcreach hchild
    refine ⟨k, by rw [hc, hnode, hka], ?_⟩
    rw [hc, hkb]
    cases hsettled with
    | kept => rfl
    | filled hrep _ _ =>
      have heq := h.edit_eq hrep hv rfl rfl
      simp at heq
  · have hno : ∀ v, .setLiteral (some n) v ∉ (r.editSet batch i f).edits :=
      fun v hv => hset ⟨v, hv⟩
    rw [h.literal_of_not_mem hno hx] at hdata
    refine .inr ⟨hreach, Store.stringLiteral?_eq_some.2 ⟨type, ?_⟩⟩
    rw [hx, hdata]

/-- A file whose root came later has nothing in reach, and then nothing is planned. -/
private theorem not_new_root (hf : batch[i]? = some f) (hac : f.Acyclic)
    (h : (r.editSet batch i f).Renames f g) {n : NodeId} {d : Literal} (hroot : g.root = some n)
    (hnew : f.store.size ≤ n) (hdata : g.store.data? (some n) = some (.literal d)) : False := by
  have hnone : ∀ k, ¬ f.Reaches k := by
    intro k hk
    obtain ⟨top, htop, hreach⟩ := hk.exists_root
    rw [h.root_eq, htop] at hroot
    exact absurd (Option.some.inj hroot ▸ hreach.lt_size) (Nat.not_lt.2 hnew)
  obtain ⟨_, _, _, hmem, -⟩ := h.data?_new hnew hdata
  obtain ⟨-, slot, hslot, -⟩ := planned_of_replaceExpression ((mem_editSet hf).1 hmem)
  obtain ⟨-, c, -, -, hc, -⟩ := hslot.container hac
  exact hnone c hc

/-- A new string is the new name in a selected slot. -/
private theorem selected_of_new (hbatch : ∀ f ∈ batch, f.Linked) (hf : batch[i]? = some f)
    (h : (r.editSet batch i f).Renames f g) {n : NodeId} {value : String} {type : Option TypeId}
    (hn : g.Reaches n) (hnew : f.store.size ≤ n)
    (hdata : g.store.data? (some n) = some (.literal { value := .string value, type })) :
    ∃ slot, r.Selected batch f slot ∧ value = r.newName ∧ f.SlotBecomes g slot (some n) := by
  have hlinked := hbatch f (List.mem_of_getElem? hf)
  have hac := hlinked.acyclic
  cases hn with
  | start hroot _ => exact (not_new_root hf hac h hroot hnew hdata).elim
  | @step k _ hk hh _ =>
    have hkreach := h.reaches hk (h.holder_lt_size hh)
    obtain ⟨j, a, hja, hjn, hsettled⟩ := h.exists_unsettled hlinked hkreach hh
    have ha : a ∈ f.store.children (some k) := List.mem_of_getElem? hja
    cases hsettled with
    | kept => exact absurd (hlinked.lt_size hkreach ha) (Nat.not_lt.2 hnew)
    | @filled value' _ type' hmem _ hdata' =>
      rw [hdata] at hdata'
      simp only [Option.some.injEq, NodeData.literal.injEq, Literal.mk.injEq,
        LiteralValue.string.injEq] at hdata'
      obtain ⟨heq, slot, hslot, hname, -, hnode⟩ :=
        planned_of_replaceExpression ((mem_editSet hf).1 hmem)
      simp only [Snippet.stringLiteral.injEq] at heq
      refine ⟨slot.slot, (selected_iff hbatch hf).2 ⟨slot, hslot, hname, rfl⟩,
        hdata'.1.trans heq, j, ?_⟩
      obtain ⟨-, c, y, hc, hcreach, hy, hvalues⟩ := hslot.container hac
      obtain ⟨m, -, hm⟩ := h.within _ hmem _ rfl
      rw [hnode, hm] at hvalues
      have hheld := (Store.holds_iff hy).2 (NodeData.mem_children_of_mem_valueSlots hvalues)
      rw [hm] at ha
      obtain rfl := hlinked.holder_eq hkreach hcreach ha hheld
      rw [hc, hnode]
      exact ⟨hja, hjn⟩

/-- A string of the result is the new name in a selected slot, or was there before. -/
private theorem selected_or_kept (hbatch : ∀ f ∈ batch, f.Linked) (hf : batch[i]? = some f)
    (h : (r.editSet batch i f).Renames f g) {n : NodeId} {value : String} (hn : g.Reaches n)
    (hvalue : g.store.stringLiteral? (some n) = some value) :
    (∃ slot, r.Selected batch f slot ∧ value = r.newName ∧ f.SlotBecomes g slot (some n)) ∨
      (f.Reaches n ∧ f.store.stringLiteral? (some n) = some value) := by
  obtain ⟨type, hdata⟩ := Store.stringLiteral?_eq_some.1 hvalue
  rcases Nat.lt_or_ge n f.store.size with hlt | hnew
  · exact selected_or_kept_of_lt hbatch hf h hlt (h.reaches hn hlt) hdata
  · exact .inl (selected_of_new hbatch hf h hn hnew hdata)

/-- What is not below a selected slot stays reachable. -/
private theorem reaches_of_not_below (hbatch : ∀ f ∈ batch, f.Linked) (hf : batch[i]? = some f)
    (h : (r.editSet batch i f).Renames f g) {n : NodeId} (hn : f.Reaches n)
    (hfree : ∀ slot, r.Selected batch f slot → ¬ f.store.Reaches slot.node n) : g.Reaches n := by
  have hlinked := hbatch f (List.mem_of_getElem? hf)
  have hsize : ∀ {m}, f.Reaches m → m < g.store.size := by
    intro m hm
    obtain ⟨x, hx⟩ := Store.exists_data? hm.lt_size
    obtain ⟨y, hy, -⟩ := h.data? hx
    exact Store.lt_size_of_data? hy
  induction hn with
  | start hroot hlt => exact .start (h.root_eq.trans hroot) (hsize (.start hroot hlt))
  | @step k m hk hh hlt ih =>
    have hkg := ih fun slot hslot hbelow => hfree slot hslot (.step hbelow hh hlt)
    refine .step hkg ?_ (hsize (.step hk hh hlt))
    obtain ⟨j, b, -, hjb, hsettled⟩ := h.exists_settled hlinked hk hh
    cases hsettled with
    | kept => exact List.mem_of_getElem? hjb
    | filled hmem _ _ =>
      obtain ⟨-, slot, hslot, hname, -, hnode⟩ :=
        planned_of_replaceExpression ((mem_editSet hf).1 hmem)
      have hselected := (selected_iff hbatch hf).2 ⟨slot, hslot, hname, rfl⟩
      exact absurd (.start hnode hlt) (hfree slot.slot hselected)

/-- After a run on linked trees every selected slot holds a string with the new name. Every string
that can be reached then is one of these or was there before, and every string that was there before
stays, unless it is in a selected slot or below one. -/
theorem renamed_slots {changes : List FileChange} (hrun : r.run batch = .ok changes)
    (hlinked : ∀ f ∈ batch, f.Linked) (hf : batch[i]? = some f)
    (hg : (merge batch changes)[i]? = some g) :
    (∀ slot, r.Selected batch f slot →
      ∃ b, f.SlotBecomes g slot b ∧ g.store.stringLiteral? b = some r.newName) ∧
    (∀ n value, g.Reaches n → g.store.stringLiteral? (some n) = some value →
      (∃ slot, r.Selected batch f slot ∧ value = r.newName ∧ f.SlotBecomes g slot (some n)) ∨
        (f.Reaches n ∧ f.store.stringLiteral? (some n) = some value)) ∧
    ∀ n value, f.Reaches n → f.store.stringLiteral? (some n) = some value →
      (∀ slot, r.Selected batch f slot → ¬ f.store.Reaches slot.node n) →
      g.Reaches n ∧ g.store.stringLiteral? (some n) = some value := by
  have hl := hlinked f (List.mem_of_getElem? hf)
  have h := renames_of_run hrun hf hg
  refine ⟨?_, fun n value hn => selected_or_kept hlinked hf h hn, ?_⟩
  · intro slot hslot
    obtain ⟨s, hs, hname, rfl⟩ := (selected_iff hlinked hf).1 hslot
    obtain ⟨heq, c, x, hc, hcreach, hx, hmem⟩ := hs.container hl.acyclic
    have hchild : s.slot.node ∈ f.store.children (some c) := by
      rw [heq] at hname
      obtain ⟨m, hm⟩ := Store.exists_of_slotValue (Store.slotValue_of_namedSlot hname)
      rw [hm] at hmem ⊢
      rw [Store.children_eq_of_data? hx]
      exact NodeData.mem_children_of_mem_valueSlots hmem
    obtain ⟨k, b, hka, hkb, hsettled⟩ := h.exists_settled hl hcreach hchild
    refine ⟨b, ⟨k, by rw [hc, hka], by rw [hc, hkb]⟩, ?_⟩
    exact stringLiteral?_of_settles hl hf h hs hname hsettled
  · intro n value hn hvalue hfree
    obtain ⟨type, hdata⟩ := Store.stringLiteral?_eq_some.1 hvalue
    have hno : ∀ v, .setLiteral (some n) v ∉ (r.editSet batch i f).edits := by
      intro v hv
      obtain ⟨-, slot, hslot, hname, -, hnode⟩ := planned_of_setLiteral ((mem_editSet hf).1 hv)
      have hselected := (selected_iff hlinked hf).2 ⟨slot, hslot, hname, rfl⟩
      exact hfree slot.slot hselected (.start hnode hn.lt_size)
    refine ⟨reaches_of_not_below hlinked hf h hn hfree, ?_⟩
    exact Store.stringLiteral?_eq_some.2 ⟨type, h.literal_of_not_mem hno hdata⟩

/-- A component with two names, of which one is to be changed. -/
def namedFile : SourceFile :=
  let d : Draft := {}
  let (type, d) := d.classType "sample.Foo"
  let (first, d) := d.stringLiteral "foo"
  let (second, d) := d.stringLiteral "other"
  let (array, d) := d.newArray [some first, some second]
  let (mark, d) := d.annotationUse "org.springframework.stereotype.Component" [some array]
  let (c, d) := d.classDeclaration {
    annotations := [some mark], name := "Foo", type := some type }
  d.finish "Foo.java" (some "sample") [] [some c]

/-- A class that asks for the component by this name: for a field with a string, for a parameter
with an attribute that names a constant. -/
def clientFile : SourceFile :=
  let d : Draft := {}
  let (string, d) := d.classType stringClass
  let (foo, d) := d.classType "sample.Foo"
  let (client, d) := d.classType "sample.Client"
  let (use, d) := d.methodType {
    declaring := client, name := "use", returns := none, params := [foo] }
  let (value, d) := d.stringLiteral "foo"
  let (constant, entries, d) := d.declaration [] [{ kind := .isFinal }] (some string)
    [{ name := "NAME", owner := some client, initializer := some value }]
  let (mark, d) := d.annotationWithValue qualifierMarker "foo"
  let (field, _, d) := d.declaration [some mark] [] (some foo)
    [{ name := "first", owner := some client }]
  let (name, d) := d.variableRef (entries.headD 0)
  let (argument, d) := d.assignment "value" (some name)
  let (mark, d) := d.annotationUse qualifierMarker [some argument]
  let (parameter, _, d) := d.declaration [some mark] [] (some foo)
    [{ name := "second", owner := some use }]
  let (body, d) := d.block []
  let (method, d) := d.method {
    name := "use", parameters := [some parameter], body := some body, type := some use }
  let (c, d) := d.classDeclaration {
    name := "Client", members := [some constant, some field, some method], type := some client }
  d.finish "Client.java" (some "sample") [] [some c]

def namedRename : RenameBean := { typeFilter := none, oldName := "foo", newName := "bar" }

/-- The component, as its class declares it. -/
private theorem declaresBean_namedFile : namedFile.DeclaresBean ⟨.stereotype, 7, some 4⟩
    (.classDeclaration {
      annotations := [some 4], modifiers := [], kind := .ordinary, name := some 5, body := some 6
      type := some 0 }) "sample.Foo" := by
  have hmark : namedFile.IsMark "org.springframework.stereotype.Component" (some 4) :=
    ⟨{ annotationType := some 3, arguments := [some 2] }, 2, by decide +kernel, by decide +kernel,
      by decide +kernel⟩
  refine ⟨SourceFile.reaches_of_mem_nodes (by decide +kernel), by decide +kernel, ?_, ?_⟩
  · exact .stereotype (show stereotypes = [] ++ _ :: _ from rfl) ⟨[], [], rfl, hmark, by simp⟩
      (by simp)
  · exact .stereotype rfl (by decide +kernel)

/-- It is named by the first element of the array. -/
private theorem nameSlot_namedFile : namedFile.NameSlot [some 4] (some 4)
    { node := some 0, container := some 2, element := some 0 } := by
  have hnone : namedFile.store.qualifierSlots namedFile.types [some 4] = [] := by decide +kernel
  have hmark : namedFile.store.data? (some 4) =
      some (.annotationUse { annotationType := some 3, arguments := [some 2] }) := by
    decide +kernel
  have harray : namedFile.store.data? (some 2) =
      some (.newArray { elements := [some 0, some 1], type := none }) := by decide +kernel
  have hgives : namedFile.Gives (some 4) "value" (some 4) (some 2) :=
    .bare hmark List.mem_cons_self harray (by simp)
  exact .marker (SourceFile.qualifierSlots_eq_nil_iff.1 hnone) (.inl rfl)
    (.element hgives harray rfl)

private theorem standsFor_namedFile : namedFile.StandsFor (some 0) "foo" :=
  .literal (show namedFile.store.data? (some 0) =
    some (.literal { value := .string "foo", type := some 1 }) by decide +kernel)

/-- So it is what the qualifiers of the client refer to. -/
private theorem linkedType_namedFile :
    namedRename.LinkedType [namedFile, clientFile] "sample.Foo" :=
  ⟨namedFile, List.mem_cons_self, _, _, declaresBean_namedFile,
    .value nameSlot_namedFile standsFor_namedFile⟩

/-- The annotation of the field and that of the parameter are qualifiers. -/
private theorem isMark_clientFile :
    clientFile.IsMark qualifierMarker (some 7) ∧ clientFile.IsMark qualifierMarker (some 16) :=
  ⟨⟨{ annotationType := some 6, arguments := [some 5] }, 5, by decide +kernel, by decide +kernel,
      by decide +kernel⟩,
    ⟨{ annotationType := some 15, arguments := [some 14] }, 5, by decide +kernel,
      by decide +kernel, by decide +kernel⟩⟩

private theorem linked_namedFile : namedFile.Linked :=
  SourceFile.linked_of_forall (by decide +kernel) (by decide +kernel)

private theorem linked_clientFile : clientFile.Linked :=
  SourceFile.linked_of_forall (by decide +kernel) (by decide +kernel)

/-- The qualifier of the field has a string, which is the old name. -/
private theorem selected_field : namedRename.Selected [namedFile, clientFile] clientFile
    { node := some 5, container := some 7, element := none } := by
  have hfield : clientFile.store.data? (some 11) = some (.variableDeclarations {
      annotations := [some 7], modifiers := [], typeExpr := some 8, declared := [some 10] }) := by
    decide +kernel
  have hmark : clientFile.store.data? (some 7) =
      some (.annotationUse { annotationType := some 6, arguments := [some 5] }) := by
    decide +kernel
  have hliteral : clientFile.store.data? (some 5) =
      some (.literal { value := .string "foo", type := some 0 }) := by decide +kernel
  have hreach : clientFile.Reaches 11 := SourceFile.reaches_of_mem_nodes (by decide +kernel)
  refine .reference hreach hfield
    ((linked_clientFile.isParameterOrField_iff hreach).1 (by decide +kernel)) ?_
    linkedType_namedFile ⟨some 7, ⟨[], [], rfl, isMark_clientFile.1, by simp⟩, ?_⟩
    (.literal hliteral)
  · exact ⟨.identifier { name := "Foo", type := some 1, variableType := none }, 1,
      by decide +kernel, rfl, by decide +kernel⟩
  · exact .single (.bare hmark List.mem_cons_self hliteral (by simp)) (by simp [hliteral])

/-- That of the parameter has an attribute with a name for a constant, which is the old name. -/
private theorem selected_parameter : namedRename.Selected [namedFile, clientFile] clientFile
    { node := some 12, container := some 14, element := none } := by
  have hparameter : clientFile.store.data? (some 20) = some (.variableDeclarations {
      annotations := [some 16], modifiers := [], typeExpr := some 17, declared := [some 19] }) := by
    decide +kernel
  have hmark : clientFile.store.data? (some 16) =
      some (.annotationUse { annotationType := some 15, arguments := [some 14] }) := by
    decide +kernel
  have hassign : clientFile.store.data? (some 14) =
      some (.assignment { target := some 13, value := some 12, type := some 0 }) := by
    decide +kernel
  have htarget : clientFile.store.data? (some 13) =
      some (.identifier { name := "value", type := none, variableType := none }) := by
    decide +kernel
  have hname : clientFile.store.data? (some 12) =
      some (.identifier { name := "NAME", type := some 0, variableType := some 4 }) := by
    decide +kernel
  have hvariable : clientFile.store.referencedVariable (some 12) = some 4 := by decide +kernel
  have hconstant : clientFile.store.data? (clientFile.store.resolve clientFile.types (some 12)
      (some 12)) = some (.literal { value := .string "foo", type := some 0 }) := by decide +kernel
  have hreach : clientFile.Reaches 20 := SourceFile.reaches_of_mem_nodes (by decide +kernel)
  refine .reference hreach hparameter
    ((linked_clientFile.isParameterOrField_iff hreach).1 (by decide +kernel)) ?_
    linkedType_namedFile ⟨some 16, ⟨[], [], rfl, isMark_clientFile.2, by simp⟩, ?_⟩
    (.constant hvariable hconstant)
  · exact ⟨.identifier { name := "Foo", type := some 1, variableType := none }, 1,
      by decide +kernel, rfl, by decide +kernel⟩
  · exact .single (.assigned hmark List.mem_cons_self hassign htarget) (by simp [hname])

def namedChanges : List FileChange := (namedRename.run [namedFile, clientFile]).toOption.getD []

/-- One element of the array is changed alone, and with it the string and the name for a constant
that refer to the component. -/
theorem renamed_slots_clientFile : ∃ f g,
    namedRename.run [namedFile, clientFile] = .ok namedChanges ∧
    merge [namedFile, clientFile] namedChanges = [f, g] ∧
    (∃ b, namedFile.SlotBecomes f { node := some 0, container := some 2, element := some 0 } b ∧
      f.store.stringLiteral? b = some "bar") ∧
    (f.Reaches 1 ∧ f.store.stringLiteral? (some 1) = some "other") ∧
    (∃ b, clientFile.SlotBecomes g { node := some 5, container := some 7, element := none } b ∧
      g.store.stringLiteral? b = some "bar") ∧
    (∃ b, clientFile.SlotBecomes g { node := some 12, container := some 14, element := none } b ∧
      g.store.stringLiteral? b = some "bar") ∧
    ∀ n value, g.Reaches n → g.store.stringLiteral? (some n) = some value →
      value = "bar" ∨ clientFile.store.stringLiteral? (some n) = some value := by
  have hrun : namedRename.run [namedFile, clientFile] = .ok namedChanges := by decide +kernel
  obtain ⟨f, g, hmerge⟩ : ∃ f g, merge [namedFile, clientFile] namedChanges = [f, g] :=
    ⟨_, _, rfl⟩
  have hall : ∀ f ∈ [namedFile, clientFile], f.Linked := by
    simp [linked_namedFile, linked_clientFile]
  obtain ⟨hfirst, -, hother⟩ := renamed_slots hrun hall (i := 0) rfl (by rw [hmerge]; rfl)
  obtain ⟨hslots, hstrings, -⟩ := renamed_slots hrun hall (i := 1) rfl (by rw [hmerge]; rfl)
  refine ⟨f, g, hrun, hmerge, hfirst _ ?_, ?_, hslots _ selected_field,
    hslots _ selected_parameter, ?_⟩
  · exact .bean declaresBean_namedFile (by simp [Passes, namedRename]) nameSlot_namedFile
      standsFor_namedFile
  · refine hother 1 "other" (SourceFile.reaches_of_mem_nodes (by decide +kernel))
      (by decide +kernel) fun slot hslot hreach => ?_
    -- no node but the first element stands for the old name, and nothing is below that
    have hvalues : ∀ n < namedFile.store.size,
        (namedFile.store.slotValue namedFile.types (some n)).map (·.1) = some "foo" → n = 0 := by
      decide +kernel
    have hleaf : namedFile.store.children (some 0) = [] := by decide +kernel
    obtain ⟨n, hn, hstart⟩ := hreach.exists_root
    have hzero := hvalues n hstart.lt_size
      (SourceFile.map_slotValue_eq_some_iff.2 (hn ▸ hslot.standsFor))
    rw [hn, hzero] at hreach
    rcases hreach.eq_or_child with h | ⟨_, h, -⟩
    · cases h
    · simp [hleaf] at h
  · intro n value hn hvalue
    rcases hstrings n value hn hvalue with ⟨-, -, hnew, -⟩ | ⟨-, hkept⟩
    · exact .inl hnew
    · exact .inr hkept

end RenameBean

end JavaRecipes
