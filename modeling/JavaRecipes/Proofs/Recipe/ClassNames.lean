import JavaRecipes.Proofs.Recipe.Carried
import JavaRecipes.Proofs.Recipe.Planned

/-!
The names of classes after renaming a bean. In one file they stay apart, since each rename is
checked against the types of that file; of another file nothing is asked. `declaredOnce_iff` tells
when the declarations of a whole batch stay apart.
-/

namespace JavaRecipes

namespace Edit

/-- An edit that renames a class. -/
def IsClassRename (e : Edit) : Prop := ∃ source target, e = .renameClassType source target

/-- An edit that puts a string literal in. -/
def AddsString (e : Edit) : Prop := ∃ r value, e = .replaceExpression r (.stringLiteral value)

end Edit

/-! ## Edits that rename no class -/

namespace Draft

private theorem applyEdit_className? {d d' : Draft} {e : Edit} (he : e.IsRenaming)
    (hno : ¬ e.IsClassRename) (h : d.applyEdit e = .ok d') {id : TypeId} {name : String}
    (hname : d.types.className? id = some name) : d'.types.className? id = some name := by
  rcases applyEdit_types he h with
    ⟨-, ht⟩ | ⟨_, _, -, ht⟩ | ⟨source, target, heq, -⟩ | ⟨_, _, -, ht⟩
  · rwa [ht]
  · rwa [ht, TypeTable.className?_internClass _ _ _ (TypeTable.lt_size_of_className? hname)]
  · exact absurd ⟨source, target, heq⟩ hno
  · rwa [TypeTable.className?_renameMethod ht]

theorem applyEdits_className? {d d' : Draft} {es : List Edit} (hes : ∀ e ∈ es, e.IsRenaming)
    (hno : ∀ e ∈ es, ¬ e.IsClassRename) (h : d.applyEdits es = .ok d') {id : TypeId} {name : String}
    (hname : d.types.className? id = some name) : d'.types.className? id = some name := by
  induction es generalizing d with
  | nil =>
    obtain rfl := Except.ok.inj h
    exact hname
  | cons e es ih =>
    obtain ⟨d₁, he, hrest⟩ := applyEdits_cons h
    have hname₁ :=
      applyEdit_className? (hes e List.mem_cons_self) (hno e List.mem_cons_self) he hname
    exact ih (fun a ha => hes a (List.mem_cons_of_mem _ ha))
      (fun a ha => hno a (List.mem_cons_of_mem _ ha)) hrest hname₁

/-- The only name that can come up is that of strings. -/
private theorem applyEdit_lookupClass {d d' : Draft} {e : Edit} (he : e.IsRenaming)
    (hno : ¬ e.IsClassRename) (h : d.applyEdit e = .ok d') (name : String) :
    d'.types.lookupClass name = d.types.lookupClass name ∨
      (name = stringClass ∧ e.AddsString ∧ d.types.lookupClass name = none ∧
        (d'.types.lookupClass name).isSome) := by
  rcases applyEdit_types he h with
    ⟨-, ht⟩ | ⟨r, value, heq, ht⟩ | ⟨source, target, heq, -⟩ | ⟨_, _, -, ht⟩
  · exact .inl (by rw [ht])
  · rw [ht, TypeTable.lookupClass_internClass]
    by_cases hs : stringClass = name
    · subst hs
      cases hl : d.types.lookupClass stringClass with
      | none => exact .inr ⟨rfl, ⟨r, value, heq⟩, rfl, by simp⟩
      | some id => exact .inl (by simp [TypeTable.internClass, hl])
    · exact .inl (by rw [if_neg hs])
  · exact absurd ⟨source, target, heq⟩ hno
  · exact .inl (TypeTable.lookupClass_renameMethod ht name)

theorem applyEdits_lookupClass {d d' : Draft} {es : List Edit} (hes : ∀ e ∈ es, e.IsRenaming)
    (hno : ∀ e ∈ es, ¬ e.IsClassRename) (h : d.applyEdits es = .ok d') (name : String) :
    d'.types.lookupClass name = d.types.lookupClass name ∨
      (name = stringClass ∧ (∃ e ∈ es, e.AddsString) ∧ d.types.lookupClass name = none ∧
        (d'.types.lookupClass name).isSome) := by
  induction es generalizing d with
  | nil =>
    obtain rfl := Except.ok.inj h
    exact .inl rfl
  | cons e es ih =>
    obtain ⟨d₁, he, hrest⟩ := applyEdits_cons h
    have hfirst :=
      applyEdit_lookupClass (hes e List.mem_cons_self) (hno e List.mem_cons_self) he name
    have hthen := ih (fun a ha => hes a (List.mem_cons_of_mem _ ha))
      (fun a ha => hno a (List.mem_cons_of_mem _ ha)) hrest
    rcases hfirst with hsame | ⟨hs, hadds, hnone, hsome⟩
    · rw [hsame] at hthen
      rcases hthen with hthen | ⟨hs, ⟨a, ha, hadds⟩, hnone, hsome⟩
      · exact .inl hthen
      · exact .inr ⟨hs, ⟨a, List.mem_cons_of_mem _ ha, hadds⟩, hnone, hsome⟩
    · refine .inr ⟨hs, ⟨e, List.mem_cons_self, hadds⟩, hnone, ?_⟩
      rcases hthen with hthen | ⟨-, -, hnone₁, -⟩
      · rwa [hthen]
      · rw [hnone₁] at hsome
        simp at hsome

/-- And it does, where a literal is put in. -/
theorem applyEdits_stringClass {d d' : Draft} {es : List Edit} (hes : ∀ e ∈ es, e.IsRenaming)
    (hno : ∀ e ∈ es, ¬ e.IsClassRename) (h : d.applyEdits es = .ok d')
    (hadds : ∃ e ∈ es, e.AddsString) : (d'.types.lookupClass stringClass).isSome := by
  induction es generalizing d with
  | nil => simp at hadds
  | cons e es ih =>
    obtain ⟨d₁, he, hrest⟩ := applyEdits_cons h
    have hes' : ∀ a ∈ es, a.IsRenaming := fun a ha => hes a (List.mem_cons_of_mem _ ha)
    have hno' : ∀ a ∈ es, ¬ a.IsClassRename := fun a ha => hno a (List.mem_cons_of_mem _ ha)
    obtain ⟨a, ha, haddsa⟩ := hadds
    rcases List.mem_cons.1 ha with rfl | ha
    · obtain ⟨r, value, rfl⟩ := haddsa
      obtain ⟨_, _, -, -, ht⟩ := applyEdit_replaceExpression he
      have hsome : (d₁.types.lookupClass stringClass).isSome := by
        rw [ht, TypeTable.lookupClass_internClass, if_pos rfl]
        rfl
      rcases applyEdits_lookupClass hes' hno' hrest stringClass with hsame | ⟨-, -, -, hsome'⟩
      · rwa [hsame]
      · exact hsome'
    · exact ih hes' hno' hrest ⟨a, ha, haddsa⟩

/-- The edits of class renames, one after another. -/
theorem applyEdits_renameClassType (d : Draft) (cs : List ClassRename) :
    d.applyEdits (cs.map fun c => .renameClassType c.source c.target) =
      .ok { d with types := ClassRename.renameAll d.types cs } := by
  induction cs generalizing d with
  | nil => rfl
  | cons c cs ih =>
    simp only [List.map_cons, applyEdits, applyEdit]
    rw [ih]
    rfl

end Draft

/-! ## The edits of a file in order -/

namespace RenameBean

variable {r : RenameBean} {batch : Batch} {i : Nat} {f g : SourceFile}

/-- The class renames of a run that a file knows the classes of. -/
def knownRenames (r : RenameBean) (batch : Batch) (f : SourceFile) : List ClassRename :=
  (r.plan batch).classes.filter fun c => (f.types.lookupClass c.source).isSome

private theorem classIds_map_snd :
    (classIds (r.plan batch) f).map (·.2) = r.knownRenames batch f := by
  unfold classIds knownRenames
  induction (r.plan batch).classes with
  | nil => rfl
  | cons c cs ih =>
    cases hl : f.types.lookupClass c.source with
    | none => simp [hl, ih]
    | some id => simp [hl, ih]

private theorem not_isClassRename_beanEdits {b : FoundBean} {e : Edit} (he : e ∈ r.beanEdits f b) :
    ¬ e.IsClassRename := by
  rintro ⟨source, target, rfl⟩
  unfold beanEdits at he
  split at he
  · obtain ⟨slot, -, he⟩ := List.mem_flatMap.1 he
    obtain ⟨-, he⟩ := mem_slotEdits.1 he
    split at he <;> simp at he
  · simp at he
  · split at he
    · simp at he
    · simp at he

private theorem not_isClassRename_nodeEdits {plan : RenamePlan} {n : NodeId} {e : Edit}
    (he : e ∈ r.nodeEdits plan f n) : ¬ e.IsClassRename := by
  rintro ⟨source, target, rfl⟩
  unfold nodeEdits at he
  split at he
  · unfold callEdits at he
    split at he
    · simp at he
    · split at he <;> simp at he
  · obtain ⟨-, _, _, -, he⟩ := mem_identifierEdits.1 he
    simp at he
  · obtain ⟨_, _, _, _, _, -, -, -, -, he⟩ := mem_constructorEdits he
    simp at he
  · unfold referenceEdits at he
    split at he
    · obtain ⟨slot, -, he⟩ := List.mem_flatMap.1 he
      obtain ⟨-, he⟩ := mem_slotEdits.1 he
      split at he <;> simp at he
    · simp at he
  · simp at he

/-- The edits of the beans come first, then the class renames, then the edits of the nodes. -/
private theorem editSet_edits (hf : batch[i]? = some f) :
    ∃ before after, (r.editSet batch i f).edits = before ++
        ((r.knownRenames batch f).map fun c => .renameClassType c.source c.target) ++ after ∧
      (∀ e, e ∈ before ↔ ∃ b ∈ r.beansOf i f, e ∈ r.beanEdits f b) ∧
      (∀ e ∈ before, ¬ e.IsClassRename) ∧ ∀ e ∈ after, ¬ e.IsClassRename := by
  have hbefore : ∀ e, e ∈ (EditSet.ofList
      (((r.plan batch).beans.filter (·.file == i)).flatMap (r.beanEdits f))).edits ↔
        ∃ b ∈ r.beansOf i f, e ∈ r.beanEdits f b := by
    intro e
    simp only [EditSet.mem_ofList, List.mem_flatMap, List.mem_filter, beq_iff_eq, mem_plan_beans hf]
  have hno : ∀ e ∈ (EditSet.ofList
      (((r.plan batch).beans.filter (·.file == i)).flatMap (r.beanEdits f))).edits,
        ¬ e.IsClassRename := by
    intro e he
    obtain ⟨b, -, he⟩ := (hbefore e).1 he
    exact not_isClassRename_beanEdits he
  have hnodup : ((r.knownRenames batch f).map fun c =>
      Edit.renameClassType c.source c.target).Nodup := by
    refine List.Nodup.map ?_ ((nodup_distinct _).filter _)
    rintro ⟨s, t⟩ ⟨s', t'⟩ h
    simpa using h
  have hmiddle := EditSet.pushAll_eq_append hnodup fun e he hmem => by
    obtain ⟨c, -, rfl⟩ := List.mem_map.1 he
    exact hno _ hmem ⟨_, _, rfl⟩
  obtain ⟨after, hafter, hmem⟩ := EditSet.exists_pushAll_eq_append
    ((EditSet.ofList (((r.plan batch).beans.filter (·.file == i)).flatMap (r.beanEdits f))).pushAll
      ((r.knownRenames batch f).map fun c => Edit.renameClassType c.source c.target))
    (f.nodes.flatMap (r.nodeEdits (r.plan batch) f))
  refine ⟨_, after, ?_, hbefore, hno, ?_⟩
  · rw [← hmiddle, ← hafter]
    unfold editSet fileEdits EditSet.ofList EditSet.pushAll
    rw [List.foldl_append, List.foldl_append, ← classIds_map_snd, List.map_map]
    rfl
  · intro e he
    obtain ⟨n, -, he⟩ := List.mem_flatMap.1 (hmem e he)
    exact not_isClassRename_nodeEdits he

/-- The name that comes up in a file before its classes are renamed: that of strings, if a bean of
the file is named through a constant and the file has no strings yet. -/
def newNames (r : RenameBean) (i : Nat) (f : SourceFile) : List String :=
  if (r.beansOf i f).any (fun b => match b.source with
      | .explicit slots => slots.any fun slot => slot.aliased && slot.name = some r.oldName
      | .implicit _ => false) && (f.types.lookupClass stringClass).isNone then [stringClass] else []

/-- The class renames that a file goes through with. -/
def carriedRenames (r : RenameBean) (batch : Batch) (i : Nat) (f : SourceFile) : List ClassRename :=
  ClassRename.carryOut (r.newNames i f) [] (r.knownRenames batch f)

/-- The name that a run leaves the class entry `id` of a file, which has the given name. An entry
that the index does not know is not renamed. -/
def settledName (r : RenameBean) (batch : Batch) (i : Nat) (f : SourceFile) (id : TypeId)
    (name : String) : String :=
  if f.types.lookupClass name = some id then
    ClassRename.settle (r.carriedRenames batch i f) name
  else name

/-- The check of the edits makes all class renames fit the file. -/
private theorem fits_of_mem_knownRenames (hf : batch[i]? = some f)
    (h : (r.editSet batch i f).Renames f g) {c : ClassRename} (hc : c ∈ r.knownRenames batch f) :
    c.Fits f.types := by
  have hsome := (List.mem_filter.1 hc).2
  refine ⟨hsome, fun hne => ?_⟩
  obtain ⟨id, hid⟩ := Option.isSome_iff_exists.1 hsome
  have hmem : .renameClassType c.source c.target ∈ (r.editSet batch i f).edits := by
    rw [mem_editSet hf]
    have hids : (id, c) ∈ classIds (r.plan batch) f :=
      List.mem_filterMap.2 ⟨c, (List.mem_filter.1 hc).1, by simp [hid]⟩
    exact .classType hids
  have hfault := (EditSet.fault?_eq_none (EditSet.apply_eq_ok h.applied).1).1 _ hmem
  simp only [Edit.fault?] at hfault
  split at hfault
  · simp at hfault
  · rename_i hfree
    cases ht : f.types.lookupClass c.target with
    | none => rfl
    | some id' => exact absurd ⟨hne, hsome, by simp [ht]⟩ hfree

private theorem addsString_iff {before : List Edit}
    (hbefore : ∀ e, e ∈ before ↔ ∃ b ∈ r.beansOf i f, e ∈ r.beanEdits f b) :
    (∃ e ∈ before, e.AddsString) ↔
      (r.beansOf i f).any fun b => match b.source with
        | .explicit slots => slots.any fun slot => slot.aliased && slot.name = some r.oldName
        | .implicit _ => false := by
  rw [List.any_eq_true]
  constructor
  · rintro ⟨e, he, a, value, rfl⟩
    obtain ⟨b, hb, he⟩ := (hbefore _).1 he
    refine ⟨b, hb, ?_⟩
    unfold beanEdits at he
    split at he
    · rename_i slots hsource
      obtain ⟨slot, hslot, he⟩ := List.mem_flatMap.1 he
      obtain ⟨hname, heq⟩ := mem_slotEdits.1 he
      rw [hsource, List.any_eq_true]
      refine ⟨slot, hslot, ?_⟩
      split at heq
      · rename_i haliased
        simp [haliased, hname]
      · simp at heq
    · simp at he
    · split at he
      · simp at he
      · simp at he
  · rintro ⟨b, hb, hany⟩
    split at hany
    · rename_i slots hsource
      obtain ⟨slot, hslot, hcond⟩ := List.any_eq_true.1 hany
      simp only [Bool.and_eq_true, decide_eq_true_eq] at hcond
      refine ⟨_, (hbefore _).2 ⟨b, hb, ?_⟩, slot.slot.node, r.newName, rfl⟩
      simp only [beanEdits, hsource]
      refine List.mem_flatMap.2 ⟨slot, hslot, mem_slotEdits.2 ⟨hcond.2, ?_⟩⟩
      rw [if_pos hcond.1]
    · simp at hany

/-- What a run makes of the name of a class. -/
theorem className?_of_renames (hf : batch[i]? = some f) (h : (r.editSet batch i f).Renames f g)
    (hsound : f.types.IndexSound) {id : TypeId} {name : String}
    (hname : f.types.className? id = some name) :
    g.types.className? id = some (r.settledName batch i f id name) := by
  obtain ⟨before, after, hedits, hbefore, hnobefore, hnoafter⟩ := editSet_edits (r := r) hf
  obtain ⟨-, d, hd, rfl⟩ := EditSet.apply_eq_ok h.applied
  have honly := h.only
  rw [hedits] at hd honly
  obtain ⟨d₂, hd₂, hlast⟩ := Draft.applyEdits_append hd
  obtain ⟨d₁, hfirst, hmiddle⟩ := Draft.applyEdits_append hd₂
  rw [Draft.applyEdits_renameClassType] at hmiddle
  have hd₂' := (Except.ok.inj hmiddle).symm
  have honly₁ : ∀ e ∈ before, e.IsRenaming := fun e he => honly e (by simp [he])
  have honly₂ : ∀ e ∈ after, e.IsRenaming := fun e he => honly e (by simp [he])
  -- before the classes are renamed at most one name has come up
  have hstage : ClassRename.Stage f.types d₁.types (r.newNames i f) [] := by
    have hlookup := Draft.applyEdits_lookupClass honly₁ hnobefore hfirst
    constructor
    · intro key _ _ hkey
      rcases hlookup key with hsame | ⟨rfl, hadds, hnone, -⟩
      · exact hsame
      · refine absurd ?_ hkey
        rw [newNames, if_pos]
        · exact List.mem_singleton.2 rfl
        · rw [Bool.and_eq_true]
          refine ⟨(addsString_iff hbefore).1 hadds, ?_⟩
          simp only at hnone
          rw [hnone]
          rfl
    · intro key hkey
      simp at hkey
    · rintro key (hkey | hkey)
      · simp at hkey
      · rw [newNames] at hkey
        split at hkey
        · rename_i hcond
          rw [List.mem_singleton.1 hkey]
          have hadds := (addsString_iff hbefore).2 (Bool.and_eq_true_iff.1 hcond).1
          exact Draft.applyEdits_stringClass honly₁ hnobefore hfirst hadds
        · simp at hkey
    · intro id key hkey
      rw [Draft.applyEdits_className? honly₁ hnobefore hfirst hkey]
      simp [ClassRename.settle]
  have htaken : ∀ key ∈ r.newNames i f, f.types.lookupClass key = none := by
    intro key hkey
    rw [newNames] at hkey
    split at hkey
    · rename_i hcond
      rw [List.mem_singleton.1 hkey]
      exact Option.isNone_iff_eq_none.1 (Bool.and_eq_true_iff.1 hcond).2
    · simp at hkey
  have hfits : ∀ c ∈ r.knownRenames batch f, c.Fits f.types :=
    fun c hc => fits_of_mem_knownRenames hf h hc
  have hrenamed := hstage.renameAll hsound (by simp) htaken hfits
  have hname₂ : d₂.types.className? id = some (r.settledName batch i f id name) := by
    rw [hd₂']
    exact hrenamed.names id name hname
  exact Draft.applyEdits_className? honly₂ hnoafter hlast hname₂

end RenameBean

/-! ## Declarations -/

/-- A reachable declaration of the class `name`, whose entry is `id`. -/
def SourceFile.Declares (f : SourceFile) (n : NodeId) (id : TypeId) (name : String) : Prop :=
  f.Reaches n ∧ (∃ d, f.store.data? (some n) = some (.classDeclaration d) ∧ d.type = some id) ∧
    f.types.className? id = some name

/-- Class declarations are of classes, if they have a type. -/
def SourceFile.DeclaresClasses (f : SourceFile) : Prop :=
  ∀ n d id, f.Reaches n → f.store.data? (some n) = some (.classDeclaration d) → d.type = some id →
    (f.types.className? id).isSome

/-- No two declarations of a batch are of classes of one name. -/
def DeclaredOnce (batch : Batch) : Prop :=
  ∀ (i j : Nat) (f f' : SourceFile) (n n' : NodeId) (id id' : TypeId) (name : String),
    batch[i]? = some f → batch[j]? = some f' → f.Declares n id name → f'.Declares n' id' name →
    i = j ∧ n = n'

namespace RenameBean

variable {r : RenameBean} {batch : Batch} {i : Nat} {f g : SourceFile}

/-- A declaration that is reachable after a run is one of the class that it was of before. -/
private theorem declares_iff_of_renames (hf : batch[i]? = some f)
    (h : (r.editSet batch i f).Renames f g) (hindexed : f.types.Indexed)
    (hclasses : f.DeclaresClasses) {n : NodeId} {id : TypeId} {name : String} :
    g.Declares n id name ↔
      g.Reaches n ∧ ∃ old, f.Declares n id old ∧ name = r.settledName batch i f id old := by
  constructor
  · rintro ⟨hn, ⟨d', hd', hid⟩, hname⟩
    have hlt : n < f.store.size := h.lt_size_of_kind hd' (by simp [NodeData.kind])
    have hreach := h.reaches hn hlt
    obtain ⟨x, hx⟩ := Store.exists_data? hlt
    have hkind := h.kind_eq hx hd'
    cases x <;> simp [NodeData.kind] at hkind
    rename_i d
    obtain ⟨y, hy, hslots⟩ := h.data?_of_kind hx (by simp [NodeData.kind]) (by simp [NodeData.kind])
    obtain ⟨d'', rfl, htype⟩ := hslots.of_classDeclaration
    rw [hd'] at hy
    simp only [Option.some.injEq, NodeData.classDeclaration.injEq] at hy
    subst hy
    rw [htype] at hid
    obtain ⟨old, hold⟩ := Option.isSome_iff_exists.1 (hclasses n d id hreach hx hid)
    refine ⟨hn, old, ⟨hreach, ⟨d, hx, hid⟩, hold⟩, ?_⟩
    rw [className?_of_renames hf h hindexed.sound hold] at hname
    exact (Option.some.inj hname).symm
  · rintro ⟨hn, old, ⟨hreach, ⟨d, hd, hid⟩, hold⟩, rfl⟩
    obtain ⟨y, hy, hslots⟩ := h.data?_of_kind hd (by simp [NodeData.kind]) (by simp [NodeData.kind])
    obtain ⟨d', rfl, htype⟩ := hslots.of_classDeclaration
    refine ⟨hn, ⟨d', hy, ?_⟩, className?_of_renames hf h hindexed.sound hold⟩
    rw [htype, hid]

theorem settledName_cases (id : TypeId) (name : String) :
    r.settledName batch i f id name = name ∨
      ∃ c ∈ r.carriedRenames batch i f, c.source = name ∧
        r.settledName batch i f id name = c.target := by
  unfold settledName
  split
  · exact ClassRename.settle_cases _ _
  · exact .inl rfl

/-- In one file a run keeps different names different: no rename goes to a name that is there, and
no two of them to one name. -/
theorem settledName_injective (hf : batch[i]? = some f) (h : (r.editSet batch i f).Renames f g)
    (hindexed : f.types.Indexed) {id id' : TypeId} {name name' : String}
    (hname : f.types.className? id = some name) (hname' : f.types.className? id' = some name')
    (heq : r.settledName batch i f id name = r.settledName batch i f id' name') : name = name' := by
  have hstart : (([] : List ClassRename).map ClassRename.target).Nodup ∧
      ∀ c ∈ ([] : List ClassRename), c.source ≠ c.target := by simp
  obtain ⟨hnodup, hmem⟩ := ClassRename.carryOut_spec hstart
  have hfree : ∀ c ∈ r.carriedRenames batch i f, ∀ id, f.types.className? id ≠ some c.target := by
    intro c hc id hid
    obtain ⟨hne, hknown⟩ := hmem c hc
    have hc' : c ∈ r.knownRenames batch f := by simpa using hknown
    have hnone := (fits_of_mem_knownRenames hf h hc').2 hne
    have hsome := hindexed.complete id _ hid
    rw [hnone] at hsome
    simp at hsome
  rcases settledName_cases id name with hkept | ⟨c, hc, hsource, htarget⟩
  · rcases settledName_cases id' name' with hkept' | ⟨c', hc', -, htarget'⟩
    · rwa [hkept, hkept'] at heq
    · rw [hkept, htarget'] at heq
      exact absurd (heq ▸ hname) (hfree c' hc' id)
  · rcases settledName_cases id' name' with hkept' | ⟨c', hc', hsource', htarget'⟩
    · rw [hkept', htarget] at heq
      exact absurd (heq ▸ hname') (hfree c hc id')
    · rw [htarget, htarget'] at heq
      rw [← hsource, ← hsource', List.inj_on_of_nodup_map hnodup hc hc' heq]

/-- Where no class name is declared twice, a run that goes through keeps it so just if it leaves
different names to the classes of any two declarations of different files that are still
reachable. -/
theorem declaredOnce_iff {changes : List FileChange} (hrun : r.run batch = .ok changes)
    (hindexed : ∀ f ∈ batch, f.types.Indexed) (hclasses : ∀ f ∈ batch, f.DeclaresClasses)
    (honce : DeclaredOnce batch) :
    DeclaredOnce (merge batch changes) ↔
      ∀ (i j : Nat) (f f' g g' : SourceFile) (n n' : NodeId) (id id' : TypeId)
      (name name' : String),
        i ≠ j → batch[i]? = some f → batch[j]? = some f' →
        (merge batch changes)[i]? = some g → (merge batch changes)[j]? = some g' →
        f.Declares n id name → f'.Declares n' id' name' → g.Reaches n → g'.Reaches n' →
        r.settledName batch i f id name ≠ r.settledName batch j f' id' name' := by
  have hiff : ∀ {i f g}, batch[i]? = some f → (merge batch changes)[i]? = some g →
      ∀ {n id name}, g.Declares n id name ↔
        g.Reaches n ∧ ∃ old, f.Declares n id old ∧ name = r.settledName batch i f id old := by
    intro i f g hf hg n id name
    have hmem := List.mem_of_getElem? hf
    exact declares_iff_of_renames hf (renames_of_run hrun hf hg) (hindexed f hmem) (hclasses f hmem)
  constructor
  · intro hafter i j f f' g g' n n' id id' name name' hij hf hf' hg hg' hdecl hdecl' hn hn' heq
    have h := (hiff hf hg).2 ⟨hn, name, hdecl, rfl⟩
    have h' := (hiff hf' hg').2 ⟨hn', name', hdecl', heq⟩
    exact hij (hafter i j g g' n n' id id' _ hg hg' h h').1
  · intro hapart i j g g' n n' id id' name hg hg' hdecl hdecl'
    obtain ⟨f, hf, -⟩ := exists_of_getElem?_merge hrun hg
    obtain ⟨f', hf', -⟩ := exists_of_getElem?_merge hrun hg'
    obtain ⟨hn, old, hold, rfl⟩ := (hiff hf hg).1 hdecl
    obtain ⟨hn', old', hold', heq⟩ := (hiff hf' hg').1 hdecl'
    by_cases hij : i = j
    · subst hij
      rw [hf] at hf'
      obtain rfl := Option.some.inj hf'
      have hmem := List.mem_of_getElem? hf
      have hsame := settledName_injective hf (renames_of_run hrun hf hg) (hindexed f hmem)
        hold.2.2 hold'.2.2 heq
      subst hsame
      exact honce i i f f n n' id id' _ hf hf hold hold'
    · exact absurd heq
        (hapart i j f f' g g' n n' id id' old old' hij hf hf' hg hg' hold hold' hn hn')

/-! ## Two files -/

/-- A file with one class, which has an annotation. -/
def classFile (name annotation : String) : SourceFile :=
  let d : Draft := {}
  let (type, d) := d.classType name
  let (mark, d) := d.annotationUse annotation []
  let (c, d) := d.classDeclaration {
    annotations := [some mark], name := ClassName.simple name, type := some type }
  d.finish "Sample.java" none [] [some c]

private theorem pair_getElem? {a b c : SourceFile} {i : Nat} (h : [a, b][i]? = some c) :
    (i = 0 ∧ c = a) ∨ (i = 1 ∧ c = b) := by
  match i, h with
  | 0, h => exact .inl ⟨rfl, by simpa using h.symm⟩
  | 1, h => exact .inr ⟨rfl, by simpa using h.symm⟩

/-- The node 4 declares the class of entry 0, and nothing else declares a class. -/
def SingleClass (f : SourceFile) (name : String) : Prop :=
  (∀ n < f.store.size, ∀ d ∈ f.store.class? (some n), n = 4 ∧ d.type = some 0) ∧
    f.types.className? 0 = some name ∧ f.types.reindex = f.types

instance (f : SourceFile) (name : String) : Decidable (SingleClass f name) :=
  inferInstanceAs (Decidable (_ ∧ _ ∧ _))

namespace SingleClass

variable {name name' : String}

theorem declares (h : SingleClass f name) {n : NodeId} {id : TypeId} {key : String}
    (hdecl : f.Declares n id key) : n = 4 ∧ id = 0 ∧ key = name := by
  obtain ⟨hn, ⟨d, hd, hid⟩, hkey⟩ := hdecl
  obtain ⟨rfl, htype⟩ := h.1 n hn.lt_size d (Store.class?_eq_some.2 hd)
  rw [htype] at hid
  obtain rfl := Option.some.inj hid
  rw [h.2.1] at hkey
  exact ⟨rfl, rfl, (Option.some.inj hkey).symm⟩

theorem declares_self (h : SingleClass f name) (hf : f.Linked) (hnode : 4 ∈ f.nodes)
    (hclass : (f.store.class? (some 4)).isSome) : f.Declares 4 0 name := by
  obtain ⟨d, hd⟩ := Option.isSome_iff_exists.1 hclass
  have hn := (SourceFile.mem_nodes_iff hf.acyclic 4).1 hnode
  exact ⟨hn, ⟨d, Store.class?_eq_some.1 hd, (h.1 4 hn.lt_size d hd).2⟩, h.2.1⟩

theorem declaresClasses (h : SingleClass f name) : f.DeclaresClasses := by
  intro n d id hn hd hid
  rw [(h.1 n hn.lt_size d (Store.class?_eq_some.2 hd)).2] at hid
  rw [← Option.some.inj hid, h.2.1]
  rfl

theorem indexed (h : SingleClass f name) : f.types.Indexed := by
  rw [← h.2.2]
  exact TypeTable.indexed_reindex _

theorem declaredOnce (hf : SingleClass f name) (hg : SingleClass g name') (hne : name ≠ name') :
    DeclaredOnce [f, g] := by
  intro i j a b n n' id id' key ha hb hda hdb
  rcases pair_getElem? ha with ⟨rfl, rfl⟩ | ⟨rfl, rfl⟩ <;>
    rcases pair_getElem? hb with ⟨rfl, rfl⟩ | ⟨rfl, rfl⟩
  · exact ⟨rfl, (hf.declares hda).1.trans (hf.declares hdb).1.symm⟩
  · exact absurd ((hf.declares hda).2.2.symm.trans (hg.declares hdb).2.2) hne
  · exact absurd ((hf.declares hdb).2.2.symm.trans (hg.declares hda).2.2) hne
  · exact ⟨rfl, (hg.declares hda).1.trans (hg.declares hdb).1.symm⟩

end SingleClass

def componentFile : SourceFile := classFile "sample.Foo" "org.springframework.stereotype.Component"

def fooRename : RenameBean := { typeFilter := none, oldName := "foo", newName := "bar" }

def bazFile : SourceFile := classFile "sample.Baz" "java.lang.Deprecated"

/-- A class that gets a name nobody has stays alone. -/
theorem declaredOnce_bazFile : ∃ changes,
    fooRename.run [componentFile, bazFile] = .ok changes ∧
      DeclaredOnce (merge [componentFile, bazFile] changes) := by
  have hfoo : SingleClass componentFile "sample.Foo" := by decide +kernel
  have hbaz : SingleClass bazFile "sample.Baz" := by decide +kernel
  have hrun : fooRename.run [componentFile, bazFile] =
      .ok ((fooRename.run [componentFile, bazFile]).toOption.getD []) := by decide +kernel
  have hnew : fooRename.settledName [componentFile, bazFile] 0 componentFile 0 "sample.Foo" =
      "sample.Bar" := by decide +kernel
  have hkept : fooRename.settledName [componentFile, bazFile] 1 bazFile 0 "sample.Baz" =
      "sample.Baz" := by decide +kernel
  refine ⟨_, hrun, (declaredOnce_iff hrun ?_ ?_ (hfoo.declaredOnce hbaz (by decide))).2 ?_⟩
  · intro f hf
    simp only [List.mem_cons, List.not_mem_nil, or_false] at hf
    rcases hf with rfl | rfl
    · exact hfoo.indexed
    · exact hbaz.indexed
  · intro f hf
    simp only [List.mem_cons, List.not_mem_nil, or_false] at hf
    rcases hf with rfl | rfl
    · exact hfoo.declaresClasses
    · exact hbaz.declaresClasses
  · intro i j f f' g g' n n' id id' name name' hij hf hf' _ _ hd hd' _ _
    rcases pair_getElem? hf with ⟨rfl, rfl⟩ | ⟨rfl, rfl⟩ <;>
      rcases pair_getElem? hf' with ⟨rfl, rfl⟩ | ⟨rfl, rfl⟩
    · exact absurd rfl hij
    · obtain ⟨-, rfl, rfl⟩ := hfoo.declares hd
      obtain ⟨-, rfl, rfl⟩ := hbaz.declares hd'
      rw [hnew, hkept]
      decide
    · obtain ⟨-, rfl, rfl⟩ := hbaz.declares hd
      obtain ⟨-, rfl, rfl⟩ := hfoo.declares hd'
      rw [hnew, hkept]
      decide
    · exact absurd rfl hij

def barFile : SourceFile := classFile "sample.Bar" "java.lang.Deprecated"

def renamedComponentFile : SourceFile :=
  (merge [componentFile, barFile]
    ((fooRename.run [componentFile, barFile]).toOption.getD [])).headD componentFile

/-- A class that gets the name of a class of another file does not. -/
theorem declaredOnce_barFile : DeclaredOnce [componentFile, barFile] ∧
    ∃ changes, fooRename.run [componentFile, barFile] = .ok changes ∧
      ¬ DeclaredOnce (merge [componentFile, barFile] changes) := by
  have hfoo : SingleClass componentFile "sample.Foo" := by decide +kernel
  have hbar : SingleClass barFile "sample.Bar" := by decide +kernel
  have hrun : fooRename.run [componentFile, barFile] =
      .ok ((fooRename.run [componentFile, barFile]).toOption.getD []) := by decide +kernel
  refine ⟨hfoo.declaredOnce hbar (by decide), _, hrun, fun honce => ?_⟩
  have hmerge : merge [componentFile, barFile]
      ((fooRename.run [componentFile, barFile]).toOption.getD []) =
        [renamedComponentFile, barFile] := by decide +kernel
  rw [hmerge] at honce
  have hrenamed : renamedComponentFile.Declares 4 0 "sample.Bar" := by
    refine SingleClass.declares_self (by decide +kernel) ?_ (by decide +kernel) (by decide +kernel)
    exact SourceFile.linked_of_forall (by decide +kernel) (by decide +kernel)
  have hother : barFile.Declares 4 0 "sample.Bar" := by
    refine hbar.declares_self ?_ (by decide +kernel) (by decide +kernel)
    exact SourceFile.linked_of_forall (by decide +kernel) (by decide +kernel)
  have hsame := honce 0 1 _ _ 4 4 0 0 "sample.Bar" rfl rfl hrenamed hother
  exact absurd hsame.1 (by decide)

end RenameBean

end JavaRecipes
