import JavaRecipes.Proofs.Edit.Outcome
import JavaRecipes.Proofs.Types.Index

/-!
Renaming edits and the type table. Methods get the names that edits have for them, a class name that
no edit mentions stays with its class, and the index stays sound.
-/

namespace JavaRecipes

namespace Edit

/-- What an edit does to the method entry `id`. -/
def retitle (id : TypeId) (m : MethodType) : Edit → MethodType
  | .renameMethodType id' name => if id' = id then { m with name } else m
  | _ => m

/-- An edit has nothing to do with the class name. -/
def Spares (e : Edit) (name : String) : Prop :=
  ∀ source target, e = .renameClassType source target → name ≠ source ∧ name ≠ target

end Edit

namespace Draft

/-- What a renaming edit does to the types. -/
theorem applyEdit_types {d d' : Draft} {e : Edit} (he : e.IsRenaming) (h : d.applyEdit e = .ok d') :
    ((∀ id name, e ≠ .renameMethodType id name) ∧ d'.types = d.types) ∨
    (∃ r value, e = .replaceExpression r (.stringLiteral value) ∧
      d'.types = (d.types.internClass stringClass none).2) ∨
    (∃ source target, e = .renameClassType source target ∧
      d.types.renameClass source target = some d'.types) ∨
    ∃ id name, e = .renameMethodType id name ∧ d.types.renameMethod id name = some d'.types := by
  cases he with
  | setLiteral r value =>
    obtain rfl := Except.ok.inj h
    exact .inl ⟨by simp, rfl⟩
  | replaceExpression r value =>
    obtain ⟨_, _, -, -, htypes⟩ := applyEdit_replaceExpression h
    exact .inr (.inl ⟨r, value, rfl, htypes⟩)
  | renameIdentifier r name =>
    obtain rfl := Except.ok.inj h
    exact .inl ⟨by simp, rfl⟩
  | renameClassType source target =>
    obtain rfl := Except.ok.inj h
    cases hr : d.types.renameClass source target with
    | none => exact .inl ⟨by simp, by simp⟩
    | some t => exact .inr (.inr (.inl ⟨source, target, rfl, by simpa using hr⟩))
  | renameMethodType id name =>
    simp only [applyEdit] at h
    split at h
    · simp at h
    · rename_i t ht
      obtain rfl := Except.ok.inj h
      exact .inr (.inr (.inr ⟨id, name, rfl, ht⟩))

theorem applyEdit_indexSound {d d' : Draft} {e : Edit} (he : e.IsRenaming)
    (h : d.applyEdit e = .ok d') (hd : d.types.IndexSound) : d'.types.IndexSound := by
  rcases applyEdit_types he h with ⟨-, ht⟩ | ⟨_, _, -, ht⟩ | ⟨_, _, -, ht⟩ | ⟨_, _, -, ht⟩
  · rwa [ht]
  · rw [ht]
    exact hd.internClass _ _
  · exact hd.renameClass ht
  · exact hd.renameMethod ht

theorem applyEdit_methodAt? {d d' : Draft} {e : Edit} (he : e.IsRenaming)
    (h : d.applyEdit e = .ok d') (id : TypeId) :
    d'.types.methodAt? id = (d.types.methodAt? id).map fun m => e.retitle id m := by
  have hsame : (∀ m, e.retitle id m = m) →
      (d.types.methodAt? id).map (fun m => e.retitle id m) = d.types.methodAt? id := by
    intro hm
    simp [hm]
  rcases applyEdit_types he h with
    ⟨hne, ht⟩ | ⟨_, _, rfl, ht⟩ | ⟨_, _, rfl, ht⟩ | ⟨id', name, rfl, ht⟩
  · rw [ht, hsame]
    intro m
    cases e with
    | renameMethodType id' name => exact absurd rfl (hne id' name)
    | _ => rfl
  · rw [ht, TypeTable.methodAt?_internClass, hsame fun _ => rfl]
  · rw [TypeTable.methodAt?_renameClass ht, hsame fun _ => rfl]
  · rw [TypeTable.methodAt?_renameMethod ht]
    by_cases hid : id = id'
    · simp [hid, Edit.retitle]
    · simp [hid, Edit.retitle, Ne.symm hid]

theorem applyEdit_name? {d d' : Draft} {e : Edit} (he : e.IsRenaming) (h : d.applyEdit e = .ok d')
    (hd : d.types.IndexSound) {name : String} (hspares : e.Spares name) (hname : name ≠ stringClass)
    (id : TypeId) : d'.types.name? id = some name ↔ d.types.name? id = some name := by
  rcases applyEdit_types he h with
    ⟨-, ht⟩ | ⟨_, _, -, ht⟩ | ⟨source, target, heq, ht⟩ | ⟨_, _, -, ht⟩
  · rw [ht]
  · rw [ht]
    exact TypeTable.name?_internClass _ _ _ hname
  · obtain ⟨hsource, htarget⟩ := hspares source target heq
    exact TypeTable.name?_renameClass hd ht hsource htarget
  · rw [TypeTable.name?_renameMethod ht]

/-- A method keeps its types, and its name is the one that the edits leave. -/
theorem applyEdits_methodAt? {d d' : Draft} {es : List Edit} (hes : ∀ e ∈ es, e.IsRenaming)
    (h : d.applyEdits es = .ok d') (id : TypeId) :
    d'.types.methodAt? id =
      (d.types.methodAt? id).map fun m => es.foldl (fun m e => e.retitle id m) m := by
  induction es generalizing d with
  | nil =>
    obtain rfl := Except.ok.inj h
    simp
  | cons e es ih =>
    obtain ⟨d₁, he, hrest⟩ := applyEdits_cons h
    rw [ih (fun a ha => hes a (List.mem_cons_of_mem _ ha)) hrest,
      applyEdit_methodAt? (hes e List.mem_cons_self) he, Option.map_map]
    rfl

theorem applyEdits_name? {d d' : Draft} {es : List Edit} (hes : ∀ e ∈ es, e.IsRenaming)
    (h : d.applyEdits es = .ok d') (hd : d.types.IndexSound) {name : String}
    (hspares : ∀ e ∈ es, e.Spares name) (hname : name ≠ stringClass) (id : TypeId) :
    d'.types.name? id = some name ↔ d.types.name? id = some name := by
  induction es generalizing d with
  | nil =>
    obtain rfl := Except.ok.inj h
    exact Iff.rfl
  | cons e es ih =>
    obtain ⟨d₁, he, hrest⟩ := applyEdits_cons h
    have hrenaming := hes e List.mem_cons_self
    have hfirst := applyEdit_name? hrenaming he hd (hspares e List.mem_cons_self) hname id
    have hsound := applyEdit_indexSound hrenaming he hd
    rw [← hfirst]
    exact ih (fun a ha => hes a (List.mem_cons_of_mem _ ha)) hrest hsound
      fun a ha => hspares a (List.mem_cons_of_mem _ ha)

end Draft

/-- Edits that have one name for a method, if any, leave it with that name or as it was. -/
private theorem foldl_retitle {es : List Edit} {id : TypeId} {name : String}
    (h : ∀ name', .renameMethodType id name' ∈ es → name' = name) (m : MethodType) :
    es.foldl (fun m e => e.retitle id m) m =
      if .renameMethodType id name ∈ es then { m with name } else m := by
  induction es generalizing m with
  | nil => simp
  | cons e es ih =>
    have hrest : ∀ name', .renameMethodType id name' ∈ es → name' = name :=
      fun name' hmem => h name' (List.mem_cons_of_mem _ hmem)
    rw [List.foldl_cons, ih hrest]
    by_cases he : e = .renameMethodType id name
    · subst he
      simp [Edit.retitle]
    · have hid : e.retitle id m = m := by
        cases e with
        | renameMethodType id' name' =>
          simp only [Edit.retitle]
          split
          · rename_i hid
            subst hid
            exact absurd (by rw [h name' List.mem_cons_self]) he
          · rfl
        | _ => rfl
      simp [hid, List.mem_cons, Ne.symm he]

namespace EditSet.Renames

variable {s : EditSet} {f g : SourceFile}

/-- A method entry, where all edits that rename methods have one name for it. -/
theorem methodAt? (h : s.Renames f g) {id : TypeId} {name : String}
    (hname : ∀ name', .renameMethodType id name' ∈ s.edits → name' = name) :
    g.types.methodAt? id = (f.types.methodAt? id).map fun m =>
      if .renameMethodType id name ∈ s.edits then { m with name } else m := by
  obtain ⟨-, d, hd, rfl⟩ := apply_eq_ok h.applied
  rw [Draft.applyEdits_methodAt? h.only hd]
  simp only [foldl_retitle hname]

/-- Only its name can change in a method entry. -/
theorem methodAt?_returns (h : s.Renames f g) (id : TypeId) :
    (g.types.methodAt? id).bind (·.returns) = (f.types.methodAt? id).bind (·.returns) := by
  obtain ⟨-, d, hd, rfl⟩ := apply_eq_ok h.applied
  rw [Draft.applyEdits_methodAt? h.only hd]
  have hfold : ∀ m : MethodType, (s.edits.foldl (fun m e => e.retitle id m) m).returns =
      m.returns := by
    intro m
    induction s.edits generalizing m with
    | nil => rfl
    | cons e es ih =>
      rw [List.foldl_cons, ih]
      cases e with
      | renameMethodType id' name =>
        simp only [Edit.retitle]
        split <;> rfl
      | _ => rfl
  cases f.types.methodAt? id with
  | none => rfl
  | some m => exact hfold m

/-- A name that the edits have nothing to do with. -/
theorem name? (h : s.Renames f g) (hf : f.types.IndexSound) {name : String}
    (hspares : ∀ e ∈ s.edits, e.Spares name) (hname : name ≠ stringClass) (id : TypeId) :
    g.types.name? id = some name ↔ f.types.name? id = some name := by
  obtain ⟨-, d, hd, rfl⟩ := apply_eq_ok h.applied
  exact Draft.applyEdits_name? h.only hd hf hspares hname id

/-- Expressions keep their types. -/
theorem expressionType (h : s.Renames f g) {n : NodeId} (hn : n < f.store.size) :
    g.store.expressionType g.types (some n) = f.store.expressionType f.types (some n) := by
  obtain ⟨x, hx⟩ := Store.exists_data? hn
  obtain ⟨y, hy, hxy⟩ := h.data? hx
  have hown : y.ownType = x.ownType := hxy.ownType.trans (ownType_retouchAll _ _ _)
  have hkind := h.kind_eq hx hy
  simp only [Store.expressionType, hx, hy]
  cases x with
  | methodInvocation call =>
    rw [retouchAll_of_kind _ _ (by simp [NodeData.kind]) (by simp [NodeData.kind])] at hxy
    obtain ⟨call', rfl, htype, -⟩ := hxy.of_methodInvocation
    simp only [htype]
    cases call.type with
    | none => rfl
    | some id => exact h.methodAt?_returns id
  | _ => cases y <;> simp_all [NodeData.kind]

end EditSet.Renames

end JavaRecipes
