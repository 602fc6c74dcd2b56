import JavaRecipes.Proofs.Edit.Checked
import JavaRecipes.Proofs.Tree.Splice

/-!
The edits that renames are made of: values for literals, string literals in the place of
expressions, and names for identifiers, classes and methods. Each of them changes the payload of one
node at most.
-/

namespace JavaRecipes

namespace Edit

/-- An edit that gives something a new name or a new string. -/
inductive IsRenaming : Edit → Prop
  | setLiteral (r : Ref) (value : LiteralValue) : IsRenaming (.setLiteral r value)
  | replaceExpression (r : Ref) (value : String) :
    IsRenaming (.replaceExpression r (.stringLiteral value))
  | renameIdentifier (r : Ref) (name : String) : IsRenaming (.renameIdentifier r name)
  | renameClassType (source target : String) : IsRenaming (.renameClassType source target)
  | renameMethodType (id : TypeId) (name : String) : IsRenaming (.renameMethodType id name)

/-- What an edit does to the payload at `r`, splices apart. -/
def retouch (r : Ref) (x : NodeData) : Edit → NodeData
  | .setLiteral r' value => if r' = r then x.setLiteral value else x
  | .renameIdentifier r' name => if r' = r then x.renameIdentifier name else x
  | _ => x

/-- A slot stays, or its node is the target of a replacement, which is put there as the node
`fresh`. -/
def Moves (e : Edit) (fresh : NodeId) (a b : Ref) : Prop :=
  b = a ∨ ∃ value, e = .replaceExpression a (.stringLiteral value) ∧ b = some fresh

theorem retouch_of_target_ne {e : Edit} {r : Ref} (h : e.target? ≠ some r) (x : NodeData) :
    e.retouch r x = x := by
  cases e <;> simp_all [retouch, target?]

theorem retouch_retouch (e : Edit) (r : Ref) (x : NodeData) :
    e.retouch r (e.retouch r x) = e.retouch r x := by
  cases e with
  | setLiteral r' value =>
    by_cases h : r' = r
    · cases x <;> simp [retouch, h, NodeData.setLiteral]
    · simp [retouch, h]
  | renameIdentifier r' name =>
    by_cases h : r' = r
    · cases x <;> simp [retouch, h, NodeData.renameIdentifier]
    · simp [retouch, h]
  | _ => rfl

/-- Only leaves are retouched. -/
theorem retouch_of_kind (e : Edit) (r : Ref) {x : NodeData} (hl : x.kind ≠ .literal)
    (hi : x.kind ≠ .identifier) : e.retouch r x = x := by
  have hset : ∀ value, x.setLiteral value = x := by
    intro value
    cases x with
    | literal d => exact absurd rfl hl
    | _ => rfl
  have hrename : ∀ name, x.renameIdentifier name = x := by
    intro name
    cases x with
    | identifier d => exact absurd rfl hi
    | _ => rfl
  cases e <;> simp [retouch, hset, hrename]

/-- So slots are compared before or after. -/
theorem slotwise_retouch (e : Edit) (r : Ref) {R : Ref → Ref → Prop} {x y : NodeData}
    (h : NodeData.Slotwise R x y) : NodeData.Slotwise R (e.retouch r x) (e.retouch r y) := by
  by_cases hl : x.kind = .literal
  · cases x <;> simp [NodeData.kind] at hl
    rw [h.of_literal]
    cases e <;> simp only [retouch] <;> try split
    all_goals exact ⟨[], .nil, rfl⟩
  · by_cases hi : x.kind = .identifier
    · cases x <;> simp [NodeData.kind] at hi
      rw [h.of_identifier]
      cases e <;> simp only [retouch] <;> try split
      all_goals exact ⟨[], .nil, rfl⟩
    · rw [retouch_of_kind e r hl hi, retouch_of_kind e r (h.kind ▸ hl) (h.kind ▸ hi)]
      exact h

end Edit

/-- What several edits do to the payload at `r`, splices apart. -/
def retouchAll (es : List Edit) (r : Ref) (x : NodeData) : NodeData :=
  es.foldl (fun x e => e.retouch r x) x

@[simp]
theorem retouchAll_cons (e : Edit) (es : List Edit) (r : Ref) (x : NodeData) :
    retouchAll (e :: es) r x = retouchAll es r (e.retouch r x) := rfl

theorem slotwise_retouchAll (es : List Edit) (r : Ref) {R : Ref → Ref → Prop} {x y : NodeData}
    (h : NodeData.Slotwise R x y) :
    NodeData.Slotwise R (retouchAll es r x) (retouchAll es r y) := by
  induction es generalizing x y with
  | nil => exact h
  | cons e es ih => exact ih (e.slotwise_retouch r h)

theorem retouchAll_of_fixed {es : List Edit} {r : Ref} {x : NodeData}
    (h : ∀ e ∈ es, e.retouch r x = x) : retouchAll es r x = x := by
  induction es with
  | nil => rfl
  | cons e es ih =>
    rw [retouchAll_cons, h e List.mem_cons_self, ih fun a ha => h a (List.mem_cons_of_mem _ ha)]

theorem retouchAll_of_no_target {es : List Edit} {r : Ref} (h : ∀ e ∈ es, e.target? ≠ some r)
    (x : NodeData) : retouchAll es r x = x :=
  retouchAll_of_fixed fun e he => Edit.retouch_of_target_ne (h e he) x

/-- Only leaves are retouched. -/
theorem retouchAll_of_kind (es : List Edit) (r : Ref) {x : NodeData} (hl : x.kind ≠ .literal)
    (hi : x.kind ≠ .identifier) : retouchAll es r x = x :=
  retouchAll_of_fixed fun e _ => e.retouch_of_kind r hl hi

theorem kind_retouchAll (es : List Edit) (r : Ref) (x : NodeData) :
    (retouchAll es r x).kind = x.kind := by
  induction es generalizing x with
  | nil => rfl
  | cons e es ih =>
    rw [retouchAll_cons, ih]
    cases e <;> simp only [Edit.retouch] <;> try split
    all_goals try rfl
    all_goals cases x <;> rfl

theorem ownType_retouchAll (es : List Edit) (r : Ref) (x : NodeData) :
    (retouchAll es r x).ownType = x.ownType := by
  induction es generalizing x with
  | nil => rfl
  | cons e es ih =>
    rw [retouchAll_cons, ih]
    cases e <;> simp only [Edit.retouch] <;> try split
    all_goals try rfl
    all_goals cases x <;> rfl

/-- Where all edits of a node are one and the same, it acts once. -/
theorem retouchAll_of_mem {es : List Edit} {e : Edit} {r : Ref} (he : e ∈ es)
    (h : ∀ a ∈ es, a.target? = some r → a = e) (x : NodeData) :
    retouchAll es r x = e.retouch r x := by
  induction es generalizing x with
  | nil => simp at he
  | cons a es ih =>
    have hrest : ∀ b ∈ es, b.target? = some r → b = e := fun b hb => h b (List.mem_cons_of_mem _ hb)
    rw [retouchAll_cons]
    by_cases hat : a.target? = some r
    · obtain rfl := h a List.mem_cons_self hat
      by_cases hmem : a ∈ es
      · rw [ih hmem hrest, Edit.retouch_retouch]
      · exact retouchAll_of_no_target (fun b hb hbt => hmem (hrest b hb hbt ▸ hb)) _
    · rw [Edit.retouch_of_target_ne hat]
      rcases List.mem_cons.1 he with rfl | he
      · rw [Edit.retouch_of_target_ne hat]
        refine retouchAll_of_no_target (fun b hb hbt => hat ?_) x
        rw [← hrest b hb hbt]
        exact hbt
      · exact ih he hrest x

/-! ## One edit -/

namespace Draft

/-- A string literal is added at the end of the store; its type is interned. -/
theorem materialize_stringLiteral (d : Draft) (value : String) :
    d.materialize (.stringLiteral value) =
      (some d.store.size,
        { store := (d.store.add (.literal
            { value := .string value, type := some (d.types.internClass stringClass none).1 })).2
          types := (d.types.internClass stringClass none).2 }) := rfl

/-- A replacement that works adds the literal and puts it into the slot of the target. -/
theorem applyEdit_replaceExpression {d d' : Draft} {r : Ref} {value : String}
    (h : d.applyEdit (.replaceExpression r (.stringLiteral value)) = .ok d') :
    ∃ parent type, d.store.parent r = some parent ∧
      (d.store.add (.literal { value := .string value, type := some type })).2.replaceChild
        (some parent) r (some d.store.size) = some d'.store ∧
      d'.types = (d.types.internClass stringClass none).2 := by
  simp only [applyEdit, materialize_stringLiteral] at h
  split at h
  · simp at h
  · rename_i parent hparent
    split at h
    · simp at h
    · rename_i store hstore
      have hd := Except.ok.inj h
      exact ⟨parent, _, hparent, by rw [hstore, ← hd], by rw [← hd]⟩

/-- What a renaming edit does to the payload of a node. -/
theorem applyEdit_data? {d d' : Draft} {e : Edit} (he : e.IsRenaming) (h : d.applyEdit e = .ok d')
    {n : NodeId} {x : NodeData} (hx : d.store.data? (some n) = some x) :
    ∃ y, d'.store.data? (some n) = some y ∧
      NodeData.Slotwise (e.Moves d.store.size) (e.retouch (some n) x) y := by
  have hrefl : ∀ z : NodeData, NodeData.Slotwise (e.Moves d.store.size) z z :=
    NodeData.Slotwise.refl fun _ => .inl rfl
  cases he with
  | setLiteral r value =>
    obtain rfl := Except.ok.inj h
    refine ⟨_, ?_, hrefl _⟩
    change (d.store.updateData r _).data? (some n) = _
    rw [Store.data?_updateData, hx]
    by_cases hr : r = some n
    · simp [Edit.retouch, hr]
    · simp [Edit.retouch, hr, Ne.symm hr]
  | replaceExpression r value =>
    obtain ⟨parent, type, -, hstore, -⟩ := applyEdit_replaceExpression h
    obtain ⟨z, y, hz, hzy, hdata⟩ := Store.data?_replaceChild hstore
    have hadd : ∀ m < d.store.size, (d.store.add (.literal
        { value := .string value, type := some type })).2.data? (some m) =
          d.store.data? (some m) := by
      intro m hm
      rw [Store.data?_add, if_neg]
      simpa using Nat.ne_of_lt hm
    have hn := Store.lt_size_of_data? hx
    rw [hdata, hadd n hn, hx]
    by_cases hp : n = parent
    · subst hp
      rw [hadd n hn, hx] at hz
      obtain rfl := Option.some.inj hz
      refine ⟨y, by simp, (NodeData.slotwise_replaceChild hzy).mono ?_⟩
      rintro a b (hab | ⟨rfl, rfl⟩)
      · exact .inl hab
      · exact .inr ⟨value, rfl, rfl⟩
    · exact ⟨x, by simp [hp], hrefl _⟩
  | renameIdentifier r name =>
    obtain rfl := Except.ok.inj h
    refine ⟨_, ?_, hrefl _⟩
    change (d.store.updateData r _).data? (some n) = _
    rw [Store.data?_updateData, hx]
    by_cases hr : r = some n
    · simp [Edit.retouch, hr]
    · simp [Edit.retouch, hr, Ne.symm hr]
  | renameClassType source target =>
    obtain rfl := Except.ok.inj h
    exact ⟨x, hx, hrefl _⟩
  | renameMethodType id name =>
    simp only [applyEdit] at h
    split at h
    · simp at h
    · obtain rfl := Except.ok.inj h
      exact ⟨x, hx, hrefl _⟩

theorem applyEdit_size_le {d d' : Draft} {e : Edit} (he : e.IsRenaming)
    (h : d.applyEdit e = .ok d') :
    d.store.size ≤ d'.store.size := by
  cases he with
  | setLiteral r value =>
    obtain rfl := Except.ok.inj h
    simp [updateData]
  | replaceExpression r value =>
    obtain ⟨parent, type, -, hstore, -⟩ := applyEdit_replaceExpression h
    rw [Store.size_replaceChild hstore, Store.size_add]
    omega
  | renameIdentifier r name =>
    obtain rfl := Except.ok.inj h
    simp [updateData]
  | renameClassType source target =>
    obtain rfl := Except.ok.inj h
    exact Nat.le_refl _
  | renameMethodType id name =>
    simp only [applyEdit] at h
    split at h
    · simp at h
    · obtain rfl := Except.ok.inj h
      exact Nat.le_refl _

/-- The only node an edit can add is the literal of a replacement. -/
theorem applyEdit_new {d d' : Draft} {e : Edit} (he : e.IsRenaming) (h : d.applyEdit e = .ok d')
    {n : NodeId} (hn : d.store.size ≤ n) {y : NodeData} (hy : d'.store.data? (some n) = some y) :
    ∃ r value type, e = .replaceExpression r (.stringLiteral value) ∧ n = d.store.size ∧
      y = .literal { value := .string value, type := some type } := by
  have hnone : d.store.data? (some n) = none := by
    cases hx : d.store.data? (some n) with
    | none => rfl
    | some x => exact absurd (Store.lt_size_of_data? hx) (Nat.not_lt.2 hn)
  cases he with
  | setLiteral r value =>
    obtain rfl := Except.ok.inj h
    change (d.store.updateData r _).data? (some n) = _ at hy
    simp [Store.data?_updateData, hnone] at hy
  | replaceExpression r value =>
    obtain ⟨parent, type, hparent, hstore, -⟩ := applyEdit_replaceExpression h
    obtain ⟨z, w, hz, hzw, hdata⟩ := Store.data?_replaceChild hstore
    rw [hdata] at hy
    by_cases hp : some n = some parent
    · -- the holder of the target is an old node, or the new literal, which holds nothing
      rw [← hp, Store.data?_add, hnone] at hz
      split at hz
      · obtain rfl := Option.some.inj hz
        simp [NodeData.replaceChild_literal] at hzw
      · simp at hz
    · rw [if_neg hp, Store.data?_add, hnone] at hy
      split at hy
      · rename_i hsize
        exact ⟨r, value, type, rfl, Option.some.inj hsize, (Option.some.inj hy).symm⟩
      · simp at hy
  | renameIdentifier r name =>
    obtain rfl := Except.ok.inj h
    change (d.store.updateData r _).data? (some n) = _ at hy
    simp [Store.data?_updateData, hnone] at hy
  | renameClassType source target =>
    obtain rfl := Except.ok.inj h
    change d.store.data? (some n) = _ at hy
    simp [hnone] at hy
  | renameMethodType id name =>
    simp only [applyEdit] at h
    split at h
    · simp at h
    · obtain rfl := Except.ok.inj h
      change d.store.data? (some n) = _ at hy
      simp [hnone] at hy

/-- A replacement does add its literal. -/
theorem applyEdit_fresh {d d' : Draft} {r : Ref} {value : String}
    (h : d.applyEdit (.replaceExpression r (.stringLiteral value)) = .ok d') :
    ∃ type, d'.store.data? (some d.store.size) =
      some (.literal { value := .string value, type := some type }) := by
  have hlt : d.store.size < d'.store.size := by
    obtain ⟨parent, type, -, hstore, -⟩ := applyEdit_replaceExpression h
    rw [Store.size_replaceChild hstore, Store.size_add]
    omega
  obtain ⟨y, hy⟩ := Store.exists_data? hlt
  obtain ⟨r', value', type, heq, -, rfl⟩ :=
    applyEdit_new (.replaceExpression r value) h (Nat.le_refl _) hy
  simp only [Edit.replaceExpression.injEq, Snippet.stringLiteral.injEq] at heq
  obtain ⟨-, rfl⟩ := heq
  exact ⟨type, hy⟩

/-- No edit changes the link of a node that it does not replace. -/
theorem applyEdit_parent {d d' : Draft} {e : Edit} (he : e.IsRenaming) (h : d.applyEdit e = .ok d')
    {n : NodeId} (hn : n < d.store.size)
    (hne : ∀ value, e ≠ .replaceExpression (some n) (.stringLiteral value)) :
    d'.store.parent (some n) = d.store.parent (some n) := by
  cases he with
  | setLiteral r value =>
    obtain rfl := Except.ok.inj h
    exact Store.parent_updateData _ _ _ _
  | replaceExpression r value =>
    obtain ⟨parent, type, -, hstore, -⟩ := applyEdit_replaceExpression h
    have hr : some n ≠ r := fun hr => hne value (by rw [hr])
    have hfresh : (some n : Ref) ≠ some d.store.size := by simpa using Nat.ne_of_lt hn
    rw [Store.parent_replaceChild hstore hr hfresh]
    exact Store.parent_add_leaf _ rfl (Nat.ne_of_lt hn)
  | renameIdentifier r name =>
    obtain rfl := Except.ok.inj h
    exact Store.parent_updateData _ _ _ _
  | renameClassType source target =>
    obtain rfl := Except.ok.inj h
    rfl
  | renameMethodType id name =>
    simp only [applyEdit] at h
    split at h
    · simp at h
    · obtain rfl := Except.ok.inj h
      rfl

end Draft

end JavaRecipes
