import JavaRecipes.Proofs.Edit.KeptTree
import JavaRecipes.Proofs.Edit.Snippets

/-!
The indexes in a file that is edited: each has 32 bits, or is that of a node or an entry which is
there. So a file of no more nodes and entries than 32 bits can count can be stored after any edits.
-/

namespace JavaRecipes

namespace NodeData

theorem Slotwise.typeIds {R : Ref → Ref → Prop} {x y : NodeData} (h : Slotwise R x y) :
    y.typeIds = x.typeIds := by
  obtain ⟨fs, hfs, rfl⟩ := h
  cases x <;> simp only [childFields, List.forall₂_cons_left_iff, List.forall₂_nil_left_iff,
    ChildField.rel_one_iff, ChildField.rel_many_iff] at hfs <;>
    grind [withChildFields, NodeData.typeIds]

theorem typeIds_setLiteral (value : LiteralValue) (x : NodeData) :
    (x.setLiteral value).typeIds = x.typeIds := by
  cases x <;> rfl

theorem typeIds_renameIdentifier (name : String) (x : NodeData) :
    (x.renameIdentifier name).typeIds = x.typeIds := by
  cases x <;> rfl

theorem typeIds_removeModifier (kind : ModifierKind) (x : NodeData) :
    (x.removeModifier kind).typeIds = x.typeIds := by
  cases x <;> rfl

theorem mem_typeIds_retypeInvocation {method : TypeId} {x : NodeData} {i : TypeId}
    (h : i ∈ (x.retypeInvocation method).typeIds) : i ∈ x.typeIds ∨ i = method := by
  cases x with
  | methodInvocation d => exact .inr (by simpa [retypeInvocation, typeIds] using h)
  | _ => exact .inl h

end NodeData

namespace TypeTable

/-- The types that the entries name have 32 bits or are there. -/
def Contained (t : TypeTable) : Prop :=
  ∀ id e, t.get? id = some e → ∀ i ∈ e.typeIds, i ≤ 4294967295 ∨ i < t.size

namespace Contained

theorem grows {t t' : TypeTable} (h : t.Contained) (hgrows : t.Grows t') : t'.Contained := by
  intro id e he i hi
  by_cases hid : id < t.size
  · rw [hgrows.get?_old hid] at he
    exact (h id e he i hi).imp_right fun hlt => hlt.trans_le hgrows.size_le
  · exact .inr (hgrows.typeIds_new (Nat.not_lt.1 hid) he i hi)

/-- Names of entries may change. -/
theorem modify {t : TypeTable} (h : t.Contained) {id : TypeId} {change : TypeEntry → TypeEntry}
    (hchange : ∀ e, t.get? id = some e → (change e).typeIds = e.typeIds) :
    (t.modify id change).Contained := by
  intro id' e he i hi
  rw [size_modify]
  rw [get?_modify] at he
  split at he
  · rename_i hid
    subst hid
    obtain ⟨e', he', rfl⟩ := Option.map_eq_some_iff.1 he
    exact h id' e' he' i (hchange e' he' ▸ hi)
  · exact h id' e he i hi

theorem renameClass {t : TypeTable} (h : t.Contained) (source target : String) :
    ((t.renameClass source target).getD t).Contained := by
  cases ht : t.renameClass source target with
  | none => exact h
  | some t' =>
    rcases renameClass_cases ht with ⟨-, rfl⟩ | ⟨id, -, -, -, rfl⟩
    · exact h
    · refine fun id' e he => h.modify (fun e _ => ?_) id' e he
      cases e <;> rfl

theorem renameMethod {t t' : TypeTable} (h : t.Contained) {id : TypeId} {name : String}
    (ht : t.renameMethod id name = some t') : t'.Contained := by
  obtain ⟨m, hm, rfl⟩ := Option.map_eq_some_iff.1 ht
  refine h.modify fun e he => ?_
  obtain ⟨e', he', hem⟩ := Option.bind_eq_some_iff.1 hm
  obtain rfl := Option.some.inj (he.symm.trans he')
  cases e with
  | method m' =>
    obtain rfl := Option.some.inj hem
    rfl
  | _ => cases hem

end Contained

theorem size_renameClass (t : TypeTable) (source target : String) :
    ((t.renameClass source target).getD t).size = t.size := by
  cases ht : t.renameClass source target with
  | none => rfl
  | some t' =>
    rcases renameClass_cases ht with ⟨-, rfl⟩ | ⟨id, -, -, -, rfl⟩
    · rfl
    · exact size_modify t id _

theorem size_renameMethod {t t' : TypeTable} {id : TypeId} {name : String}
    (ht : t.renameMethod id name = some t') : t'.size = t.size := by
  obtain ⟨m, -, rfl⟩ := Option.map_eq_some_iff.1 ht
  exact size_modify t id _

end TypeTable

/-- A splice sets no link but that to its holder. -/
theorem Store.parent_of_replaceChild {s u : Store} {holder old new : Ref}
    (h : s.replaceChild holder old new = some u) {r : Ref} {k : NodeId} (hk : u.parent r = some k) :
    holder = some k ∨ s.parent r = some k := by
  obtain ⟨x, y, -, -, rfl⟩ := replaceChild_eq_some h
  have hset : ∀ {r' : Ref},
      ((s.updateData holder fun _ => y).setParent new holder).parent r' = some k →
      holder = some k ∨ s.parent r' = some k := by
    intro r' hk
    rw [parent_setParent, parent_updateData] at hk
    split at hk
    · exact .inl hk
    · exact .inr hk
  simp only at hk
  split at hk
  · rw [parent_setParent] at hk
    split at hk
    · cases hk
    · exact hset hk
  · exact hset hk

namespace Draft

/-- Every index has 32 bits, or is that of a node or an entry. -/
structure Contained (d : Draft) : Prop where
  parents : ∀ {m k}, d.store.parent (some m) = some k → k < Ref.vacant ∨ k < d.store.size
  slots : ∀ {n m}, d.store.Holds n m → m < Ref.vacant ∨ m < d.store.size
  typeIds : ∀ {r x}, d.store.data? r = some x → ∀ i ∈ x.typeIds, i ≤ 4294967295 ∨ i < d.types.size
  entries : d.types.Contained
  sound : d.types.IndexSound

namespace Contained

variable {d d' : Draft}

/-- Small enough a file can be stored. -/
theorem fits (h : d.Contained) {path : String} {root : Ref} (hroot : Ref.Fits root)
    (hsize : d.store.size ≤ Ref.vacant) (htypes : d.types.size ≤ 4294967296) :
    SourceFile.Fits { path, store := d.store, types := d.types, root } := by
  refine ⟨?_, ?_, ?_, hroot⟩
  · intro r k hk
    cases r with
    | none => cases hk
    | some m => exact (h.parents hk).elim id fun hlt => hlt.trans_le hsize
  · intro r x hx
    obtain ⟨n, rfl⟩ := Store.exists_of_data? hx
    refine ⟨?_, fun i hi => (h.typeIds hx i hi).elim id fun hlt => ?_⟩
    · rintro field hfield _ hm m rfl
      have hh : d.store.Holds n m := (Store.holds_iff hx).2 (List.mem_flatMap.2 ⟨field, hfield, hm⟩)
      exact (h.slots hh).elim id fun hlt => hlt.trans_le hsize
    · exact Nat.le_of_lt_succ (hlt.trans_le htypes)
  · intro k e he i hi
    exact (h.entries k e he i hi).elim id fun hlt => Nat.le_of_lt_succ (hlt.trans_le htypes)

/-- A payload changes outside its slots. -/
theorem updateData (h : d.Contained) (r : Ref) {change : NodeData → NodeData}
    (hfields : ∀ x, (change x).childFields = x.childFields)
    (hids : ∀ x, ∀ i ∈ (change x).typeIds, i ∈ x.typeIds ∨ i < d.types.size) :
    (d.updateData r change).Contained := by
  have hsize : (d.updateData r change).store.size = d.store.size := d.store.size_updateData r change
  constructor
  · intro m k hk
    rw [hsize]
    exact h.parents ((d.store.parent_updateData r (some m) change).symm.trans hk)
  · intro n m hh
    rw [hsize]
    have hh : some m ∈ (d.store.updateData r change).children (some n) := hh
    rw [d.store.children_updateData r hfields] at hh
    exact h.slots hh
  · intro r' x hx i hi
    have hx : (d.store.updateData r change).data? r' = some x := hx
    rw [Store.data?_updateData] at hx
    split at hx
    · obtain ⟨y, hy, rfl⟩ := Option.map_eq_some_iff.1 hx
      exact (hids y i hi).elim (h.typeIds hy i) .inr
    · exact h.typeIds hx i hi
  · exact h.entries
  · exact h.sound

theorem retype (h : d.Contained) {types : TypeTable} (hsize : d.types.size ≤ types.size)
    (hentries : types.Contained) (hsound : types.IndexSound) : Contained { d with types } where
  parents := h.parents
  slots := h.slots
  typeIds hx i hi := (h.typeIds hx i hi).imp_right fun hlt => hlt.trans_le hsize
  entries := hentries
  sound := hsound

/-- What is built and put into the tree. -/
theorem replaceExpression (h : d.Contained) {n : NodeId} {snippet : Snippet}
    (hnew : ∀ r, snippet ≠ .existing r) (hu : Snippet.Usable d.store.size snippet.existingNodes)
    (hd : d.applyEdit (.replaceExpression (some n) snippet) = .ok d') : d'.Contained := by
  have hbuilds := builds_materialize snippet d h.sound
  have hgrows := grows_materialize snippet d hu
  obtain ⟨holder, hholder, hsplice, htypes⟩ := applyEdit_replacement hd
  obtain ⟨new, hfst, -⟩ := d.exists_fst_materialize hnew hu
  rw [hfst] at hsplice hgrows
  have hsize := Store.size_replaceChild hsplice
  have hle : d.store.size ≤ d'.store.size := hsize ▸ hgrows.size_le
  constructor
  · intro m k hk
    rcases Store.parent_of_replaceChild hsplice hk with hk | hk
    · obtain rfl := Option.some.inj hk
      exact (h.parents hholder).imp_right fun hlt => hlt.trans_le hle
    · rcases hgrows.parent_lt hk with hk | hk
      · exact (h.parents hk).imp_right fun hlt => hlt.trans_le hle
      · exact .inr (hsize ▸ hk)
  · intro k m hh
    rcases Store.holds_of_replaceChild hsplice hh with ⟨-, rfl⟩ | hh
    · exact .inr (hsize ▸ hgrows.loose_lt List.mem_cons_self)
    · by_cases hk : k < d.store.size
      · rw [Store.Holds, Store.children_congr (hgrows.data?_old hk)] at hh
        exact (h.slots hh).imp_right fun hlt => hlt.trans_le hle
      · have hlt := (hgrows.holds_new (Nat.not_lt.1 hk) hh).1
        exact .inr (hsize ▸ hlt.trans (Store.holds_lt_size hh))
  · have hbuilt : ∀ {r x}, (d.materialize snippet).2.store.data? r = some x →
        ∀ i ∈ x.typeIds, i ≤ 4294967295 ∨ i < d'.types.size := by
      intro r x hx i hi
      obtain ⟨k, rfl⟩ := Store.exists_of_data? hx
      rw [htypes]
      by_cases hk : k < d.store.size
      · rw [hbuilds.data?_old hk] at hx
        exact (h.typeIds hx i hi).imp_right fun hlt => hlt.trans_le hbuilds.types.size_le
      · exact .inr (hbuilds.typeIds (Nat.not_lt.1 hk) hx i hi)
    obtain ⟨x, y, hx, hxy, hdata⟩ := Store.data?_replaceChild hsplice
    intro r z hz i hi
    rw [hdata] at hz
    split at hz
    · obtain rfl := Option.some.inj hz
      rw [(NodeData.slotwise_replaceChild hxy).typeIds] at hi
      exact hbuilt hx i hi
    · exact hbuilt hz i hi
  · rw [htypes]
    exact h.entries.grows hbuilds.types
  · rw [htypes]
    exact hbuilds.types.sound

/-- One edit. -/
theorem step {f : SourceFile} (h : d.Contained) (hsize : f.store.size ≤ d.store.size) {e : Edit}
    (he : e.Grafts f) (hd : d.applyEdit e = .ok d') : d'.Contained := by
  cases e with
  | setLiteral r value =>
    obtain rfl := Except.ok.inj hd
    exact h.updateData r (NodeData.childFields_setLiteral value)
      fun x i hi => .inl (NodeData.typeIds_setLiteral value x ▸ hi)
  | replaceExpression r snippet =>
    obtain ⟨n, rfl, -, hnew, hu, -⟩ := he
    exact h.replaceExpression hnew (hu.mono hsize) hd
  | renameIdentifier r name =>
    obtain rfl := Except.ok.inj hd
    exact h.updateData r (NodeData.childFields_renameIdentifier name)
      fun x i hi => .inl (NodeData.typeIds_renameIdentifier name x ▸ hi)
  | removeModifier r kind =>
    obtain rfl := Except.ok.inj hd
    exact h.updateData r (NodeData.childFields_removeModifier kind)
      fun x i hi => .inl (NodeData.typeIds_removeModifier kind x ▸ hi)
  | renameClassType source target =>
    obtain rfl := Except.ok.inj hd
    refine h.retype (TypeTable.size_renameClass _ source target).ge
      (h.entries.renameClass source target) ?_
    cases ht : d.types.renameClass source target with
    | none => exact h.sound
    | some t => exact h.sound.renameClass ht
  | renameMethodType id name =>
    simp only [applyEdit] at hd
    split at hd
    · cases hd
    · rename_i types ht
      obtain rfl := Except.ok.inj hd
      exact h.retype (TypeTable.size_renameMethod ht).ge (h.entries.renameMethod ht)
        (h.sound.renameMethod ht)
  | retypeInvocation r signature =>
    obtain ⟨hgrows, m, hm, -⟩ := TypeTable.internSignature_spec h.sound signature
    obtain ⟨e, he, -⟩ := Option.bind_eq_some_iff.1 hm
    obtain rfl := Except.ok.inj hd
    have hretyped := h.retype hgrows.size_le (h.entries.grows hgrows) hgrows.sound
    refine hretyped.updateData r (NodeData.childFields_retypeInvocation _) fun x i hi => ?_
    refine (NodeData.mem_typeIds_retypeInvocation hi).imp_right ?_
    rintro rfl
    exact TypeTable.lt_size_of_get? he

/-- A run of edits. -/
theorem run {f : SourceFile} (h : d.Contained) (hsize : f.store.size ≤ d.store.size)
    {es : List Edit} (hes : ∀ e ∈ es, e.Grafts f) (hd : d.applyEdits es = .ok d') :
    d'.Contained := by
  refine (applyEdits_induction (P := fun _ d => d.Contained ∧ f.store.size ≤ d.store.size) hd
    ⟨h, hsize⟩ ?_).1
  rintro done e rest d₁ d₂ hsplit ⟨h, hsize⟩ he
  have hgrafts := hes e (by simp [hsplit])
  exact ⟨h.step hsize hgrafts he, hsize.trans (size_le_applyEdit hsize hgrafts he)⟩

end Contained

end Draft

end JavaRecipes
