import JavaRecipes.Proofs.Tree.Reach
import JavaRecipes.Proofs.Tree.SlotOrder

/-!
When a splice works (`isSome_replaceChild_iff`), and what it does to a store: one payload gets
another child, and only the links of the two children concerned change (`parent_replaceChild_eq`).
-/

namespace JavaRecipes

namespace Store

/-- A splice that works found the old child in the payload of the holder. -/
theorem replaceChild_eq_some {s s' : Store} {holder old new : Ref}
    (h : s.replaceChild holder old new = some s') :
    ∃ x y, s.data? holder = some x ∧ x.replaceChild old new = some y ∧
      s' = (let t := (s.updateData holder fun _ => y).setParent new holder
            if t.get? old |>.any (·.parent = holder) then t.setParent old none else t) := by
  unfold replaceChild at h
  split at h
  · rename_i node y hnew hy
    obtain ⟨x, hx, hxy⟩ := Option.bind_eq_some_iff.1 hy
    exact ⟨x, y, hx, hxy, (Option.some.inj h).symm⟩
  · simp at h

theorem size_replaceChild {s s' : Store} {holder old new : Ref}
    (h : s.replaceChild holder old new = some s') : s'.size = s.size := by
  obtain ⟨x, y, -, -, rfl⟩ := replaceChild_eq_some h
  simp only
  split <;> simp

theorem data?_replaceChild {s s' : Store} {holder old new : Ref}
    (h : s.replaceChild holder old new = some s') :
    ∃ x y, s.data? holder = some x ∧ x.replaceChild old new = some y ∧
      ∀ r, s'.data? r = if r = holder then some y else s.data? r := by
  obtain ⟨x, y, hx, hxy, rfl⟩ := replaceChild_eq_some h
  refine ⟨x, y, hx, hxy, fun r => ?_⟩
  have hdata : ((s.updateData holder fun _ => y).setParent new holder).data? r =
      if r = holder then some y else s.data? r := by
    rw [data?_setParent, data?_updateData]
    by_cases hr : r = holder
    · subst hr
      simp [hx]
    · simp [hr]
  simp only
  split
  · rw [data?_setParent, hdata]
  · exact hdata

/-- Every payload differs at most in the one child. -/
theorem slotwise_replaceChild {s s' : Store} {holder old new : Ref}
    (h : s.replaceChild holder old new = some s') {r : Ref} {x : NodeData}
    (hx : s.data? r = some x) :
    ∃ y, s'.data? r = some y ∧ x.Slotwise (ChildField.Changed old new) y := by
  obtain ⟨z, y, hz, hzy, hdata⟩ := data?_replaceChild h
  rw [hdata]
  split
  · rename_i hr
    subst hr
    obtain rfl := Option.some.inj (hz.symm.trans hx)
    exact ⟨y, rfl, NodeData.slotwise_replaceChild hzy⟩
  · exact ⟨x, hx, .refl (fun _ => .inl rfl) x⟩

/-- The node at `r` has a single slot with nothing in it. -/
def HasEmptySlot (s : Store) (r : Ref) : Prop :=
  ∃ x, s.data? r = some x ∧ ChildField.one none ∈ x.childFields

/-- A splice works exactly if there is a new child, and a slot that is the old one. -/
theorem isSome_replaceChild_iff {s : Store} {holder old new : Ref} :
    (s.replaceChild holder old new).isSome ↔
      (s.get? new).isSome ∧ (old ∈ s.children holder ∨ old = none ∧ s.HasEmptySlot holder) := by
  have hslot : ((s.data? holder).bind (·.replaceChild old new)).isSome ↔
      old ∈ s.children holder ∨ old = none ∧ s.HasEmptySlot holder := by
    cases hx : s.data? holder with
    | none => simp [children_eq_nil_of_data? hx, HasEmptySlot, hx]
    | some x => simp [children_eq_of_data? hx, HasEmptySlot, hx, NodeData.isSome_replaceChild_iff]
  rw [← hslot, replaceChild]
  cases s.get? new <;> cases (s.data? holder).bind (·.replaceChild old new) <;> simp

/-- All links after a splice. -/
theorem parent_replaceChild_eq {s s' : Store} {holder old new : Ref}
    (h : s.replaceChild holder old new = some s') (r : Ref) :
    s'.parent r =
      if r = old ∧ (old = new ∨ s.parent old = holder) then none else if r = new then holder
        else s.parent r := by
  have hnew : (s.get? new).isSome := (isSome_replaceChild_iff.1 (by rw [h]; rfl)).1
  obtain ⟨x, y, hx, -, rfl⟩ := replaceChild_eq_some h
  obtain ⟨p, rfl⟩ := exists_of_data? hx
  have hget : ((s.updateData (some p) fun _ => y).get? new).isSome := by
    rw [updateData, get?_modify]
    split <;> simpa using hnew
  have hset : ∀ r, ((s.updateData (some p) fun _ => y).setParent new (some p)).parent r =
      if r = new then some p else s.parent r := by
    intro r
    rw [parent_setParent, parent_updateData]
    by_cases hr : r = new
    · subst hr
      simp [hget]
    · simp [hr]
  generalize (s.updateData (some p) fun _ => y).setParent new (some p) = u at hset
  -- A child that is put in its own place is linked to the holder by now, so it loses that link
  -- again.
  have hlinked : (u.get? old).any (·.parent = some p) = true ↔
      old = new ∨ s.parent old = some p := by
    have hparent : (u.get? old).any (·.parent = some p) = true ↔ u.parent old = some p := by
      rw [parent]
      cases u.get? old <;> simp
    rw [hparent, hset]
    by_cases hold : old = new <;> simp [hold]
  simp only
  by_cases hcut : old = new ∨ s.parent old = some p
  · have hold : (u.get? old).isSome := by
      obtain ⟨node, hnode, -⟩ := (Option.any_eq_true _ _).1 (hlinked.2 hcut)
      rw [hnode]
      rfl
    rw [if_pos (hlinked.2 hcut), parent_setParent, hset]
    by_cases hr : r = old
    · subst hr
      simp [hold, hcut]
    · simp [hr]
  · rw [if_neg (fun h => hcut (hlinked.1 h)), if_neg (fun h => hcut h.2), hset]

/-- Only the two children concerned can get another link. -/
theorem parent_replaceChild {s s' : Store} {holder old new : Ref}
    (h : s.replaceChild holder old new = some s') {r : Ref} (hold : r ≠ old) (hnew : r ≠ new) :
    s'.parent r = s.parent r := by
  rw [parent_replaceChild_eq h, if_neg fun hr => hold hr.1, if_neg hnew]

/-- Adding a node that holds nothing leaves the links of all others. -/
theorem parent_add_leaf (s : Store) {data : NodeData} (hleaf : data.children = []) {n : NodeId}
    (hn : n ≠ s.size) : (s.add data).2.parent (some n) = s.parent (some n) := by
  have hn' : n ≠ s.nodes.size := hn
  simp [add, hleaf, adopt, parent, get?, Array.getElem?_push, hn']

end Store

end JavaRecipes
