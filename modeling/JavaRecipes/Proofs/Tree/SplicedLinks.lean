import JavaRecipes.Proofs.Tree.Graft

/-!
What a splice reports, and which links it leaves. It works where the old child is one of the
children; but looking for nothing it takes an empty slot too, which is no child. Afterwards the
children are linked to their holder as they should be, except the old one, if it is still in a slot:
because it had several, or took its own place (`replaceChild_links`).
-/

namespace JavaRecipes

namespace Store

/-- The children of `holder` in `t` that are new to it, or were linked to it in `s`, are linked to
it. -/
def KeepsLinks (s t : Store) (holder new : Ref) : Prop :=
  ∀ m, some m ∈ t.children holder → some m = new ∨ s.parent (some m) = holder →
    t.parent (some m) = holder

section

variable {s t : Store} {holder old new : Ref}

/-- There is a holder and a new child wherever a splice works. -/
theorem exists_of_replaceChild (h : s.replaceChild holder old new = some t) :
    ∃ p n, holder = some p ∧ new = some n := by
  obtain ⟨x, -, hx, -⟩ := replaceChild_eq_some h
  obtain ⟨p, rfl⟩ := exists_of_data? hx
  have hnew : (s.get? new).isSome := (isSome_replaceChild_iff.1 (by rw [h]; rfl)).1
  cases new with
  | none => cases hnew
  | some n => exact ⟨p, n, rfl, rfl⟩

/-- All children but the old one are linked as they should be. -/
theorem parent_replaceChild_of_ne (h : s.replaceChild holder old new = some t) {r : Ref}
    (hr : r ≠ old) (hlink : r = new ∨ s.parent r = holder) : t.parent r = holder := by
  rw [parent_replaceChild_eq h, if_neg fun hold => hr hold.1]
  split
  · rfl
  · exact hlink.resolve_left ‹_›

/-- The old child is still one afterwards if it was in two slots. -/
theorem old_mem_children_iff {o n : NodeId} (h : s.replaceChild holder (some o) (some n) = some t)
    (hne : o ≠ n) :
    some o ∈ t.children holder ↔ 1 < (s.children holder).count (some o) := by
  have hcount := count_children_replaceChild h o
  rw [← List.count_pos_iff]
  simp [hne.symm] at hcount
  omega

/-- The links are as they should be exactly if the old child is in no slot any more, or was linked
elsewhere. -/
theorem keepsLinks_iff (h : s.replaceChild holder old new = some t) :
    KeepsLinks s t holder new ↔
      old ≠ new ∧ (s.parent old = holder → (s.children holder).count old ≤ 1) := by
  obtain ⟨p, n, rfl, rfl⟩ := exists_of_replaceChild h
  constructor
  · intro hkeeps
    have hcut : ∀ o, old = some o → old = some n ∨ s.parent old = some p →
        some o ∉ t.children (some p) := by
      rintro o rfl hlink hmem
      have hparent := hkeeps o hmem hlink
      rw [parent_replaceChild_eq h, if_pos ⟨rfl, hlink⟩] at hparent
      cases hparent
    have hne : old ≠ some n := by
      rintro rfl
      obtain ⟨⟨before, after, -, ht⟩, -⟩ := children_replaceChild h
      exact hcut n rfl (.inl rfl) (by simp [ht])
    refine ⟨hne, fun hlink => ?_⟩
    cases old with
    | none => cases hlink
    | some o =>
      by_contra hcount
      exact hcut o rfl (.inr hlink) ((old_mem_children_iff h (by simpa using hne)).2 (by omega))
  · rintro ⟨hne, hcount⟩ m hm hlink
    by_cases hold : some m = old
    · subst hold
      have htwice := (old_mem_children_iff h (by simpa using hne)).1 hm
      have honce := hcount (hlink.resolve_left hne)
      omega
    · exact parent_replaceChild_of_ne h hold hlink

end

/-- A splice works exactly if the new node exists and the old one is a child of the holder, or
nothing is looked for and there is an empty slot. Then every other child that is new or was linked
to the holder is linked to it, and all of them are exactly if the old child does not take its own
place and, where it was linked to the holder, was there once. -/
theorem replaceChild_links (s : Store) (holder old new : Ref) :
    ((s.replaceChild holder old new).isSome ↔
      (s.get? new).isSome ∧ (old ∈ s.children holder ∨ old = none ∧ s.HasEmptySlot holder)) ∧
    ∀ t, s.replaceChild holder old new = some t →
      (∀ r ∈ t.children holder, r ≠ old → r = new ∨ s.parent r = holder → t.parent r = holder) ∧
      (KeepsLinks s t holder new ↔
        old ≠ new ∧ (s.parent old = holder → (s.children holder).count old ≤ 1)) :=
  ⟨isSome_replaceChild_iff,
    fun _ h => ⟨fun _ _ hr hlink => parent_replaceChild_of_ne h hr hlink, keepsLinks_iff h⟩⟩

/-- An array that has one element twice, a return without an expression, and a return of a name. -/
def pairStore : Store where
  nodes := #[⟨some 1, .identifier ⟨"a", none, none⟩⟩, ⟨none, .newArray ⟨[some 0, some 0], none⟩⟩,
    ⟨none, .returnStatement ⟨none⟩⟩, ⟨some 4, .identifier ⟨"b", none, none⟩⟩,
    ⟨none, .returnStatement ⟨some 3⟩⟩]

/-- Something can be put in the place of no child; and the element of the array, which is linked to
it, loses the link when one of its two slots is given to another node, or to itself. -/
theorem replaceChild_pairStore :
    (none ∉ pairStore.children (some 2) ∧ (pairStore.replaceChild (some 2) none (some 3)).isSome) ∧
    (∃ t, pairStore.replaceChild (some 1) (some 0) (some 3) = some t ∧
      ¬ KeepsLinks pairStore t (some 1) (some 3)) ∧
    ∃ t, pairStore.replaceChild (some 1) (some 0) (some 0) = some t ∧
      ¬ KeepsLinks pairStore t (some 1) (some 0) := by
  refine ⟨by decide, ⟨_, rfl, fun h => ?_⟩, ⟨_, rfl, fun h => ?_⟩⟩
  · exact absurd (h 0 (by decide) (by decide)) (by decide)
  · exact absurd (h 0 (by decide) (by decide)) (by decide)

/-- The array is put in the place of the returned name. -/
theorem replaceChild_links_pairStore :
    ∃ t, pairStore.replaceChild (some 4) (some 3) (some 1) = some t ∧ t.parent (some 1) = some 4 ∧
      KeepsLinks pairStore t (some 4) (some 1) := by
  obtain ⟨hworks, hlinks⟩ := replaceChild_links pairStore (some 4) (some 3) (some 1)
  obtain ⟨t, ht⟩ := Option.isSome_iff_exists.1 (hworks.2 ⟨by decide, .inl (by decide)⟩)
  have hkeeps : KeepsLinks pairStore t (some 4) (some 1) :=
    (hlinks t ht).2.2 ⟨by decide, fun _ => by decide⟩
  obtain ⟨⟨before, after, -, hchildren⟩, -⟩ := children_replaceChild ht
  exact ⟨t, ht, hkeeps 1 (by simp [hchildren]) (.inl rfl), hkeeps⟩

end Store

end JavaRecipes
