import JavaRecipes.Proofs.Tree.Linked

/-!
The order of a traversal: each node comes after one that holds it, and after what is in earlier
slots there (`exists_slot_before`); in a tree that is its only holder (`precedes_of_holds`,
`precedes_of_slots`).
-/

namespace JavaRecipes

/-- What is in a mapped list comes from one element, after all that comes from the elements before
that one. -/
theorem exists_of_flatMap_eq_append {α β : Type} {g : α → List β} {as : List α}
    {before after : List β} {b : β} (h : as.flatMap g = before ++ b :: after) :
    ∃ as₁ a as₂ bs₁ bs₂, as = as₁ ++ a :: as₂ ∧ g a = bs₁ ++ b :: bs₂ ∧
      before = as₁.flatMap g ++ bs₁ := by
  induction as generalizing before with
  | nil => simp at h
  | cons a as ih =>
    rw [List.flatMap_cons, List.append_eq_append_iff] at h
    rcases h with ⟨l, rfl, hrest⟩ | ⟨_ | ⟨c, l⟩, ha, hrest⟩
    · obtain ⟨as₁, a', as₂, bs₁, bs₂, rfl, ha', rfl⟩ := ih hrest
      exact ⟨a :: as₁, a', as₂, bs₁, bs₂, rfl, ha', by simp⟩
    · have hfirst : as.flatMap g = [] ++ b :: after := hrest.symm
      obtain ⟨as₁, a', as₂, bs₁, bs₂, rfl, ha', hnil⟩ := ih hfirst
      obtain ⟨hempty, rfl⟩ := List.append_eq_nil_iff.1 hnil.symm
      exact ⟨a :: as₁, a', as₂, [], bs₂, rfl, ha', by rw [List.flatMap_cons, hempty, ha]; simp⟩
    · obtain ⟨rfl, -⟩ := List.cons.inj hrest
      exact ⟨[], a, as, before, l, rfl, ha, rfl⟩

theorem Store.mem_preorder_self {s : Store} {n : NodeId} (depth : Nat) (hn : n < s.size) :
    n ∈ s.preorder (depth + 1) (some n) := by
  obtain ⟨x, hx⟩ := exists_data? hn
  simp [preorder, hx]

/-- Wherever a node comes in a traversal, a node that holds it comes before, and so does all that is
in the slots before that one, unless the traversal starts with it. -/
theorem Store.exists_slot_before {s : Store} {depth : Nat} {r : Ref}
    {before after : List NodeId} {m : NodeId} (h : s.preorder depth r = before ++ m :: after) :
    r = some m ∨ ∃ n ∈ before, ∃ left right,
      s.children (some n) = left ++ some m :: right ∧ ∀ k < s.size, some k ∈ left → k ∈ before := by
  induction depth generalizing r before after with
  | zero => simp [preorder] at h
  | succ depth ih =>
    cases hx : s.data? r with
    | none => cases r <;> simp [preorder, hx] at h
    | some x =>
      obtain ⟨n, rfl⟩ := exists_of_data? hx
      simp only [preorder, hx] at h
      cases before with
      | nil => exact .inl (congrArg some (List.cons.inj h).1)
      | cons k before =>
        obtain ⟨rfl, hrest⟩ := List.cons.inj h
        obtain ⟨cs, c, cs', ks, ks', hchildren, hc, rfl⟩ := exists_of_flatMap_eq_append hrest
        rcases ih hc with rfl | ⟨k, hk, left, right, hslots, hleft⟩
        · refine .inr ⟨n, List.mem_cons_self, cs, cs', (children_eq_of_data? hx).trans hchildren,
            fun k hk hmem => ?_⟩
          -- The traversal of `m` is not empty, so there is a level left for the slots before it.
          cases depth with
          | zero => simp [preorder] at hc
          | succ depth =>
            have hvisited : k ∈ cs.flatMap (s.preorder (depth + 1)) :=
              List.mem_flatMap.2 ⟨some k, hmem, mem_preorder_self depth hk⟩
            simp [hvisited]
        · refine .inr ⟨k, by simp [hk], left, right, hslots, fun l hl hmem => ?_⟩
          simp [hleft l hl hmem]

theorem Store.Reaches.reflTransGen {s : Store} {n m : NodeId} (h : s.Reaches (some n) m) :
    Relation.ReflTransGen s.Holds n m := by
  induction h with
  | start hroot _ =>
    obtain rfl := Option.some.inj hroot
    exact .refl
  | step _ hh _ ih => exact ih.tail hh

namespace SourceFile

/-- Wherever `m` is visited, `n` has been visited before. -/
def Precedes (f : SourceFile) (n m : NodeId) : Prop :=
  ∀ before after, f.nodes = before ++ m :: after → n ∈ before

theorem Precedes.trans {f : SourceFile} {n m k : NodeId} (hnm : f.Precedes n m)
    (hmk : f.Precedes m k) :
    f.Precedes n k := by
  intro before after hnodes
  obtain ⟨first, second, rfl⟩ := List.append_of_mem (hmk before after hnodes)
  have hn := hnm first (second ++ k :: after) (by rw [hnodes]; simp)
  simp [hn]

/-- What precedes a visited node is visited first. -/
theorem Precedes.idxOf_lt {f : SourceFile} {n m : NodeId} (h : f.Precedes n m) (hm : m ∈ f.nodes) :
    f.nodes.idxOf n < f.nodes.idxOf m := by
  obtain ⟨before, after, hnodes, hnot⟩ := List.eq_append_cons_of_mem hm
  have hn := h before after hnodes
  rw [hnodes, List.idxOf_append_of_mem hn, List.idxOf_append_of_notMem hnot]
  have hlt := List.idxOf_lt_length_of_mem hn
  omega

namespace Treelike

variable {f : SourceFile} {n m k : NodeId}

/-- Nothing in reach holds the root. -/
theorem root_ne (h : f.Treelike) (hn : f.Reaches n) (hh : f.store.Holds n m)
    (hm : m < f.store.size) :
    f.root ≠ some m := by
  intro hroot
  have hreach : f.Reaches m := .start hroot hm
  rw [Reaches, hroot] at hn
  exact h.acyclic m hreach (.tail' hn.reflTransGen hh)

/-- The holder of a node precedes it, and so does what is in slots of the holder before its first
one. -/
theorem precedes_of_slots (h : f.Treelike) (hn : f.Reaches n) (hm : m < f.store.size)
    {left right : List Ref} (hslots : f.store.children (some n) = left ++ some m :: right)
    (hnot : some m ∉ left) :
    f.Precedes n m ∧ ∀ k < f.store.size, some k ∈ left → f.Precedes k m := by
  have hh : f.store.Holds n m := by simp [Store.Holds, hslots]
  have hbefore : ∀ before after, f.nodes = before ++ m :: after → n ∈ before ∧
      ∀ k < f.store.size, some k ∈ left → k ∈ before := by
    intro before after hnodes
    have hvisited : ∀ k ∈ before, f.Reaches k :=
      fun k hk => reaches_of_mem_nodes (by simp [hnodes, hk])
    rw [nodes, Store.descendants_eq_preorder h.acyclic] at hnodes
    obtain ⟨n', hn', left', right', hslots', hleft⟩ :=
      (Store.exists_slot_before hnodes).resolve_left (h.root_ne hn hh hm)
    obtain rfl := h.holder_eq hn (hvisited n' hn') hh (by simp [Store.Holds, hslots']) hm
    refine ⟨hn', fun k hk hmem => hleft k hk ?_⟩
    -- No slot in `left` is that of `m`, so all of them come before the one that was found.
    rw [hslots, List.append_eq_append_iff] at hslots'
    rcases hslots' with ⟨l, rfl, -⟩ | ⟨_ | ⟨c, l⟩, rfl, hrest⟩
    · exact List.mem_append_left _ hmem
    · simpa using hmem
    · obtain ⟨rfl, -⟩ := List.cons.inj hrest
      simp at hnot
  exact ⟨fun before after hnodes => (hbefore before after hnodes).1,
    fun k hk hmem before after hnodes => (hbefore before after hnodes).2 k hk hmem⟩

theorem precedes_of_holds (h : f.Treelike) (hn : f.Reaches n) (hh : f.store.Holds n m)
    (hm : m < f.store.size) :
    f.Precedes n m := by
  obtain ⟨left, right, hslots, hnot⟩ := List.eq_append_cons_of_mem hh
  exact (h.precedes_of_slots hn hm hslots hnot).1

end Treelike

/-- Wherever a node is visited, what holds it has been visited before. -/
theorem Held.mem_before {f : SourceFile} (h : f.Held) {n m : NodeId} {before after : List NodeId}
    (hnodes : f.nodes = before ++ m :: after) (hn : f.Reaches n)
    (hh : f.store.Holds n m) : n ∈ before :=
  h.treelike.precedes_of_holds hn hh (h.lt_size hn hh) before after hnodes

end SourceFile

end JavaRecipes
