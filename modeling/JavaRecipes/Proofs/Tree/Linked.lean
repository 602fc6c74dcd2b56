import JavaRecipes.Proofs.Tree.Reach

/-!
Linked trees: files whose reachable nodes form a tree that the parent links describe. In such a file
a node has one holder, so what holds it tells what it is used for; this needs neither a root without
a parent nor that nodes are in one slot each (`Held`), nor that all slots name nodes (`Treelike`).
-/

namespace JavaRecipes

namespace SourceFile

/-- The reachable nodes form a tree: what a reachable node holds links back to it, where it is a
node at all. -/
structure Treelike (f : SourceFile) : Prop where
  acyclic : f.Acyclic
  link : ∀ {n m}, f.Reaches n → f.store.Holds n m → m < f.store.size →
    f.store.parent (some m) = some n

theorem Treelike.holder_eq {f : SourceFile} (h : f.Treelike) {n n' m : NodeId} (hn : f.Reaches n)
    (hn' : f.Reaches n') (hh : f.store.Holds n m) (hh' : f.store.Holds n' m)
    (hm : m < f.store.size) : n' = n :=
  Option.some.inj ((h.link hn' hh' hm).symm.trans (h.link hn hh hm))

/-- The reachable nodes form a tree: what a reachable node holds exists and links back to it. A node
may sit in several slots of its holder, and the root may link to a node out of reach. -/
structure Held (f : SourceFile) : Prop where
  acyclic : f.Acyclic
  link : ∀ {n m}, f.Reaches n → f.store.Holds n m → f.store.parent (some m) = some n

namespace Held

variable {f : SourceFile} {n n' m : NodeId}

theorem treelike (h : f.Held) : f.Treelike := ⟨h.acyclic, fun hn hh _ => h.link hn hh⟩

theorem lt_size (h : f.Held) (hn : f.Reaches n) (hh : f.store.Holds n m) : m < f.store.size :=
  Store.lt_size_of_parent (h.link hn hh)

theorem reaches (h : f.Held) (hn : f.Reaches n) (hh : f.store.Holds n m) : f.Reaches m :=
  .step hn hh (h.lt_size hn hh)

theorem holder_eq (h : f.Held) (hn : f.Reaches n) (hn' : f.Reaches n') (hh : f.store.Holds n m)
    (hh' : f.store.Holds n' m) : n' = n :=
  Option.some.inj ((h.link hn' hh').symm.trans (h.link hn hh))

end Held

/-- The reachable nodes form a tree with a root that has no parent: each other one is in one slot of
the reachable nodes, and links to what holds it there. A slot may name a position where no node
is. -/
structure Rooted (f : SourceFile) : Prop where
  link : ∀ {n m : NodeId}, f.Reaches n → f.store.Holds n m → m < f.store.size →
    f.store.parent (some m) = some n
  once : ∀ {n m : NodeId}, f.Reaches n → m < f.store.size →
    (f.store.children (some n)).count (some m) ≤ 1
  root : f.store.parent f.root = none

namespace Rooted

variable {f : SourceFile} {n m : NodeId}

/-- What lies strictly below a reachable node is reachable, where it is a node. -/
private theorem reaches_of_transGen (hn : f.Reaches n) (h : Relation.TransGen f.store.Holds n m)
    (hm : m < f.store.size) : f.Reaches m := by
  induction h with
  | single hh => exact .step hn hh hm
  | tail _ hh ih => exact .step (ih (Store.holds_lt_size hh)) hh hm

/-- A node on a cycle has its holder on it. -/
private theorem exists_holder_of_cycle (hn : f.Reaches n)
    (hcycle : Relation.TransGen f.store.Holds n n) :
    ∃ k, f.Reaches k ∧ f.store.Holds k n ∧ Relation.ReflTransGen f.store.Holds n k := by
  obtain ⟨k, hk, hh⟩ := Relation.TransGen.tail'_iff.1 hcycle
  refine ⟨k, ?_, hh, hk⟩
  rcases Relation.reflTransGen_iff_eq_or_transGen.1 hk with rfl | hbelow
  · exact hn
  · exact reaches_of_transGen hn hbelow (Store.holds_lt_size hh)

/-- There is no cycle: a cycle through a node goes through its only holder, and so on up to the
root, which has none. -/
theorem acyclic (hf : f.Rooted) : f.Acyclic := by
  intro n hn
  induction hn with
  | @start n hroot hlt =>
    intro hcycle
    obtain ⟨k, hk, hh, -⟩ := exists_holder_of_cycle (.start hroot hlt) hcycle
    have hlink := hf.link hk hh hlt
    rw [← hroot, hf.root] at hlink
    cases hlink
  | @step n m hn hh hlt ih =>
    intro hcycle
    obtain ⟨k, hk, hhk, hbelow⟩ := exists_holder_of_cycle (.step hn hh hlt) hcycle
    obtain rfl : k = n := Option.some.inj ((hf.link hk hhk hlt).symm.trans (hf.link hn hh hlt))
    exact ih (Relation.TransGen.head' hh hbelow)

theorem treelike (hf : f.Rooted) : f.Treelike := ⟨hf.acyclic, hf.link⟩

/-- What a reachable node links to holds it. -/
theorem holds_of_parent (hf : f.Rooted) (hm : f.Reaches m) (h : f.store.parent (some m) = some n) :
    f.Reaches n ∧ f.store.Holds n m := by
  cases hm with
  | start hroot _ =>
    rw [← hroot, hf.root] at h
    cases h
  | @step k _ hk hh hlt =>
    rw [hf.link hk hh hlt] at h
    obtain rfl := Option.some.inj h
    exact ⟨hk, hh⟩

end Rooted

/-- The reachable nodes form a tree: what a reachable node holds exists and links back to it, no
node sits in two slots of one holder, and the root has no parent. -/
structure Linked (f : SourceFile) : Prop where
  link : ∀ {n m : NodeId}, f.Reaches n → f.store.Holds n m → f.store.parent (some m) = some n
  once : ∀ {n : NodeId} (m : NodeId), f.Reaches n → (f.store.children (some n)).count (some m) ≤ 1
  root : f.store.parent f.root = none

namespace Linked

theorem rooted {f : SourceFile} (hf : f.Linked) : f.Rooted :=
  ⟨fun hn hh _ => hf.link hn hh, fun hn _ => hf.once _ hn, hf.root⟩

theorem lt_size {f : SourceFile} (hf : f.Linked) {n m : NodeId} (hn : f.Reaches n)
    (hh : f.store.Holds n m) : m < f.store.size := by
  exact Store.lt_size_of_parent (hf.link hn hh)

theorem reaches {f : SourceFile} (hf : f.Linked) {n m : NodeId} (hn : f.Reaches n)
    (hh : f.store.Holds n m) : f.Reaches m :=
  .step hn hh (hf.lt_size hn hh)

theorem holder_eq {f : SourceFile} (hf : f.Linked) {n n' m : NodeId} (hn : f.Reaches n)
    (hn' : f.Reaches n') (hh : f.store.Holds n m) (hh' : f.store.Holds n' m) : n' = n := by
  have h := (hf.link hn hh).symm.trans (hf.link hn' hh')
  simpa using h.symm

/-- Two reachable payloads that have one child are one. -/
theorem holder_data?_eq {f : SourceFile} (hf : f.Linked) {n n' m : NodeId} {x x' : NodeData}
    (hn : f.Reaches n) (hn' : f.Reaches n') (hx : f.store.data? (some n) = some x)
    (hx' : f.store.data? (some n') = some x') (hm : some m ∈ x.children)
    (hm' : some m ∈ x'.children) :
    x' = x := by
  obtain rfl := hf.holder_eq hn hn' ((Store.holds_iff hx).2 hm) ((Store.holds_iff hx').2 hm')
  rw [hx] at hx'
  exact (Option.some.inj hx').symm

theorem acyclic {f : SourceFile} (hf : f.Linked) : f.Acyclic := hf.rooted.acyclic

end Linked

/-- A file all of whose nodes are linked and hold each child once is a linked tree. -/
theorem linked_of_forall {f : SourceFile}
    (h : ∀ n < f.store.size, ∀ r ∈ f.store.children (some n),
      f.store.parent r = (r.map fun _ => n) ∧ (f.store.children (some n)).count r ≤ 1)
    (hroot : f.store.parent f.root = none) : f.Linked := by
  refine ⟨?_, ?_, hroot⟩
  · intro n m hn hh
    simpa using (h n hn.lt_size _ hh).1
  · intro n m hn
    by_cases hm : some m ∈ f.store.children (some n)
    · exact (h n hn.lt_size _ hm).2
    · rw [List.count_eq_zero_of_not_mem hm]
      omega

/-- It is enough to look at nodes that contain the root and all that they hold. -/
theorem linked_of_closed {f : SourceFile} (ns : List NodeId) (hstart : ∀ n ∈ f.root, n ∈ ns)
    (h : ∀ n ∈ ns, ∀ r ∈ f.store.children (some n), (∀ m ∈ r, m ∈ ns) ∧
      f.store.parent r = (r.map fun _ => n) ∧ (f.store.children (some n)).count r ≤ 1)
    (hroot : f.store.parent f.root = none) : f.Linked := by
  have hmem : ∀ {n}, f.Reaches n → n ∈ ns := by
    intro n hn
    induction hn with
    | start hr _ => exact hstart _ hr
    | step _ hh _ ih => exact (h _ ih _ hh).1 _ rfl
  refine ⟨?_, ?_, hroot⟩
  · intro n m hn hh
    simpa using (h n (hmem hn) _ hh).2.1
  · intro n m hn
    by_cases hm : some m ∈ f.store.children (some n)
    · exact (h n (hmem hn) _ hm).2.2
    · rw [List.count_eq_zero_of_not_mem hm]
      omega

end SourceFile

end JavaRecipes
