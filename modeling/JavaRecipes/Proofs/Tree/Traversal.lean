import JavaRecipes.Proofs.Tree.Copies
import JavaRecipes.Proofs.Tree.Preorder

/-!
Traversals with a stack. A traversal takes one reference after the other from a stack and puts the
children of the node there in its place; it comes to an end exactly where there is no cycle
(`Store.ends_iff`). Then it has visited the nodes in the order in which a recursion over the
children does, and in a tree each of them once, if no node has two slots of its holder
(`Store.descendants_preorder`).
-/

namespace JavaRecipes

namespace Store

/-! ## Steps of a traversal -/

/-- A traversal on its way: the nodes it has visited, and a stack of references still to take, with
the top at the end. -/
structure Traversal where
  visited : List NodeId
  stack : List Ref

/-- Take the reference on top of the stack. If it is a node, that is visited, and its children are
put on the stack, the first one on top. -/
def Traversal.next? (s : Store) (v : Traversal) : Option Traversal :=
  match v.stack.getLast? with
  | none => none
  | some r =>
    match r, s.data? r with
    | some n, some x => some ⟨v.visited ++ [n], v.stack.dropLast ++ x.children.reverse⟩
    | _, _ => some ⟨v.visited, v.stack.dropLast⟩

/-- The second traversal is the first one after some steps. -/
abbrev Traversal.Leads (s : Store) : Traversal → Traversal → Prop :=
  Relation.ReflTransGen fun v w => v.next? s = some w

/-- From the first traversal the steps come to an end with the second one. -/
def Traversal.Ends (s : Store) (v w : Traversal) : Prop := v.Leads s w ∧ w.next? s = none

/-- A traversal that is at its start. -/
def Traversal.start (root : Ref) : Traversal := ⟨[], [root]⟩

variable {s : Store}

namespace Traversal

theorem next?_skip {r : Ref} (hr : s.data? r = none) (visited : List NodeId) (rest : List Ref) :
    next? s ⟨visited, (r :: rest).reverse⟩ = some ⟨visited, rest.reverse⟩ := by
  cases r <;> simp [next?, hr]

theorem next?_visit {n : NodeId} {x : NodeData} (hx : s.data? (some n) = some x)
    (visited : List NodeId) (rest : List Ref) :
    next? s ⟨visited, (some n :: rest).reverse⟩ =
      some ⟨visited ++ [n], (x.children ++ rest).reverse⟩ := by
  simp [next?, hx]

/-- All that a step can do: there is none on an empty stack, and else the top gives way to its
children. -/
theorem next?_cases (s : Store) (v : Traversal) :
    v.stack = [] ∧ v.next? s = none ∨
      ∃ r rest visited, v.stack = (r :: rest).reverse ∧
        v.next? s = some ⟨visited, (s.children r ++ rest).reverse⟩ := by
  obtain ⟨visited, stack⟩ := v
  obtain ⟨rs, rfl⟩ : ∃ rs : List Ref, stack = rs.reverse :=
    ⟨stack.reverse, stack.reverse_reverse.symm⟩
  cases rs with
  | nil => exact .inl ⟨rfl, rfl⟩
  | cons r rest =>
    cases hx : s.data? r with
    | none =>
      exact .inr
        ⟨r, rest, visited, rfl, by rw [next?_skip hx, children_eq_nil_of_data? hx, List.nil_append]⟩
    | some x =>
      obtain ⟨n, rfl⟩ := exists_of_data? hx
      exact .inr ⟨some n, rest, visited ++ [n], rfl,
        by rw [next?_visit hx, children_eq_of_data? hx]⟩

/-- What is taken one by one is taken as a list. -/
theorem leads_list {depth : Nat}
    (h : ∀ r, s.Shallow depth r → ∀ visited rest,
      Leads s ⟨visited, (r :: rest).reverse⟩ ⟨visited ++ s.preorder depth r, rest.reverse⟩)
    (rs : List Ref) (hrs : ∀ r ∈ rs, s.Shallow depth r) (visited : List NodeId) (rest : List Ref) :
    Leads s ⟨visited, (rs ++ rest).reverse⟩ ⟨visited ++ rs.flatMap (s.preorder depth),
      rest.reverse⟩ := by
  induction rs generalizing visited with
  | nil => simpa using Relation.ReflTransGen.refl
  | cons r rs ih =>
    have hfirst := h r (hrs r List.mem_cons_self) visited (rs ++ rest)
    have hrest := ih (fun r hr => hrs r (List.mem_cons_of_mem _ hr)) (visited ++ s.preorder depth r)
    rw [List.append_assoc, ← List.flatMap_cons] at hrest
    exact hfirst.trans hrest

/-- A reference with short paths down is taken off the stack, and what is below it is visited. -/
theorem leads_of_shallow (depth : Nat) (r : Ref) (hr : s.Shallow depth r) (visited : List NodeId)
    (rest : List Ref) :
    Leads s ⟨visited, (r :: rest).reverse⟩ ⟨visited ++ s.preorder depth r, rest.reverse⟩ := by
  induction depth generalizing r visited rest with
  | zero =>
    refine .single ?_
    rw [next?_skip hr, preorder, List.append_nil]
  | succ depth ih =>
    cases hx : s.data? r with
    | none =>
      have hnil : s.preorder (depth + 1) r = [] := by cases r <;> simp [preorder, hx]
      refine .single ?_
      rw [next?_skip hx, hnil, List.append_nil]
    | some x =>
      obtain ⟨n, rfl⟩ := exists_of_data? hx
      have hchildren : ∀ c ∈ x.children, s.Shallow depth c := by rwa [← children_eq_of_data? hx]
      have hbelow := leads_list ih x.children hchildren (visited ++ [n]) rest
      refine .head (next?_visit hx visited rest) ?_
      simpa [preorder, hx] using hbelow

/-- Where the steps come to an end, there is no cycle below what was on the stack: it was taken off,
and there is none below the children that were put there instead. -/
theorem Ends.acyclic {v w : Traversal} (h : v.Ends s w) : ∀ r ∈ v.stack, s.Acyclic r := by
  obtain ⟨hleads, hend⟩ := h
  induction hleads using Relation.ReflTransGen.head_induction_on with
  | refl =>
    rcases next?_cases s w with ⟨hnil, -⟩ | ⟨r, rest, visited, -, hstep⟩
    · simp [hnil]
    · rw [hend] at hstep
      cases hstep
  | @head u v hstep _ ih =>
    rcases next?_cases s u with ⟨-, hnone⟩ | ⟨r, rest, visited, hstack, hnext⟩
    · rw [hstep] at hnone
      cases hnone
    · obtain rfl := Option.some.inj (hstep.symm.trans hnext)
      have hbelow : ∀ q, q ∈ s.children r ∨ q ∈ rest → s.Acyclic q :=
        fun q hq => ih q (by simpa [or_comm] using hq)
      intro q hq
      rw [hstack, List.mem_reverse] at hq
      rcases List.mem_cons.1 hq with rfl | hq
      · exact acyclic_of_children fun c hc => hbelow c (.inl hc)
      · exact hbelow q (.inr hq)

theorem ends_start {root : Ref} (hs : s.Acyclic root) :
    (start root).Ends s ⟨s.descendants root, []⟩ := by
  have hleads := leads_of_shallow (s.size + 1) root (shallow_of_acyclic hs) [] []
  rw [← descendants_eq_preorder hs] at hleads
  exact ⟨hleads, rfl⟩

end Traversal

/-- A traversal comes to an end exactly if no node in reach is below itself. -/
theorem ends_iff {root : Ref} : (∃ w, (Traversal.start root).Ends s w) ↔ s.Acyclic root := by
  refine ⟨?_, fun hs => ⟨_, Traversal.ends_start hs⟩⟩
  rintro ⟨w, hw⟩
  exact hw.acyclic root (List.mem_singleton_self root)

/-! ## The order of the visits -/

/-- What a recursion over the children gives: nothing where no node is, and a node in reach before
what its children give. -/
structure IsPreorder (s : Store) (root : Ref) (order : Ref → List NodeId) : Prop where
  absent : ∀ {r}, s.data? r = none → order r = []
  node : ∀ {n}, s.Reaches root n → order (some n) = n :: (s.children (some n)).flatMap order

variable {root : Ref}

theorem Acyclic.of_reaches (hs : s.Acyclic root) {n : NodeId} (hn : s.Reaches root n) :
    s.Acyclic (some n) :=
  fun m hm => hs m (hn.trans hm)

/-- All in reach of a child is in reach of the root, if the node is. -/
theorem Acyclic.child (hs : s.Acyclic root) {n : NodeId} (hn : s.Reaches root n) {c : Ref}
    (hc : c ∈ s.children (some n)) : s.Acyclic c := by
  cases c with
  | none => exact acyclic_of_children (by simp [children, data?, get?])
  | some m => exact fun k hk => hs k (hn.trans (.of_child hc hk))

theorem preorder_node {n : NodeId} {x : NodeData} (hx : s.data? (some n) = some x) (depth : Nat) :
    s.preorder (depth + 1) (some n) = n :: (s.children (some n)).flatMap (s.preorder depth) := by
  simp [preorder, hx, children_eq_of_data? hx]

/-- A recursion that goes down to the leaves is not changed by going further. -/
theorem preorder_succ {depth : Nat} {r : Ref} (hr : s.Shallow depth r) :
    s.preorder (depth + 1) r = s.preorder depth r := by
  induction depth generalizing r with
  | zero => cases r <;> simp [preorder, show s.data? _ = none from hr]
  | succ depth ih =>
    cases hx : s.data? r with
    | none => cases r <;> simp [preorder, hx]
    | some x =>
      obtain ⟨n, rfl⟩ := exists_of_data? hx
      rw [preorder_node hx, preorder_node hx]
      exact congrArg (n :: ·) (List.flatMap_congr fun c hc => ih (hr c hc))

/-- The visited nodes are such a recursion. -/
theorem isPreorder_descendants (hs : s.Acyclic root) : s.IsPreorder root s.descendants where
  absent {r} hr := by
    have hacyclic : s.Acyclic r := acyclic_of_children (by simp [children_eq_nil_of_data? hr])
    rw [descendants_eq_preorder hacyclic]
    cases r <;> simp [preorder, hr]
  node {n} hn := by
    obtain ⟨x, hx⟩ := exists_data? hn.lt_size
    have hshallow := shallow_of_acyclic (hs.of_reaches hn)
    rw [descendants_eq_preorder (hs.of_reaches hn), preorder_node hx]
    refine congrArg (n :: ·) (List.flatMap_congr fun c hc => ?_)
    rw [descendants_eq_preorder (hs.child hn hc), preorder_succ (hshallow c hc)]

/-- There is no other one. -/
theorem IsPreorder.eq {order : Ref → List NodeId} (h : s.IsPreorder root order)
    {depth : Nat} {r : Ref} (hr : s.Shallow depth r)
    (hreach : ∀ n, s.Reaches r n → s.Reaches root n) : order r = s.preorder depth r := by
  induction depth generalizing r with
  | zero => rw [h.absent hr, preorder]
  | succ depth ih =>
    cases hx : s.data? r with
    | none => cases r <;> simp [h.absent hx, preorder, hx]
    | some x =>
      obtain ⟨n, rfl⟩ := exists_of_data? hx
      rw [h.node (hreach n (.start rfl (lt_size_of_data? hx))), preorder_node hx]
      refine congrArg (n :: ·) (List.flatMap_congr fun c hc => ?_)
      exact ih (hr c hc) fun m hm => hreach m (hm.of_child hc)

/-! ## How often a node is visited -/

/-- No node has two holders in reach. -/
def OneHolder (s : Store) (root : Ref) : Prop :=
  ∀ {n n' m}, s.Reaches root n → s.Reaches root n' → m < s.size → s.Holds n m →
    s.Holds n' m → n = n'

/-- No node has two slots of a holder in reach. -/
def OneSlot (s : Store) (root : Ref) : Prop :=
  ∀ {n m}, s.Reaches root n → m < s.size → (s.children (some n)).count (some m) ≤ 1

/-- Two nodes that lead to a third one lead one to the other, as there is one way up. -/
theorem OneHolder.reaches_or_reaches (h : s.OneHolder root) {i j m : NodeId} (hi : s.Reaches root i)
    (hj : s.Reaches root j) (him : s.Reaches (some i) m) (hjm : s.Reaches (some j) m) :
    s.Reaches (some i) j ∨ s.Reaches (some j) i := by
  induction him with
  | start heq _ =>
    obtain rfl := Option.some.inj heq
    exact .inr hjm
  | @step k m hk hh hm ih =>
    cases hjm with
    | start heq _ =>
      obtain rfl := Option.some.inj heq
      exact .inl (.step hk hh hm)
    | @step k' _ hk' hh' _ =>
      obtain rfl := h (hi.trans hk) (hj.trans hk') hm hh hh'
      exact ih hk'

/-- A child does not lead to another one of the same node: that would be held from below. -/
theorem OneHolder.eq_of_reaches (h : s.OneHolder root) (hs : s.Acyclic root) {n i j : NodeId}
    (hn : s.Reaches root n) (hi : s.Holds n i) (hj : s.Holds n j)
    (hij : s.Reaches (some i) j) : i = j := by
  cases hij with
  | start heq _ => exact Option.some.inj heq
  | @step k _ hk hh hlt =>
    have hreach : s.Reaches root k := hn.trans (.of_child hi hk)
    obtain rfl := h hreach hn hlt hh hj
    exact absurd (Relation.TransGen.head' hi hk.reflTransGen) (hs _ hn)

/-- Two children of a node that lead to one node are one child. -/
theorem OneHolder.eq_of_reaches_both (h : s.OneHolder root) (hs : s.Acyclic root) {n i j m : NodeId}
    (hn : s.Reaches root n) (hi : s.Holds n i) (hj : s.Holds n j) (him : s.Reaches (some i) m)
    (hjm : s.Reaches (some j) m) : i = j := by
  obtain ⟨_, ⟨rfl⟩, hii⟩ := him.exists_root
  obtain ⟨_, ⟨rfl⟩, hjj⟩ := hjm.exists_root
  rcases h.reaches_or_reaches (hn.trans (.of_child hi hii)) (hn.trans (.of_child hj hjj)) him
    hjm with hij | hji
  · exact h.eq_of_reaches hs hn hi hj hij
  · exact (h.eq_of_reaches hs hn hj hi hji).symm

/-- Each occurrence of an element brings all that comes from it. -/
theorem count_mul_le_count_flatMap {α β : Type} [BEq α] [LawfulBEq α] [BEq β] (as : List α)
    (f : α → List β) (a : α) (b : β) : as.count a * (f a).count b ≤ (as.flatMap f).count b := by
  induction as with
  | nil => simp
  | cons c cs ih =>
    rw [List.flatMap_cons, List.count_append, List.count_cons, Nat.add_mul]
    by_cases hc : c = a
    · subst hc
      simp
      omega
    · simp [hc]
      omega

/-- If no node has two holders or two slots, none is visited twice. -/
theorem nodup_preorder (hs : s.Acyclic root) (hholder : s.OneHolder root)
    (hslot : s.OneSlot root) {depth : Nat} {r : Ref} (hr : s.Shallow depth r)
    (hreach : ∀ n, s.Reaches r n → s.Reaches root n) :
    (s.preorder depth r).Nodup := by
  induction depth generalizing r with
  | zero => exact List.nodup_nil
  | succ depth ih =>
    cases hx : s.data? r with
    | none => cases r <;> simp [preorder, hx]
    | some x =>
      obtain ⟨n, rfl⟩ := exists_of_data? hx
      have hn : s.Reaches root n := hreach n (.start rfl (lt_size_of_data? hx))
      have hmem : ∀ c ∈ s.children (some n), ∀ m, m ∈ s.preorder depth c ↔ s.Reaches c m :=
        fun c hc m => mem_preorder_iff depth c (hr c hc) m
      rw [preorder_node hx, List.nodup_cons, List.nodup_flatMap]
      refine ⟨fun hbelow => ?_, fun c hc => ih (hr c hc) fun m hm => hreach m (hm.of_child hc), ?_⟩
      · -- A node below one of its children would be below itself.
        obtain ⟨c, hc, hcn⟩ := List.mem_flatMap.1 hbelow
        have hcn := (hmem c hc n).1 hcn
        obtain ⟨k, rfl, -⟩ := hcn.exists_root
        exact hs n hn (.head' hc hcn.reflTransGen)
      · -- A node below two slots is below one child, which then is in both.
        rw [List.pairwise_iff_forall_sublist]
        intro a b hab m hma hmb
        have ha : a ∈ s.children (some n) := hab.subset (by simp)
        have hb : b ∈ s.children (some n) := hab.subset (by simp)
        have hma := (hmem a ha m).1 hma
        have hmb := (hmem b hb m).1 hmb
        obtain ⟨i, rfl, hi⟩ := hma.exists_root
        obtain ⟨j, rfl, -⟩ := hmb.exists_root
        obtain rfl := hholder.eq_of_reaches_both hs hn ha hb hma hmb
        have htwice := hab.count_le (some i)
        have honce := hslot hn hi.lt_size
        simp at htwice
        omega

/-- Below the root a node is visited at least as often as below a node in reach. -/
theorem count_descendants_le (hs : s.Acyclic root) {n : NodeId} (hn : s.Reaches root n)
    (m : NodeId) :
    (s.descendants (some n)).count m ≤ (s.descendants root).count m := by
  induction hn with
  | start hroot _ => rw [hroot]
  | @step k n hk hh _ ih =>
    have hbelow := count_mul_le_count_flatMap (s.children (some k)) s.descendants (some n) m
    have hheld : 0 < (s.children (some k)).count (some n) := List.count_pos_iff.2 hh
    have hle : (s.descendants (some n)).count m ≤ (s.descendants (some k)).count m := by
      rw [(isPreorder_descendants hs).node hk]
      exact (Nat.le_mul_of_pos_left _ hheld).trans (hbelow.trans (List.count_le_count_cons))
    exact hle.trans ih

/-- With one holder each, all nodes in reach are visited once exactly if none has two slots. -/
theorem OneHolder.count_descendants_iff (h : s.OneHolder root) (hs : s.Acyclic root) :
    (∀ m, s.Reaches root m → (s.descendants root).count m = 1) ↔ s.OneSlot root := by
  constructor
  · intro honce n m hn hm
    by_contra htwice
    have hheld : s.Holds n m := List.count_pos_iff.1 (by omega)
    have hself : 0 < (s.descendants (some m)).count m := by
      rw [(isPreorder_descendants hs).node (.step hn hheld hm)]
      simp
    have hbelow := count_mul_le_count_flatMap (s.children (some n)) s.descendants (some m) m
    have hnode : ((s.children (some n)).flatMap s.descendants).count m ≤
        (s.descendants (some n)).count m := by
      rw [(isPreorder_descendants hs).node hn]
      exact List.count_le_count_cons
    have hall := count_descendants_le hs hn m
    have hone := honce m (.step hn hheld hm)
    have hmul : 2 * 1 ≤ (s.children (some n)).count (some m) * (s.descendants (some m)).count m :=
      Nat.mul_le_mul (by omega) hself
    omega
  · intro hslot m hm
    have hnodup := nodup_preorder hs h hslot (shallow_of_acyclic hs) fun _ hn => hn
    rw [← descendants_eq_preorder hs] at hnodup
    exact List.count_eq_one_of_mem hnodup ((mem_descendants_iff hs m).2 hm)

/-- Without a cycle a traversal comes to an end. Then it has visited what the recursion over the
children gives, which is what is in reach; and if no node has two holders in reach, each node is
visited once exactly if none has two slots of its holder. -/
theorem descendants_preorder (s : Store) (root : Ref) (hs : s.Acyclic root) :
    (Traversal.start root).Ends s ⟨s.descendants root, []⟩ ∧
    s.IsPreorder root s.descendants ∧
    (∀ order, s.IsPreorder root order → order root = s.descendants root) ∧
    (∀ m, m ∈ s.descendants root ↔ s.Reaches root m) ∧
    (s.OneHolder root →
      ((∀ m, s.Reaches root m → (s.descendants root).count m = 1) ↔ s.OneSlot root)) := by
  refine ⟨Traversal.ends_start hs, isPreorder_descendants hs, fun order h => ?_,
    mem_descendants_iff hs,
    fun h => h.count_descendants_iff hs⟩
  rw [descendants_eq_preorder hs]
  exact h.eq (shallow_of_acyclic hs) fun _ hn => hn

/-- An array that has one element twice. -/
def echoStore : Store where
  nodes := #[⟨some 1, .identifier ⟨"a", none, none⟩⟩, ⟨none, .newArray ⟨[some 0, some 0], none⟩⟩]

/-- There the element has one holder, and is visited twice. -/
theorem descendants_echoStore :
    echoStore.Acyclic (some 1) ∧ echoStore.OneHolder (some 1) ∧ echoStore.Reaches (some 1) 0 ∧
      (echoStore.descendants (some 1)).count 0 = 2 := by
  have hs : echoStore.Acyclic (some 1) := acyclic_of_rank id (by decide) _
  refine ⟨hs, fun {n n' m} hn hn' hm hh hh' => ?_,
    (mem_descendants_iff hs 0).1 (by decide), by decide⟩
  have honly : ∀ n < 2, ∀ m < 2, some m ∈ echoStore.children (some n) → n = 1 := by decide
  rw [honly n hn.lt_size m hm hh, honly n' hn'.lt_size m hm hh']

/-- A block of two returns that are stored in no order, the first one with a name. -/
def mixedStore : Store where
  nodes := #[⟨some 3, .identifier ⟨"a", none, none⟩⟩, ⟨none, .block ⟨[some 3, none, some 2]⟩⟩,
    ⟨some 1, .returnStatement ⟨none⟩⟩, ⟨some 1, .returnStatement ⟨some 0⟩⟩]

/-- The nodes of the block are visited once each, and where the recursion has them. -/
theorem descendants_preorder_mixedStore :
    mixedStore.descendants (some 1) = [1, 3, 0, 2] ∧
    mixedStore.descendants (some 1) =
      1 :: (mixedStore.children (some 1)).flatMap mixedStore.descendants ∧
    ∀ m, mixedStore.Reaches (some 1) m → (mixedStore.descendants (some 1)).count m = 1 := by
  have hs : mixedStore.Acyclic (some 1) :=
    acyclic_of_rank (fun n => [0, 2, 0, 1].getD n 0) (by decide) _
  obtain ⟨-, hpreorder, -, hreach, hone⟩ := descendants_preorder mixedStore (some 1) hs
  have hholder : mixedStore.OneHolder (some 1) := by
    intro n n' m hn hn' hm hh hh'
    have hlinked : ∀ n < 4, ∀ m < 4, some m ∈ mixedStore.children (some n) →
        mixedStore.parent (some m) = some n := by
      decide
    exact Option.some.inj
      ((hlinked n hn.lt_size m hm hh).symm.trans (hlinked n' hn'.lt_size m hm hh'))
  have hslot : mixedStore.OneSlot (some 1) := by
    intro n m hn hm
    have honce : ∀ n < 4, ∀ m < 4, (mixedStore.children (some n)).count (some m) ≤ 1 := by decide
    exact honce n hn.lt_size m hm
  exact ⟨by decide, hpreorder.node ((hreach 1).1 (by decide)), (hone hholder).2 hslot⟩

end Store

end JavaRecipes
