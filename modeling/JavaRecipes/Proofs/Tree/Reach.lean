import JavaRecipes.Tree.SourceFile
import Mathlib.Data.Finset.Card
import Mathlib.Logic.Relation

/-!
Which nodes a file reaches. Reachability is a relation on the child slots; where it has no cycle,
the traversal of a store visits exactly the reachable nodes (`mem_descendants_iff`), each before
what it holds.
-/

namespace JavaRecipes

namespace Store

/-- `m` is in a child slot of `n`. -/
def Holds (s : Store) (n m : NodeId) : Prop := some m ∈ s.children (some n)

/-- The nodes at `root` and below. -/
inductive Reaches (s : Store) (root : Ref) : NodeId → Prop
  | start {n : NodeId} : root = some n → n < s.size → Reaches s root n
  | step {n m : NodeId} : Reaches s root n → s.Holds n m → m < s.size → Reaches s root m

/-- No reachable node is below itself. -/
def Acyclic (s : Store) (root : Ref) : Prop :=
  ∀ n, s.Reaches root n → ¬ Relation.TransGen s.Holds n n

theorem data?_isSome_iff (s : Store) (n : NodeId) : (s.data? (some n)).isSome ↔ n < s.size := by
  simp [data?, get?, size]

theorem get?_isSome_iff (s : Store) (n : NodeId) : (s.get? (some n)).isSome ↔ n < s.size := by
  rw [← data?_isSome_iff, data?, Option.isSome_map]

theorem exists_data? {s : Store} {n : NodeId} (h : n < s.size) : ∃ x, s.data? (some n) = some x :=
  Option.isSome_iff_exists.1 ((s.data?_isSome_iff n).2 h)

theorem lt_size_of_data? {s : Store} {n : NodeId} {x : NodeData} (h : s.data? (some n) = some x) :
    n < s.size :=
  (s.data?_isSome_iff n).1 (by simp [h])

theorem lt_size_of_parent {s : Store} {n k : NodeId} (h : s.parent (some n) = some k) :
    n < s.size := by
  obtain ⟨node, hnode, -⟩ := Option.bind_eq_some_iff.1 h
  rw [← data?_isSome_iff, data?, hnode]
  rfl

theorem exists_of_data? {s : Store} {r : Ref} {x : NodeData} (h : s.data? r = some x) :
    ∃ n, r = some n := by
  cases r with
  | none => simp [data?, get?] at h
  | some n => exact ⟨n, rfl⟩

theorem method?_eq_some {s : Store} {r : Ref} {d : MethodDeclaration} :
    s.method? r = some d ↔ s.data? r = some (.methodDeclaration d) := by
  unfold method?
  cases s.data? r with
  | none => simp
  | some x => cases x <;> simp [NodeData.method?]

theorem block?_eq_some {s : Store} {r : Ref} {d : Block} :
    s.block? r = some d ↔ s.data? r = some (.block d) := by
  unfold block?
  cases s.data? r with
  | none => simp
  | some x => cases x <;> simp [NodeData.block?]

theorem annotationUse?_eq_some {s : Store} {r : Ref} {d : AnnotationUse} :
    s.annotationUse? r = some d ↔ s.data? r = some (.annotationUse d) := by
  unfold annotationUse?
  cases s.data? r with
  | none => simp
  | some x => cases x <;> simp [NodeData.annotationUse?]

theorem class?_eq_some {s : Store} {r : Ref} {d : ClassDeclaration} :
    s.class? r = some d ↔ s.data? r = some (.classDeclaration d) := by
  unfold class?
  cases s.data? r with
  | none => simp
  | some x => cases x <;> simp [NodeData.class?]

theorem declarations?_eq_some {s : Store} {r : Ref} {d : VariableDeclarations} :
    s.declarations? r = some d ↔ s.data? r = some (.variableDeclarations d) := by
  unfold declarations?
  cases s.data? r with
  | none => simp
  | some x => cases x <;> simp [NodeData.declarations?]

theorem namedVariable?_eq_some {s : Store} {r : Ref} {d : NamedVariable} :
    s.namedVariable? r = some d ↔ s.data? r = some (.namedVariable d) := by
  unfold namedVariable?
  cases s.data? r with
  | none => simp
  | some x => cases x <;> simp [NodeData.namedVariable?]

theorem identifierText?_eq_some {s : Store} {r : Ref} {name : String} :
    s.identifierText? r = some name ↔ ∃ d, s.data? r = some (.identifier d) ∧ d.name = name := by
  unfold identifierText? identifier?
  cases s.data? r with
  | none => simp
  | some x => cases x <;> simp [NodeData.identifier?]

theorem stringLiteral?_eq_some {s : Store} {r : Ref} {value : String} :
    s.stringLiteral? r = some value ↔
      ∃ type, s.data? r = some (.literal { value := .string value, type }) := by
  unfold stringLiteral? literal?
  cases s.data? r with
  | none => simp
  | some x =>
    cases x with
    | literal d =>
      obtain ⟨v, type⟩ := d
      cases v <;> simp [NodeData.literal?, LiteralValue.string?]
    | _ => simp [NodeData.literal?]

theorem children_eq_of_data? {s : Store} {r : Ref} {x : NodeData} (h : s.data? r = some x) :
    s.children r = x.children := by
  simp [children, h]

theorem holds_iff {s : Store} {n m : NodeId} {x : NodeData} (hx : s.data? (some n) = some x) :
    s.Holds n m ↔ some m ∈ x.children := by
  rw [Holds, children_eq_of_data? hx]

theorem children_eq_nil_of_data? {s : Store} {r : Ref} (h : s.data? r = none) :
    s.children r = [] := by
  simp [children, h]

theorem holds_lt_size {s : Store} {n m : NodeId} (h : s.Holds n m) : n < s.size := by
  cases hx : s.data? (some n) with
  | none => simp [Holds, children_eq_nil_of_data? hx] at h
  | some x => exact lt_size_of_data? hx

namespace Reaches

theorem lt_size {s : Store} {root : Ref} {n : NodeId} (h : s.Reaches root n) : n < s.size := by
  cases h with
  | start _ hn => exact hn
  | step _ _ hm => exact hm

/-- What is reached from a child is reached from the node that holds it. -/
theorem of_child {s : Store} {r c : Ref} {n : NodeId} (hc : c ∈ s.children r)
    (h : s.Reaches c n) : s.Reaches r n := by
  induction h with
  | @start m hroot hm =>
    subst hroot
    cases r with
    | none => simp [children, data?, get?] at hc
    | some k => exact .step (.start rfl (holds_lt_size hc)) hc hm
  | step _ hh hm ih => exact .step ih hh hm

/-- A reached node is the root, or is reached from one of its children. -/
theorem eq_or_child {s : Store} {r : Ref} {n : NodeId} (h : s.Reaches r n) :
    r = some n ∨ ∃ c ∈ s.children r, s.Reaches c n := by
  induction h with
  | start hroot _ => exact .inl hroot
  | @step n m _ hh hm ih =>
    refine .inr ?_
    rcases ih with hr | ⟨c, hc, hn⟩
    · exact ⟨some m, hr ▸ hh, .start rfl hm⟩
    · exact ⟨c, hc, .step hn hh hm⟩

theorem trans {s : Store} {root : Ref} {n m : NodeId} (hn : s.Reaches root n)
    (hm : s.Reaches (some n) m) : s.Reaches root m := by
  induction hm with
  | start hroot _ =>
    obtain rfl := Option.some.inj hroot
    exact hn
  | step _ hh hlt ih => exact .step ih hh hlt

/-- Where something is in reach, the root is a node. -/
theorem exists_root {s : Store} {root : Ref} {n : NodeId} (h : s.Reaches root n) :
    ∃ r, root = some r ∧ s.Reaches root r := by
  induction h with
  | @start r hroot hlt => exact ⟨r, hroot, .start hroot hlt⟩
  | step _ _ _ ih => exact ih

end Reaches

/-! ## Traversal -/

/-- The nodes at `r` and below in depth-first order, at most `depth` levels of them. -/
def preorder (s : Store) : Nat → Ref → List NodeId
  | 0, _ => []
  | depth + 1, r =>
    match r, s.data? r with
    | some n, some x => n :: x.children.flatMap (s.preorder depth)
    | _, _ => []

/-- No path down from `r` has more than so many nodes. -/
def Shallow (s : Store) : Nat → Ref → Prop
  | 0, r => s.data? r = none
  | depth + 1, r => ∀ c ∈ s.children r, s.Shallow depth c

theorem traverse_skip {s : Store} {r : Ref} (h : s.data? r = none) (fuel : Nat) (rest : List Ref) :
    s.traverse (fuel + 1) (r :: rest) = s.traverse fuel rest := by
  cases r <;> simp [traverse, h]

theorem traverse_visit {s : Store} {n : NodeId} {x : NodeData} (h : s.data? (some n) = some x)
    (fuel : Nat) (rest : List Ref) :
    s.traverse (fuel + 1) (some n :: rest) = n :: s.traverse fuel (x.children ++ rest) := by
  simp [traverse, h]

/-- A traversal visits only what is in reach. -/
theorem reaches_of_mem_traverse {s : Store} {fuel : Nat} {rs : List Ref} {n : NodeId}
    (h : n ∈ s.traverse fuel rs) : ∃ r ∈ rs, s.Reaches r n := by
  induction fuel generalizing rs with
  | zero => simp [traverse] at h
  | succ fuel ih =>
    cases rs with
    | nil => simp [traverse] at h
    | cons r rest =>
      cases hx : s.data? r with
      | none =>
        rw [traverse_skip hx] at h
        obtain ⟨r', hr', hn⟩ := ih h
        exact ⟨r', List.mem_cons_of_mem _ hr', hn⟩
      | some x =>
        obtain ⟨k, rfl⟩ := exists_of_data? hx
        rw [traverse_visit hx] at h
        rcases List.mem_cons.1 h with rfl | h
        · exact ⟨_, List.mem_cons_self, .start rfl (lt_size_of_data? hx)⟩
        · obtain ⟨r', hr', hn⟩ := ih h
          rcases List.mem_append.1 hr' with hr' | hr'
          · exact ⟨some k, List.mem_cons_self, hn.of_child (by rwa [children_eq_of_data? hx])⟩
          · exact ⟨r', List.mem_cons_of_mem _ hr', hn⟩

/-- A traversal that takes its first references one by one does so for a list of them. -/
private theorem traverse_list {s : Store} {depth : Nat}
    (h : ∀ r, s.Shallow depth r → ∀ fuel rest,
      s.traverse (s.visits depth r + fuel) (r :: rest) = s.preorder depth r ++ s.traverse fuel rest)
    (rs : List Ref) (hrs : ∀ r ∈ rs, s.Shallow depth r) (fuel : Nat) (rest : List Ref) :
    s.traverse (rs.foldr (fun r n => s.visits depth r + n) 0 + fuel) (rs ++ rest) =
      rs.flatMap (s.preorder depth) ++ s.traverse fuel rest := by
  induction rs with
  | nil => simp
  | cons r rs ih =>
    have hr :=
      h r (hrs r (by simp)) (rs.foldr (fun r n => s.visits depth r + n) 0 + fuel) (rs ++ rest)
    rw [List.foldr_cons, Nat.add_assoc, List.cons_append, hr,
      ih fun r hr => hrs r (List.mem_cons_of_mem _ hr)]
    simp

/-- The fuel that `visits` counts is what a shallow reference needs. -/
theorem traverse_cons {s : Store} (depth : Nat) (r : Ref) (hr : s.Shallow depth r) (fuel : Nat)
    (rest : List Ref) :
    s.traverse (s.visits depth r + fuel) (r :: rest) =
      s.preorder depth r ++ s.traverse fuel rest := by
  induction depth generalizing r fuel rest with
  | zero =>
    rw [visits, Nat.add_comm, traverse_skip hr]
    rfl
  | succ depth ih =>
    cases hx : s.data? r with
    | none =>
      have hv : s.visits (depth + 1) r = 1 := by simp [visits, children_eq_nil_of_data? hx]
      have hp : s.preorder (depth + 1) r = [] := by cases r <;> simp [preorder, hx]
      rw [hv, hp, Nat.add_comm, traverse_skip hx, List.nil_append]
    | some x =>
      cases r with
      | none => simp [data?, get?] at hx
      | some n =>
        have hc : s.children (some n) = x.children := children_eq_of_data? hx
        have hv : s.visits (depth + 1) (some n) + fuel =
            (x.children.foldr (fun r n => s.visits depth r + n) 0 + fuel) + 1 := by
          simp only [visits, hc]
          omega
        rw [hv, traverse_visit hx, traverse_list ih x.children (hc ▸ hr)]
        simp [preorder, hx]

theorem mem_preorder_iff {s : Store} (depth : Nat) (r : Ref) (hr : s.Shallow depth r) (n : NodeId) :
    n ∈ s.preorder depth r ↔ s.Reaches r n := by
  induction depth generalizing r with
  | zero =>
    refine ⟨fun h => by simp [preorder] at h, fun h => ?_⟩
    rcases h.eq_or_child with rfl | ⟨c, hc, -⟩
    · obtain ⟨x, hx⟩ := exists_data? h.lt_size
      exact absurd hr (by simp [Shallow, hx])
    · simp [children_eq_nil_of_data? hr] at hc
  | succ depth ih =>
    constructor
    · intro h
      cases hx : s.data? r with
      | none => cases r <;> simp [preorder, hx] at h
      | some x =>
        cases r with
        | none => simp [data?, get?] at hx
        | some k =>
          simp only [preorder, hx, List.mem_cons, List.mem_flatMap] at h
          rcases h with rfl | ⟨c, hc, hn⟩
          · exact .start rfl (lt_size_of_data? hx)
          · have hc' : c ∈ s.children (some k) := by rwa [children_eq_of_data? hx]
            exact ((ih c (hr c hc')).1 hn).of_child hc'
    · intro h
      rcases h.eq_or_child with rfl | ⟨c, hc, hn⟩
      · obtain ⟨x, hx⟩ := exists_data? h.lt_size
        simp [preorder, hx]
      · cases hx : s.data? r with
        | none => simp [children_eq_nil_of_data? hx] at hc
        | some x =>
          cases r with
          | none => simp [data?, get?] at hx
          | some k =>
            have hc' : c ∈ x.children := by rwa [children_eq_of_data? hx] at hc
            simp only [preorder, hx, List.mem_cons, List.mem_flatMap]
            exact .inr ⟨c, hc', (ih c (hr c hc)).2 hn⟩

theorem Shallow.succ {s : Store} {depth : Nat} {r : Ref} (h : s.Shallow depth r) :
    s.Shallow (depth + 1) r := by
  induction depth generalizing r with
  | zero =>
    intro c hc
    simp [children_eq_nil_of_data? h] at hc
  | succ depth ih => exact fun c hc => ih (h c hc)

/-- Without a cycle a path has at most as many nodes as the store. `above` are the nodes already on
the path; each of them is above `r`, so `r` is none of them. -/
private theorem shallow_of_acyclic_above {s : Store} {root : Ref}
    (hs : s.Acyclic root) (depth : Nat) (above : Finset NodeId) (r : Ref)
    (hlt : ∀ a ∈ above, a < s.size)
    (hup : ∀ a ∈ above, ∀ n, r = some n → Relation.TransGen s.Holds a n)
    (hr : ∀ n, r = some n → n < s.size → s.Reaches root n) (hcard : s.size ≤ above.card + depth) :
    s.Shallow depth r := by
  induction depth generalizing above r with
  | zero =>
    cases hx : s.data? r with
    | none => exact hx
    | some x =>
      cases r with
      | none => simp [data?, get?] at hx
      | some n =>
        have hn := lt_size_of_data? hx
        have hnot : n ∉ above := fun ha => hs n (hr n rfl hn) (hup n ha n rfl)
        have hsub : insert n above ⊆ Finset.range s.size := by
          intro a ha
          rcases Finset.mem_insert.1 ha with rfl | ha
          · exact Finset.mem_range.2 hn
          · exact Finset.mem_range.2 (hlt a ha)
        have hle := Finset.card_le_card hsub
        rw [Finset.card_insert_of_notMem hnot, Finset.card_range] at hle
        omega
  | succ depth ih =>
    intro c hc
    cases r with
    | none => simp [children, data?, get?] at hc
    | some n =>
      have hn : n < s.size := by
        cases hx : s.data? (some n) with
        | none => simp [children_eq_nil_of_data? hx] at hc
        | some x => exact lt_size_of_data? hx
      have hnot : n ∉ above := fun ha => hs n (hr n rfl hn) (hup n ha n rfl)
      refine ih (insert n above) c ?_ ?_ ?_ ?_
      · intro a ha
        rcases Finset.mem_insert.1 ha with rfl | ha
        · exact hn
        · exact hlt a ha
      · rintro a ha m rfl
        rcases Finset.mem_insert.1 ha with rfl | ha
        · exact .single hc
        · exact .tail (hup a ha n rfl) hc
      · rintro m rfl hm
        exact .step (hr n rfl hn) hc hm
      · rw [Finset.card_insert_of_notMem hnot]
        omega

theorem shallow_of_acyclic {s : Store} {root : Ref} (hs : s.Acyclic root) :
    s.Shallow (s.size + 1) root := by
  refine Shallow.succ (shallow_of_acyclic_above hs s.size ∅ root (by simp) (by simp) ?_ (by simp))
  rintro n rfl hn
  exact .start rfl hn

theorem descendants_eq_preorder {s : Store} {root : Ref} (hs : s.Acyclic root) :
    s.descendants root = s.preorder (s.size + 1) root := by
  have ht := traverse_cons (s.size + 1) root (shallow_of_acyclic hs) 0 []
  rw [Nat.add_zero] at ht
  rw [descendants, ht]
  simp [traverse]

/-- A traversal without cycles visits the reachable nodes and nothing else. -/
theorem mem_descendants_iff {s : Store} {root : Ref} (hs : s.Acyclic root) (n : NodeId) :
    n ∈ s.descendants root ↔ s.Reaches root n := by
  rw [descendants_eq_preorder hs, mem_preorder_iff _ _ (shallow_of_acyclic hs)]

end Store

namespace SourceFile

/-- The nodes at the root and below. -/
def Reaches (f : SourceFile) (n : NodeId) : Prop := f.store.Reaches f.root n

def Acyclic (f : SourceFile) : Prop := f.store.Acyclic f.root

theorem mem_nodes_iff {f : SourceFile} (hf : f.Acyclic) (n : NodeId) : n ∈ f.nodes ↔ f.Reaches n :=
  Store.mem_descendants_iff hf n

theorem reaches_of_mem_nodes {f : SourceFile} {n : NodeId} (h : n ∈ f.nodes) : f.Reaches n := by
  obtain ⟨r, hr, hn⟩ := Store.reaches_of_mem_traverse h
  rwa [List.mem_singleton.1 hr] at hn

end SourceFile

end JavaRecipes
