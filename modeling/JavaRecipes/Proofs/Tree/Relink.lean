import JavaRecipes.Proofs.Tree.Reach
import Mathlib.Data.List.Basic
import Mathlib.Data.Nat.Find

/-!
Drawing the links afresh: afterwards a node is linked to the last of its holders
(`parent_relink_eq_some_iff`), whatever the links were before, so drawing them twice changes
nothing.
-/

namespace JavaRecipes

namespace Store

/-- The last node that holds `m`. -/
def LastHolder (s : Store) (n m : NodeId) : Prop := s.Holds n m ∧ ∀ k, s.Holds k m → k ≤ n

theorem LastHolder.unique {s : Store} {n n' m : NodeId} (h : s.LastHolder n m)
    (h' : s.LastHolder n' m) : n = n' :=
  Nat.le_antisymm (h'.2 n h.1) (h.2 n' h'.1)

instance (s : Store) (n m : NodeId) : Decidable (s.Holds n m) :=
  inferInstanceAs (Decidable (some m ∈ s.children (some n)))

/-- Whatever is held has a last holder. -/
theorem exists_lastHolder {s : Store} {k m : NodeId} (h : s.Holds k m) : ∃ n, s.LastHolder n m :=
  ⟨Nat.findGreatest (s.Holds · m) s.size, Nat.findGreatest_spec (P := (s.Holds · m))
    (Nat.le_of_lt (holds_lt_size h)) h, fun _ hk =>
      Nat.le_findGreatest (Nat.le_of_lt (holds_lt_size hk)) hk⟩

/-- Two stores with the same payloads and links are one. -/
theorem ext_of_parent {s t : Store} (hdata : ∀ r, s.data? r = t.data? r)
    (hparent : ∀ n < s.size, s.parent (some n) = t.parent (some n)) : s = t := by
  obtain ⟨nodes⟩ := s
  obtain ⟨nodes'⟩ := t
  congr 1
  apply Array.ext_getElem?
  intro n
  have hd := hdata (some n)
  have hp := hparent n
  simp only [data?, parent, get?, Option.bind_some, size] at hd hp
  cases hn : nodes[n]? with
  | none => simpa [hn, eq_comm] using hd
  | some node =>
    have hlt : n < nodes.size := (Array.getElem?_eq_some_iff.1 hn).1
    cases hn' : nodes'[n]? with
    | none => simp [hn, hn'] at hd
    | some node' =>
      have hp := hp hlt
      simp only [hn, hn', Option.map_some, Option.some.injEq, Option.bind_some] at hd hp
      obtain ⟨_, _⟩ := node
      obtain ⟨_, _⟩ := node'
      simp_all

/-- A child is linked to the node that adopts it. -/
theorem parent_adopt (s : Store) (holder : NodeId) (children : List Ref) (r : Ref) :
    (s.adopt holder children).parent r =
      if r ∈ children ∧ (s.data? r).isSome then some holder else s.parent r := by
  unfold adopt
  induction children generalizing s with
  | nil => simp
  | cons c cs ih =>
    rw [List.foldl_cons, ih, parent_setParent, data?_setParent]
    have hget : (s.get? r).isSome = (s.data? r).isSome := by simp [data?]
    by_cases hr : r = c
    · subst hr
      by_cases hs : (s.data? r).isSome <;> simp [hget, hs]
    · simp [hr]

/-- The first nodes of a store have drawn their links. -/
private def linkedUpTo (s : Store) (j : Nat) : Store :=
  (List.range j).foldl (fun t n => t.adopt n (s.children (some n)))
    { nodes := s.nodes.map fun node => { node with parent := none } }

private theorem linkedUpTo_succ (s : Store) (j : Nat) :
    s.linkedUpTo (j + 1) = (s.linkedUpTo j).adopt j (s.children (some j)) := by
  simp [linkedUpTo, List.range_succ]

private theorem data?_linkedUpTo (s : Store) (j : Nat) (r : Ref) :
    (s.linkedUpTo j).data? r = s.data? r := by
  induction j with
  | zero =>
    cases r with
    | none => rfl
    | some n => cases hn : s.nodes[n]? <;> simp [linkedUpTo, data?, get?, hn]
  | succ j ih => rw [linkedUpTo_succ, data?_adopt, ih]

/-- Among the first nodes the last holder counts. -/
private theorem parent_linkedUpTo (s : Store) (j : Nat) {m : NodeId} (hm : m < s.size) (n : Nat) :
    (s.linkedUpTo j).parent (some m) = some n ↔
      n < j ∧ s.Holds n m ∧ ∀ k < j, s.Holds k m → k ≤ n := by
  induction j with
  | zero =>
    have hnode : s.nodes[m]? = some s.nodes[m] := Array.getElem?_eq_getElem hm
    simp [linkedUpTo, parent, get?, hnode]
  | succ j ih =>
    have hdata : (s.linkedUpTo j).data? (some m) |>.isSome := by
      rw [data?_linkedUpTo, data?_isSome_iff]
      exact hm
    rw [linkedUpTo_succ, parent_adopt]
    by_cases hj : s.Holds j m
    · rw [if_pos ⟨hj, hdata⟩]
      constructor
      · rintro ⟨⟩
        exact ⟨Nat.lt_succ_self _, hj, fun k hk _ => Nat.le_of_lt_succ hk⟩
      · rintro ⟨hn, -, hlast⟩
        have hle : j ≤ n := hlast j (Nat.lt_succ_self j) hj
        rw [Nat.le_antisymm hle (Nat.le_of_lt_succ hn)]
    · rw [if_neg fun h => hj h.1, ih]
      constructor
      · rintro ⟨hn, hh, hlast⟩
        refine ⟨Nat.lt_succ_of_lt hn, hh, fun k hk hk' => ?_⟩
        rcases Nat.lt_succ_iff_lt_or_eq.1 hk with hk | rfl
        · exact hlast k hk hk'
        · exact absurd hk' hj
      · rintro ⟨hn, hh, hlast⟩
        refine ⟨?_, hh, fun k hk => hlast k (Nat.lt_succ_of_lt hk)⟩
        rcases Nat.lt_succ_iff_lt_or_eq.1 hn with hn | rfl
        · exact hn
        · exact absurd hh hj

@[simp]
theorem data?_relink (s : Store) (r : Ref) : s.relink.data? r = s.data? r :=
  data?_linkedUpTo s s.size r

@[simp]
theorem size_relink (s : Store) : s.relink.size = s.size := by
  have h : ∀ j, (s.linkedUpTo j).size = s.size := by
    intro j
    induction j with
    | zero => simp [linkedUpTo, size]
    | succ j ih => rw [linkedUpTo_succ, size_adopt, ih]
  exact h s.size

/-- After drawing the links afresh a node is linked to its last holder. -/
theorem parent_relink_eq_some_iff {s : Store} {m n : NodeId} (hm : m < s.size) :
    s.relink.parent (some m) = some n ↔ s.LastHolder n m := by
  have h := parent_linkedUpTo s s.size hm n
  rw [show s.relink = s.linkedUpTo s.size from rfl, h]
  constructor
  · rintro ⟨-, hh, hlast⟩
    exact ⟨hh, fun k hk => hlast k (holds_lt_size hk) hk⟩
  · rintro ⟨hh, hlast⟩
    exact ⟨holds_lt_size hh, hh, fun k _ => hlast k⟩

theorem children_congr {s t : Store} {r : Ref} (h : s.data? r = t.data? r) :
    s.children r = t.children r := by
  rw [children, children, h]

theorem lastHolder_congr {s t : Store} (h : ∀ r, s.data? r = t.data? r) (n m : NodeId) :
    s.LastHolder n m ↔ t.LastHolder n m := by
  simp only [LastHolder, Holds, children_congr (h _)]

/-- A store whose links are to the last holders is as if they were drawn afresh. -/
theorem relink_eq_self_iff {s : Store} :
    s.relink = s ↔ ∀ m < s.size, ∀ n, s.parent (some m) = some n ↔ s.LastHolder n m := by
  constructor
  · intro h m hm n
    rw [← parent_relink_eq_some_iff hm, h]
  · intro h
    refine ext_of_parent (data?_relink s) fun m hm => ?_
    rw [size_relink] at hm
    apply Option.ext
    intro n
    rw [parent_relink_eq_some_iff hm, h m hm n]

/-- The links that are drawn come from the payloads alone. -/
theorem relink_relink (s : Store) : s.relink.relink = s.relink := by
  rw [relink_eq_self_iff]
  intro m hm n
  rw [size_relink] at hm
  rw [parent_relink_eq_some_iff hm, lastHolder_congr (data?_relink s)]

end Store

end JavaRecipes
