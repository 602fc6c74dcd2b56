import JavaRecipes.Proofs.Tree.Linked
import JavaRecipes.Proofs.Tree.Relink
import Mathlib.Data.Set.Basic

/-!
Trees whose links survive loading. In memory a node may be held by others that are out of reach, and
on loading the last of all holders counts; so the reachable holder has to be the last one. Some
nodes are set aside, as a slot out of reach may name a node before it is there; with all nodes set
aside, a tidy tree is merely a linked one.
-/

namespace JavaRecipes

namespace Store

/-- What is in reach depends on the slots. -/
theorem Reaches.congr {s t : Store} {root : Ref} (hsize : t.size = s.size)
    (hchildren : ∀ r, t.children r = s.children r) {n : NodeId} (h : t.Reaches root n) :
    s.Reaches root n := by
  induction h with
  | start hroot hlt => exact .start hroot (hsize ▸ hlt)
  | @step k m _ hh hlt ih =>
    rw [Holds, hchildren] at hh
    exact .step ih hh (hsize ▸ hlt)

/-- The reachable nodes form a linked tree in which the reachable holder of a node is its last one,
except for nodes in `aside`. Slots that name no node name one in `aside`. -/
structure Tidy (s : Store) (root : Ref) (aside : Set NodeId) : Prop where
  link : ∀ {n m}, s.Reaches root n → s.Holds n m → s.parent (some m) = some n
  once : ∀ {n} m, s.Reaches root n → (s.children (some n)).count (some m) ≤ 1
  root_parent : s.parent root = none
  last : ∀ {n m k}, s.Reaches root n → s.Holds n m → s.Holds k m → m ∉ aside → k ≤ n
  root_unheld : ∀ {n k}, s.Reaches root n → root = some n → n ∉ aside → ¬ s.Holds k n
  inside : ∀ {k m}, s.Holds k m → s.size ≤ m → m ∈ aside

namespace Tidy

variable {s : Store} {root : Ref} {aside : Set NodeId}

theorem linked (h : s.Tidy root aside) (path : String) (types : TypeTable) :
    SourceFile.Linked { path, store := s, types, root } :=
  ⟨h.link, h.once, h.root_parent⟩

theorem lt_size (h : s.Tidy root aside) {n m : NodeId} (hn : s.Reaches root n) (hh : s.Holds n m) :
    m < s.size :=
  (h.linked "" {}).lt_size hn hh

theorem reaches (h : s.Tidy root aside) {n m : NodeId} (hn : s.Reaches root n) (hh : s.Holds n m) :
    s.Reaches root m :=
  (h.linked "" {}).reaches hn hh

theorem holder_eq (h : s.Tidy root aside) {n n' m : NodeId} (hn : s.Reaches root n)
    (hn' : s.Reaches root n') (hh : s.Holds n m) (hh' : s.Holds n' m) : n' = n :=
  (h.linked "" {}).holder_eq hn hn' hh hh'

theorem acyclic (h : s.Tidy root aside) : s.Acyclic root := (h.linked "" {}).acyclic

/-- The links of reachable nodes are those that loading draws. -/
theorem parent_relink (h : s.Tidy root aside) {m : NodeId} (hm : s.Reaches root m)
    (hnot : m ∉ aside) : s.relink.parent (some m) = s.parent (some m) := by
  cases hm with
  | start hroot hlt =>
    subst hroot
    rw [h.root_parent]
    cases hp : s.relink.parent (some m) with
    | none => rfl
    | some k =>
      exact absurd ((parent_relink_eq_some_iff hlt).1 hp).1
        (h.root_unheld (.start rfl hlt) rfl hnot)
  | @step n _ hn hh hlt =>
    rw [h.link hn hh, parent_relink_eq_some_iff hlt]
    exact ⟨hh, fun k hk => h.last hn hh hk hnot⟩

/-- Only slots and links count. -/
theorem congr {t : Store} (h : s.Tidy root aside) (hsize : t.size = s.size)
    (hchildren : ∀ r, t.children r = s.children r) (hparent : ∀ r, t.parent r = s.parent r) :
    t.Tidy root aside := by
  have hholds : ∀ n m, t.Holds n m ↔ s.Holds n m := fun n m => by rw [Holds, Holds, hchildren]
  have hreaches : ∀ {n}, t.Reaches root n → s.Reaches root n := Reaches.congr hsize hchildren
  constructor
  · intro n m hn hh
    rw [hparent]
    exact h.link (hreaches hn) ((hholds n m).1 hh)
  · intro n m hn
    rw [hchildren]
    exact h.once m (hreaches hn)
  · rw [hparent]
    exact h.root_parent
  · intro n m k hn hh hk
    exact h.last (hreaches hn) ((hholds n m).1 hh) ((hholds k m).1 hk)
  · intro n k hn hroot hnot hk
    exact h.root_unheld (hreaches hn) hroot hnot ((hholds k n).1 hk)
  · intro k m hh hle
    exact h.inside ((hholds k m).1 hh) (hsize ▸ hle)

end Tidy

/-- The positions that slots name although no node is there. -/
def missing (s : Store) : Set NodeId := { m | s.size ≤ m ∧ ∃ k, s.Holds k m }

end Store

/-- A loaded tree is tidy, as its links were drawn to the last holders. -/
theorem SourceFile.Linked.tidy {f : SourceFile} (h : f.Linked) (hf : f.store.relink = f.store) :
    f.store.Tidy f.root f.store.missing := by
  have hlinks := Store.relink_eq_self_iff.1 hf
  constructor
  · exact h.link
  · exact h.once
  · exact h.root
  · intro n m k hn hh hk _
    exact ((hlinks m (h.lt_size hn hh) n).1 (h.link hn hh)).2 k hk
  · intro n k hn hroot _ hk
    obtain ⟨l, hl⟩ := Store.exists_lastHolder hk
    have hparent := (hlinks n hn.lt_size l).2 hl
    rw [← hroot, h.root] at hparent
    cases hparent
  · exact fun {k m} hh hle => ⟨hle, k, hh⟩

end JavaRecipes
