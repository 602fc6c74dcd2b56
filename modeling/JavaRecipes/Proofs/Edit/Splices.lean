import JavaRecipes.Proofs.Edit.KeptTree
import JavaRecipes.Proofs.Edit.Templates
import JavaRecipes.Proofs.Tree.Preorder

/-!
One replacement by a snippet that may use any nodes of the file, and each of them more than once.
New nodes are stacked over the used ones (`Draft.stacks_materialize`) and put into the place of the
replaced node. A tree without cycles stays one exactly if no used node has the holder of that place
below it, or a cycle (`Store.Spliced.acyclic_iff`).
-/

namespace JavaRecipes

open Relation (ReflTransGen TransGen)

namespace Store

/-! ## New nodes over used ones -/

/-- `m` is below `n` by way of new nodes only. -/
def Under (s t : Store) : NodeId → NodeId → Prop := ReflTransGen fun a b => s.size ≤ a ∧ t.Holds a b

/-- `t` is `s` with new nodes behind it. They hold only earlier new ones and nodes that are used,
and all that is used is below `loose`. A node may be used more than once. -/
structure Stacks (s : Store) (used : List Ref) (t : Store) (loose : List Ref) : Prop where
  size_le : s.size ≤ t.size
  data?_old : ∀ {n}, n < s.size → t.data? (some n) = s.data? (some n)
  holds_new : ∀ {n m}, s.size ≤ n → t.Holds n m → m < n ∧ (m < s.size → some m ∈ used)
  loose_lt : ∀ {m}, some m ∈ loose → m < t.size
  loose_old : ∀ {m}, some m ∈ loose → m < s.size → some m ∈ used
  covers : ∀ {m}, some m ∈ used → ∃ l, some l ∈ loose ∧ s.Under t l m

namespace Stacks

variable {s t u : Store} {used used' loose loose' : List Ref} {n m : NodeId}

theorem holds_old (h : s.Stacks used t loose) (hn : n < s.size) : t.Holds n m ↔ s.Holds n m := by
  rw [Holds, Holds, children_congr (h.data?_old hn)]

theorem holds_mono (h : s.Stacks used t loose) (hh : s.Holds n m) : t.Holds n m :=
  (h.holds_old (holds_lt_size hh)).2 hh

theorem refl (h : ∀ m, some m ∈ used → m < s.size) : s.Stacks used s used where
  size_le := Nat.le_refl _
  data?_old _ := rfl
  holds_new hn hh := absurd (holds_lt_size hh) (Nat.not_lt.2 hn)
  loose_lt hm := h _ hm
  loose_old hm _ := hm
  covers hm := ⟨_, hm, .refl⟩

/-- A slot that is left empty. -/
theorem absent : s.Stacks [] s [none] where
  size_le := Nat.le_refl _
  data?_old _ := rfl
  holds_new hn hh := absurd (holds_lt_size hh) (Nat.not_lt.2 hn)
  loose_lt hm := by simp at hm
  loose_old hm := by simp at hm
  covers hm := by simp at hm

theorem append (h : s.Stacks used t loose) (h' : t.Stacks used' u loose') :
    s.Stacks (used ++ used') u (loose ++ loose') where
  size_le := h.size_le.trans h'.size_le
  data?_old hn := by rw [h'.data?_old (hn.trans_le h.size_le), h.data?_old hn]
  holds_new := by
    intro n m hn hh
    by_cases hnt : n < t.size
    · obtain ⟨hlt, hm⟩ := h.holds_new hn ((h'.holds_old hnt).1 hh)
      exact ⟨hlt, fun hlt => List.mem_append_left _ (hm hlt)⟩
    · obtain ⟨hlt, hm⟩ := h'.holds_new (Nat.not_lt.1 hnt) hh
      exact ⟨hlt, fun hlt => List.mem_append_right _ (hm (hlt.trans_le h.size_le))⟩
  loose_lt := by
    intro m hm
    rcases List.mem_append.1 hm with hm | hm
    · exact (h.loose_lt hm).trans_le h'.size_le
    · exact h'.loose_lt hm
  loose_old := by
    intro m hm hlt
    rcases List.mem_append.1 hm with hm | hm
    · exact List.mem_append_left _ (h.loose_old hm hlt)
    · exact List.mem_append_right _ (h'.loose_old hm (hlt.trans_le h.size_le))
  covers := by
    intro m hm
    rcases List.mem_append.1 hm with hm | hm
    · obtain ⟨l, hl, hlm⟩ := h.covers hm
      exact ⟨l, List.mem_append_left _ hl,
        ReflTransGen.mono (fun _ _ => And.imp_right h'.holds_mono) _ _ hlm⟩
    · obtain ⟨l, hl, hlm⟩ := h'.covers hm
      exact ⟨l, List.mem_append_right _ hl,
        ReflTransGen.mono (fun _ _ => And.imp_left h.size_le.trans) _ _ hlm⟩

theorem add (h : s.Stacks used t loose) {data : NodeData}
    (hdata : ∀ m, some m ∈ data.children → some m ∈ loose) :
    s.Stacks used (t.add data).2 (some t.size :: loose) where
  size_le := by
    rw [size_add]
    exact h.size_le.trans (Nat.le_succ _)
  data?_old := by
    intro n hn
    have hne : (some n : Ref) ≠ some t.size := by simpa using (hn.trans_le h.size_le).ne
    rw [data?_add, if_neg hne, h.data?_old hn]
  holds_new := by
    intro n m hn hh
    rcases holds_add.1 hh with ⟨rfl, hm⟩ | ⟨-, hh⟩
    · exact ⟨h.loose_lt (hdata m hm), h.loose_old (hdata m hm)⟩
    · exact h.holds_new hn hh
  loose_lt := by
    intro m hm
    rw [size_add]
    rcases List.mem_cons.1 hm with heq | hm
    · obtain rfl := Option.some.inj heq
      exact Nat.lt_succ_self _
    · exact (h.loose_lt hm).trans (Nat.lt_succ_self _)
  loose_old := by
    intro m hm hlt
    rcases List.mem_cons.1 hm with heq | hm
    · obtain rfl := Option.some.inj heq
      exact absurd hlt (Nat.not_lt.2 h.size_le)
    · exact h.loose_old hm hlt
  covers := by
    intro m hm
    obtain ⟨l, hl, hlm⟩ := h.covers hm
    have hkept : ∀ {a b}, t.Holds a b → (t.add data).2.Holds a b := fun hab =>
      holds_add.2 (.inr ⟨(holds_lt_size hab).ne, hab⟩)
    exact ⟨l, List.mem_cons_of_mem _ hl, ReflTransGen.mono (fun _ _ => And.imp_right hkept) _ _ hlm⟩

/-- A new node over all the others that are loose is the only one that is loose. -/
theorem top (h : s.Stacks used t (some n :: loose)) (hn : s.size ≤ n)
    (hheld : ∀ m, some m ∈ loose → t.Holds n m) :
    s.Stacks used t [some n] where
  size_le := h.size_le
  data?_old := h.data?_old
  holds_new := h.holds_new
  loose_lt hm := h.loose_lt (List.mem_singleton.1 hm ▸ List.mem_cons_self)
  loose_old hm := h.loose_old (List.mem_singleton.1 hm ▸ List.mem_cons_self)
  covers := by
    intro m hm
    obtain ⟨l, hl, hlm⟩ := h.covers hm
    refine ⟨n, List.mem_cons_self, ?_⟩
    rcases List.mem_cons.1 hl with heq | hl
    · obtain rfl := Option.some.inj heq
      exact hlm
    · exact .head ⟨hn, hheld l hl⟩ hlm

/-- A name and a node over that name and all that is loose. -/
theorem addNamed (h : s.Stacks used t loose) (name : Identifier) {data : NodeData}
    (hdata : ∀ m, some m ∈ data.children ↔ m = t.size ∨ some m ∈ loose) :
    s.Stacks used
      ((t.add (.identifier name)).2.add data).2 [some (t.add (.identifier name)).2.size] := by
  have hnamed : s.Stacks used (t.add (.identifier name)).2 (some t.size :: loose) :=
    h.add (by simp [NodeData.children, NodeData.childFields])
  have hchildren : ∀ m, some m ∈ data.children ↔ some m ∈ some t.size :: loose := fun m => by
    rw [hdata, List.mem_cons, Option.some.injEq]
  exact (hnamed.add fun m => (hchildren m).1).top hnamed.size_le
    fun m hm => holds_add.2 (.inl ⟨rfl, (hchildren m).2 hm⟩)

end Stacks

end Store

namespace Draft

theorem buildClosed_stacks :
    BuildClosed fun s used t loose =>
      (∀ m, some m ∈ used → m < s.size) → s.Stacks used t loose where
  existing _ _ h := .refl h
  absent _ _ := .absent
  nil _ h := .refl h
  leaf _ _ hleaf h := ((Store.Stacks.refl h).add (by simp [hleaf])).top (Nat.le_refl _) (by simp)
  append h h' hused := by
    have hstacks := h fun m hm => hused m (List.mem_append_left _ hm)
    exact hstacks.append
      (h' fun m hm => (hused m (List.mem_append_right _ hm)).trans_le hstacks.size_le)
  addNamed name _ h hcount hused := (h hused).addNamed name fun m => by
    rw [some_mem_iff_of_count hcount m, List.mem_append, List.mem_singleton,
      Option.some.injEq, or_comm]

/-- A snippet is built as new nodes over those that it uses, whatever they are. -/
theorem stacks_materialize (snippet : Snippet) (d : Draft)
    (h : ∀ m, some m ∈ snippet.existingNodes → m < d.store.size) :
    d.store.Stacks snippet.existingNodes
      (d.materialize snippet).2.store [(d.materialize snippet).1] :=
  buildClosed_stacks.materialize snippet d h

end Draft

namespace Store

/-- A stack over used nodes, put into the place of `old` among the children of its parent. -/
structure Spliced (s t u : Store) (used : List Ref) (holder old new : NodeId) : Prop where
  built : s.Stacks used t [some new]
  parent_eq : s.parent (some old) = some holder
  splice : t.replaceChild (some holder) (some old) (some new) = some u

namespace Spliced

variable {s t u : Store} {used : List Ref} {holder old new n m : NodeId}

theorem size_eq (h : s.Spliced t u used holder old new) : u.size = t.size :=
  size_replaceChild h.splice

theorem size_le (h : s.Spliced t u used holder old new) : s.size ≤ u.size :=
  h.size_eq ▸ h.built.size_le

theorem new_lt (h : s.Spliced t u used holder old new) : new < u.size :=
  h.size_eq ▸ h.built.loose_lt List.mem_cons_self

theorem new_mem (h : s.Spliced t u used holder old new) (hlt : new < s.size) : some new ∈ used :=
  h.built.loose_old List.mem_cons_self hlt

theorem holds_old (h : s.Spliced t u used holder old new) (hlt : holder < s.size) :
    s.Holds holder old :=
  (h.built.holds_old hlt).1 (mem_children_of_replaceChild h.splice)

theorem holds_new (h : s.Spliced t u used holder old new) : u.Holds holder new := by
  obtain ⟨⟨before, after, -, hu⟩, -⟩ := children_replaceChild h.splice
  simp [Holds, hu]

/-- A node holds what it held, or as a new node what is used or new; only the holder gets a new
child. -/
theorem holds_cases (h : s.Spliced t u used holder old new) (hh : u.Holds n m) :
    (n = holder ∧ m = new) ∨ (s.size ≤ n ∧ m < n ∧ (m < s.size → some m ∈ used)) ∨
      (n < s.size ∧ s.Holds n m) := by
  rcases holds_of_replaceChild h.splice hh with ⟨hn, hm⟩ | hh
  · exact .inl ⟨(Option.some.inj hn).symm, hm⟩
  · by_cases hn : n < s.size
    · exact .inr (.inr ⟨hn, (h.built.holds_old hn).1 hh⟩)
    · exact .inr (.inl ⟨Nat.not_lt.1 hn, h.built.holds_new (Nat.not_lt.1 hn) hh⟩)

/-- Nodes other than the holder hold what they held. -/
theorem holds_of_ne (h : s.Spliced t u used holder old new) (hh : t.Holds n m) (hn : n ≠ holder) :
    u.Holds n m := by
  rwa [Holds, (children_replaceChild h.splice).2 _ (by simpa using hn)]

end Spliced

end Store

/-! ## One replacement -/

namespace Store

/-- Used, or below a node that is. -/
def Beneath (s : Store) (used : List Ref) (n : NodeId) : Prop :=
  ∃ l, some l ∈ used ∧ s.Reaches (some l) n

namespace Spliced

variable {s t u : Store} {used : List Ref} {holder old new n m : NodeId} {root : Ref}

section

variable (h : s.Spliced t u used holder old new) (hlt : holder < s.size)
  (hfree : ¬ s.Beneath used holder)
  (hslots : ∀ n m, s.Reaches root n ∨ s.Beneath used n → s.Holds n m → m < s.size)

include h hfree hslots in
theorem beneath_step (hn : s.Beneath used n) (hh : u.Holds n m) :
    s.Holds n m ∧ s.Beneath used m := by
  obtain ⟨l, hl, hln⟩ := hn
  rcases h.holds_cases hh with ⟨rfl, -⟩ | ⟨hle, -⟩ | ⟨-, hh⟩
  · exact absurd ⟨l, hl, hln⟩ hfree
  · exact absurd hln.lt_size (Nat.not_lt.2 hle)
  · exact ⟨hh, l, hl, hln.step hh (hslots n m (.inr ⟨l, hl, hln⟩) hh)⟩

include h hlt in
theorem fresh_step (hn : s.size ≤ n) (hh : u.Holds n m) :
    s.size ≤ m ∧ m < n ∨ s.Beneath used m := by
  rcases h.holds_cases hh with ⟨rfl, -⟩ | ⟨-, hmn, hused⟩ | ⟨hlt, -⟩
  · exact absurd hlt (Nat.not_lt.2 hn)
  · by_cases hm : m < s.size
    · exact .inr ⟨m, hused hm, .start rfl hm⟩
    · exact .inl ⟨Nat.not_lt.1 hm, hmn⟩
  · exact absurd hlt (Nat.not_lt.2 hn)

include h hslots in
theorem reached_step (hn : s.Reaches root n) (hh : u.Holds n m) :
    s.Holds n m ∧ s.Reaches root m ∨ s.size ≤ m ∨ s.Beneath used m := by
  rcases h.holds_cases hh with ⟨-, rfl⟩ | ⟨hle, -⟩ | ⟨-, hh⟩
  · by_cases hm : m < s.size
    · exact .inr (.inr ⟨m, h.new_mem hm, .start rfl hm⟩)
    · exact .inr (.inl (Nat.not_lt.1 hm))
  · exact absurd hn.lt_size (Nat.not_lt.2 hle)
  · exact .inl ⟨hh, hn.step hh (hslots n m (.inl hn) hh)⟩

include h hfree hslots in
theorem beneath_transGen (hn : s.Beneath used n) (hnm : TransGen u.Holds n m) :
    TransGen s.Holds n m ∧ s.Beneath used m := by
  induction hnm with
  | single hh => exact (h.beneath_step hfree hslots hn hh).imp_left .single
  | tail _ hh ih => exact (h.beneath_step hfree hslots ih.2 hh).imp_left ih.1.tail

include h hlt hfree hslots in
/-- Below a new node there are earlier ones and what is used. -/
theorem fresh_transGen (hn : s.size ≤ n) (hnm : TransGen u.Holds n m) :
    s.size ≤ m ∧ m < n ∨ s.Beneath used m := by
  induction hnm with
  | single hh => exact h.fresh_step hlt hn hh
  | tail _ hh ih =>
    rcases ih with ⟨hle, hlt'⟩ | hm
    · exact (h.fresh_step hlt hle hh).imp_left fun ⟨hle, hm⟩ => ⟨hle, hm.trans hlt'⟩
    · exact .inr (h.beneath_step hfree hslots hm hh).2

include h hlt hfree hslots in
/-- What was in reach leads on as it did, until it comes to what was put in. -/
theorem reached_transGen (hn : s.Reaches root n) (hnm : TransGen u.Holds n m) :
    TransGen s.Holds n m ∧ s.Reaches root m ∨ s.size ≤ m ∨ s.Beneath used m := by
  induction hnm with
  | single hh => exact (h.reached_step hslots hn hh).imp_left fun ⟨hh, hm⟩ => ⟨.single hh, hm⟩
  | tail _ hh ih =>
    rcases ih with ⟨hnm, hm⟩ | hle | hm
    · exact (h.reached_step hslots hm hh).imp_left fun ⟨hh, hm⟩ => ⟨hnm.tail hh, hm⟩
    · exact .inr ((h.fresh_step hlt hle hh).imp_left And.left)
    · exact .inr (.inr (h.beneath_step hfree hslots hm hh).2)

include h hlt hfree hslots in
theorem reaches_cases (hroot : s.Reaches root holder) (hn : u.Reaches root n) :
    s.Reaches root n ∨ s.size ≤ n ∨ s.Beneath used n := by
  induction hn with
  | start hr _ =>
    obtain ⟨r, hr', hreach⟩ := hroot.exists_root
    obtain rfl := Option.some.inj (hr'.symm.trans hr)
    exact .inl hreach
  | step _ hh _ ih =>
    rcases ih with hn | hle | hn
    · exact (h.reached_step hslots hn hh).imp_left And.right
    · exact .inr ((h.fresh_step hlt hle hh).imp_left And.left)
    · exact .inr (.inr (h.beneath_step hfree hslots hn hh).2)

include h hlt hfree hslots in
theorem acyclic_of_free (hs : s.Acyclic root) (hroot : s.Reaches root holder)
    (hused : ∀ l, some l ∈ used → s.Acyclic (some l)) : u.Acyclic root := by
  intro n hn hcycle
  have hbeneath : ¬ s.Beneath used n := fun ⟨l, hl, hln⟩ =>
    hused l hl n hln (h.beneath_transGen hfree hslots ⟨l, hl, hln⟩ hcycle).1
  rcases h.reaches_cases hlt hfree hslots hroot hn with hn | hn | hn
  · rcases h.reached_transGen hlt hfree hslots hn hcycle with ⟨hcycle, -⟩ | hle | hbelow
    · exact hs n hn hcycle
    · exact absurd hn.lt_size (Nat.not_lt.2 hle)
    · exact hbeneath hbelow
  · rcases h.fresh_transGen hlt hfree hslots hn hcycle with ⟨-, hself⟩ | hbelow
    · exact absurd hself (Nat.lt_irrefl n)
    · exact hbeneath hbelow
  · exact hbeneath hn

end

/-- A way down is still there, or one to the holder. -/
theorem reflTransGen_or (h : s.Spliced t u used holder old new) (hnm : ReflTransGen s.Holds n m) :
    ReflTransGen u.Holds n m ∨ ReflTransGen u.Holds n holder := by
  induction hnm with
  | refl => exact .inl .refl
  | @tail b c _ hh ih =>
    rcases ih with hb | hholder
    · by_cases hne : b = holder
      · exact .inr (hne ▸ hb)
      · exact .inl (hb.tail (h.holds_of_ne (h.built.holds_mono hh) hne))
    · exact .inr hholder

/-- A way to the holder is still there. -/
theorem reflTransGen_holder (h : s.Spliced t u used holder old new)
    (hn : ReflTransGen s.Holds n holder) :
    ReflTransGen u.Holds n holder :=
  (h.reflTransGen_or hn).elim id id

theorem reaches_holder (h : s.Spliced t u used holder old new) (hroot : s.Reaches root holder) :
    u.Reaches root holder := by
  obtain ⟨r, rfl, -⟩ := hroot.exists_root
  exact .of_reflTransGen (h.reflTransGen_holder hroot.reflTransGen)
    (hroot.lt_size.trans_le h.size_le)

/-- What is used stands below the holder. -/
theorem transGen_used (h : s.Spliced t u used holder old new) (hlt : holder < s.size)
    (hm : some m ∈ used) :
    TransGen u.Holds holder m := by
  obtain ⟨l, hl, hlm⟩ := h.built.covers hm
  obtain rfl : l = new := by simpa using hl
  have hkept : ∀ a b, s.size ≤ a ∧ t.Holds a b → u.Holds a b := fun a b ⟨ha, hab⟩ =>
    h.holds_of_ne hab (hlt.trans_le ha).ne'
  exact .head' h.holds_new (ReflTransGen.mono hkept _ _ hlm)

theorem free_of_acyclic (h : s.Spliced t u used holder old new) (hroot : s.Reaches root holder)
    (hu : u.Acyclic root) (hm : some m ∈ used) :
    s.Acyclic (some m) ∧ ¬ s.Reaches (some m) holder := by
  have hbelow := h.transGen_used hroot.lt_size hm
  have hfree : ¬ s.Reaches (some m) holder := fun hup =>
    hu holder (h.reaches_holder hroot) (hbelow.trans_left (h.reflTransGen_holder hup.reflTransGen))
  refine ⟨fun n hn hcycle => ?_, hfree⟩
  -- No way down from `m` comes to the holder, so all of them are still there.
  have hkept : ∀ {a b}, ReflTransGen s.Holds m a → s.Holds a b → u.Holds a b := by
    intro a b ha hab
    refine h.holds_of_ne (h.built.holds_mono hab) ?_
    rintro rfl
    exact hfree (.of_reflTransGen ha (holds_lt_size hab))
  have hdown : ∀ {a b}, ReflTransGen s.Holds m a → ReflTransGen s.Holds a b →
      ReflTransGen u.Holds a b := by
    intro a b ha hab
    induction hab with
    | refl => exact .refl
    | tail hab hh ih => exact ih.tail (hkept (ha.trans hab) hh)
  obtain ⟨b, hnb, hbn⟩ := TransGen.head'_iff.1 hcycle
  have hn' := hn.reflTransGen
  refine hu n ?_ (.head' (hkept hn' hnb) (hdown (hn'.tail hnb) hbn))
  obtain ⟨r, rfl, -⟩ := hroot.exists_root
  have hway :=
    ((h.reaches_holder hroot).reflTransGen.trans hbelow.to_reflTransGen).trans (hdown .refl hn')
  exact .of_reflTransGen hway (hn.lt_size.trans_le h.size_le)

/-- A replacement in reach closes no cycle exactly if no node that it uses has one below, or the
holder. -/
theorem acyclic_iff (h : s.Spliced t u used holder old new) (hs : s.Acyclic root)
    (hroot : s.Reaches root holder)
    (hslots : ∀ n m, s.Reaches root n ∨ s.Beneath used n → s.Holds n m → m < s.size) :
    u.Acyclic root ↔ ∀ l, some l ∈ used → s.Acyclic (some l) ∧ ¬ s.Reaches (some l) holder := by
  constructor
  · exact fun hu l hl => h.free_of_acyclic hroot hu hl
  · intro hused
    have hfree : ¬ s.Beneath used holder := fun ⟨l, hl, hup⟩ => (hused l hl).2 hup
    exact h.acyclic_of_free hroot.lt_size hfree hslots hs hroot fun l hl => (hused l hl).1

end Spliced

end Store

theorem Draft.exists_spliced {d d' : Draft} {r : Ref} {snippet : Snippet}
    (h : d.applyEdit (.replaceExpression r snippet) = .ok d')
    (hused : ∀ a ∈ snippet.existingNodes, (d.store.get? a).isSome) :
    ∃ t holder old new, r = some old ∧
      d.store.Spliced t d'.store snippet.existingNodes holder old new := by
  obtain ⟨holder, hholder, hsplice, -⟩ := applyEdit_replacement h
  obtain ⟨new, hnew, -⟩ := exists_materialize hused
  have hstacks :=
    stacks_materialize snippet d fun m hm => (Store.get?_isSome_iff _ m).1 (hused _ hm)
  rw [hnew] at hsplice hstacks
  cases r with
  | none => simp [Store.parent, Store.get?] at hholder
  | some old => exact ⟨_, holder, old, new, rfl, hstacks, hholder, hsplice⟩

end JavaRecipes
