import JavaRecipes.Proofs.Tree.Growth
import JavaRecipes.Proofs.Tree.Splice
import JavaRecipes.Proofs.Tree.Tidy

/-!
Grafting: new nodes over some of the old ones are put into the place of an old node. A tidy tree
stays tidy, as the new holders come last and what they take over is no longer held by anything in
reach.
-/

namespace JavaRecipes

namespace Store

section

variable {s u : Store} {holder : Ref} {old new : NodeId}

theorem children_replaceChild (h : s.replaceChild holder (some old) (some new) = some u) :
    (∃ before after, s.children holder = before ++ some old :: after ∧
      u.children holder = before ++ some new :: after) ∧
    ∀ r, r ≠ holder → u.children r = s.children r := by
  obtain ⟨x, y, hx, hxy, hdata⟩ := data?_replaceChild h
  obtain ⟨before, after, hxc, hyc⟩ := NodeData.children_replaceChild hxy
  refine ⟨⟨before, after, ?_, ?_⟩, fun r hr => children_congr (by rw [hdata, if_neg hr])⟩
  · rw [children_eq_of_data? hx, hxc]
  · rw [children_eq_of_data? (by rw [hdata, if_pos rfl]), hyc]

/-- The old child was there. -/
theorem mem_children_of_replaceChild (h : s.replaceChild holder (some old) (some new) = some u) :
    some old ∈ s.children holder := by
  obtain ⟨⟨before, after, hs, -⟩, -⟩ := children_replaceChild h
  simp [hs]

/-- Only the new child is held by more nodes. -/
theorem holds_of_replaceChild (h : s.replaceChild holder (some old) (some new) = some u)
    {n m : NodeId} (hh : u.Holds n m) : (holder = some n ∧ m = new) ∨ s.Holds n m := by
  obtain ⟨⟨before, after, hs, hu⟩, hother⟩ := children_replaceChild h
  by_cases hn : some n = holder
  · subst hn
    simp only [Holds, hs, hu, List.mem_append, List.mem_cons, Option.some.injEq, true_and] at hh ⊢
    tauto
  · exact .inr (by rwa [Holds, hother _ hn] at hh)

/-- Only the old child is held by fewer nodes. -/
theorem holds_replaceChild (h : s.replaceChild holder (some old) (some new) = some u) {n m : NodeId}
    (hh : s.Holds n m) (hm : m ≠ old) : u.Holds n m := by
  obtain ⟨⟨before, after, hs, hu⟩, hother⟩ := children_replaceChild h
  by_cases hn : some n = holder
  · subst hn
    simp only [Holds, hs, hu, List.mem_append, List.mem_cons, Option.some.injEq] at hh ⊢
    tauto
  · rwa [Holds, hother _ hn]

theorem count_children_replaceChild (h : s.replaceChild holder (some old) (some new) = some u)
    (m : NodeId) :
    (u.children holder).count (some m) + [some old].count (some m) =
      (s.children holder).count (some m) + [some new].count (some m) := by
  obtain ⟨⟨before, after, hs, hu⟩, -⟩ := children_replaceChild h
  simp only [hs, hu, List.count_append, List.count_cons, List.count_nil]
  omega

/-- The new child is linked to its holder. -/
theorem parent_replaceChild_new (h : s.replaceChild holder (some old) (some new) = some u)
    (hne : new ≠ old) : u.parent (some new) = holder := by
  rw [parent_replaceChild_eq h, if_neg fun hr => hne (Option.some.inj hr.1), if_pos rfl]

/-- The old child keeps a link to another holder. -/
theorem parent_replaceChild_old (h : s.replaceChild holder (some old) (some new) = some u)
    (hne : new ≠ old) (hparent : s.parent (some old) ≠ holder) :
    u.parent (some old) = s.parent (some old) := by
  have hne' : (some old : Ref) ≠ some new := by simpa using hne.symm
  rw [parent_replaceChild_eq h, if_neg fun hr => hr.2.elim hne' hparent, if_neg hne']

end

/-- New nodes over used ones, put into the place of `old` among the children of its parent. -/
structure Grafted (s t u : Store) (used : List Ref) (holder old new : NodeId) : Prop where
  grows : s.Grows used t [some new]
  fresh : s.size ≤ new
  parent_eq : s.parent (some old) = some holder
  splice : t.replaceChild (some holder) (some old) (some new) = some u

namespace Grafted

variable {s t u : Store} {used : List Ref} {holder old new : NodeId}

theorem size_eq (h : s.Grafted t u used holder old new) : u.size = t.size :=
  size_replaceChild h.splice

theorem size_le (h : s.Grafted t u used holder old new) : s.size ≤ u.size :=
  h.size_eq ▸ h.grows.size_le

theorem old_lt (h : s.Grafted t u used holder old new) : old < s.size :=
  lt_size_of_parent h.parent_eq

theorem new_ne (h : s.Grafted t u used holder old new) : new ≠ old :=
  (h.old_lt.trans_le h.fresh).ne'

theorem new_lt (h : s.Grafted t u used holder old new) : new < u.size :=
  h.size_eq ▸ h.grows.loose_lt List.mem_cons_self

/-- A node holds what it held, or as a new node what is used or new; only the holder gets a new
child. -/
theorem holds_cases (h : s.Grafted t u used holder old new) {n m : NodeId} (hh : u.Holds n m) :
    (n = holder ∧ m = new) ∨ (s.size ≤ n ∧ t.Holds n m) ∨ (n < s.size ∧ s.Holds n m) := by
  rcases holds_of_replaceChild h.splice hh with ⟨hn, hm⟩ | hh
  · exact .inl ⟨(Option.some.inj hn).symm, hm⟩
  · by_cases hn : n < s.size
    · exact .inr (.inr ⟨hn, by rwa [Holds, children_congr (h.grows.data?_old hn)] at hh⟩)
    · exact .inr (.inl ⟨Nat.not_lt.1 hn, hh⟩)

/-- Old nodes hold what they held, except for the one that is replaced. -/
theorem holds (h : s.Grafted t u used holder old new) {n m : NodeId} (hh : s.Holds n m)
    (hm : m ≠ old) :
    u.Holds n m := by
  refine holds_replaceChild h.splice ?_ hm
  rwa [Holds, children_congr (h.grows.data?_old (holds_lt_size hh))]

/-- Old nodes that are not used keep their links. -/
theorem parent_old (h : s.Grafted t u used holder old new) {m : NodeId} (hlt : m < s.size)
    (hm : m ≠ old) (hused : some m ∉ used) : u.parent (some m) = s.parent (some m) := by
  have hnew : m ≠ new := (hlt.trans_le h.fresh).ne
  rw [parent_replaceChild h.splice (by simpa using hm) (by simpa using hnew)]
  exact h.grows.parent_old hlt hused

theorem parent_new (h : s.Grafted t u used holder old new) : u.parent (some new) = some holder :=
  parent_replaceChild_new h.splice h.new_ne

/-- What a new node holds links to it. -/
theorem parent_of_fresh (h : s.Grafted t u used holder old new) (hholder : holder < s.size)
    {n m : NodeId} (hn : s.size ≤ n) (hh : t.Holds n m) : u.parent (some m) = some n := by
  have hlink := h.grows.link_new hn hh
  by_cases hm : m = old
  · subst hm
    rw [parent_replaceChild_old h.splice h.new_ne, hlink]
    rw [hlink, Ne, Option.some.injEq]
    exact (hholder.trans_le hn).ne'
  · have hnew : m ≠ new := fun hnew => h.grows.loose_free List.mem_cons_self hn (hnew ▸ hh)
    rw [parent_replaceChild h.splice (by simpa using hm) (by simpa using hnew), hlink]

end Grafted

/-! ## In reach -/

section

variable {s t u : Store} {root : Ref} {aside : Set NodeId} {used : List Ref}
  {holder old new : NodeId}

/-- A graft uses the replaced node itself, or some of its children. -/
def UsesOwn (s : Store) (used : List Ref) (old : NodeId) : Prop :=
  (∀ m, some m ∈ used → m = old) ∨ ∀ m, some m ∈ used → s.Holds old m

/-- A node stays in reach, unless it is the one that is replaced and not used. -/
def Stays (s : Store) (root : Ref) (used : List Ref) (old n : NodeId) : Prop :=
  s.Reaches root n ∧ (n = old → some old ∈ used)

namespace Tidy

theorem not_holds_self (hs : s.Tidy root aside) {n : NodeId} (hn : s.Reaches root n) :
    ¬ s.Holds n n :=
  fun hh => hs.acyclic n hn (.single hh)

/-- The replaced node sits in a slot of a node in reach. -/
theorem holds_of_parent (hs : s.Tidy root aside) (hold : s.Reaches root old)
    (hparent : s.parent (some old) = some holder) : s.Reaches root holder ∧ s.Holds holder old := by
  cases hold with
  | start hroot _ =>
    rw [← hroot, hs.root_parent] at hparent
    cases hparent
  | @step n _ hn hh _ =>
    obtain rfl : n = holder := Option.some.inj ((hs.link hn hh).symm.trans hparent)
    exact ⟨hn, hh⟩

theorem reaches_used (hs : s.Tidy root aside) (hold : s.Reaches root old)
    (hused : s.UsesOwn used old) {m : NodeId} (hm : some m ∈ used) : s.Reaches root m := by
  rcases hused with hown | hchild
  · rwa [hown m hm]
  · exact hs.reaches hold (hchild m hm)

/-- What a node that stays holds besides the replaced one is not used. -/
theorem not_mem_used (hs : s.Tidy root aside) (hold : s.Reaches root old)
    (hused : s.UsesOwn used old) {n m : NodeId} (hn : s.Stays root used old n) (hh : s.Holds n m)
    (hm : m ≠ old) : some m ∉ used := by
  intro hmem
  rcases hused with hown | hchild
  · exact hm (hown m hmem)
  · obtain rfl := hs.holder_eq hold hn.1 (hchild m hmem) hh
    exact hs.not_holds_self hold (hchild _ (hn.2 rfl))

/-- A node that stays no longer holds the replaced one. -/
theorem ne_of_holds (hs : s.Tidy root aside) (hold : s.Reaches root old)
    (h : s.Grafted t u used holder old new) {n m : NodeId} (hn : s.Reaches root n)
    (hh : u.Holds n m) :
    m ≠ old := by
  rintro rfl
  obtain ⟨hholder, hheld⟩ := hs.holds_of_parent hold h.parent_eq
  rcases h.holds_cases hh with ⟨-, hm⟩ | ⟨hle, -⟩ | ⟨-, hh'⟩
  · exact h.new_ne hm.symm
  · exact absurd hn.lt_size (Nat.not_lt.2 hle)
  · obtain rfl := hs.holder_eq hholder hn hheld hh'
    have hcount := count_children_replaceChild h.splice m
    have hsame : t.children (some n) = s.children (some n) :=
      children_congr (h.grows.data?_old hn.lt_size)
    have honce := hs.once m hn
    have hpos := List.count_pos_iff.2 hh
    simp only [List.count_singleton_self, List.count_singleton, beq_iff_eq,
      Option.some.injEq, h.new_ne, if_false, hsame] at hcount
    omega

/-- What is in reach after a graft is new or was in reach, and not the replaced node if that is not
used. -/
theorem reaches_graft (hs : s.Tidy root aside) (hold : s.Reaches root old)
    (hused : s.UsesOwn used old) (h : s.Grafted t u used holder old new) {n : NodeId}
    (hn : u.Reaches root n) :
    s.size ≤ n ∨ s.Stays root used old n := by
  induction hn with
  | @start n hroot _ =>
    obtain ⟨r, hr, hreach⟩ := hold.exists_root
    obtain rfl : r = n := Option.some.inj (hr.symm.trans hroot)
    refine .inr ⟨hreach, ?_⟩
    rintro rfl
    have hparent := h.parent_eq
    rw [← hroot, hs.root_parent] at hparent
    cases hparent
  | @step n m _ hh _ ih =>
    rcases h.holds_cases hh with ⟨-, rfl⟩ | ⟨hle, hh'⟩ | ⟨hlt, hh'⟩
    · exact .inl h.fresh
    · rcases Nat.lt_or_ge m s.size with hm | hm
      · have hmem := (h.grows.holds_new hle hh').2 hm
        exact .inr ⟨hs.reaches_used hold hused hmem, fun hmo => hmo ▸ hmem⟩
      · exact .inl hm
    · rcases ih with hle | hn
      · exact absurd hlt (Nat.not_lt.2 hle)
      · exact .inr ⟨hs.reaches hn.1 hh', fun hmo => absurd hmo (hs.ne_of_holds hold h hn.1 hh)⟩

private theorem inside_graft (hs : s.Tidy root aside) (h : s.Grafted t u used holder old new)
    {k m : NodeId} (hk : u.Holds k m) (hle : u.size ≤ m) : m ∈ aside := by
  rcases h.holds_cases hk with ⟨-, rfl⟩ | ⟨hkle, hk'⟩ | ⟨-, hk'⟩
  · exact absurd h.new_lt (Nat.not_lt.2 hle)
  · exact absurd ((h.grows.holds_new hkle hk').1.trans (h.size_eq ▸ holds_lt_size hk'))
      (Nat.not_lt.2 hle)
  · exact hs.inside hk' (h.size_le.trans hle)

/-- The root is not replaced, and not used either. -/
private theorem root_stays (hs : s.Tidy root aside) (hold : s.Reaches root old)
    (hused : s.UsesOwn used old) (h : s.Grafted t u used holder old new) {r : NodeId}
    (hr : root = some r) : r ≠ old ∧ some r ∉ used := by
  have hne : r ≠ old := by
    rintro rfl
    have hparent := h.parent_eq
    rw [← hr, hs.root_parent] at hparent
    cases hparent
  refine ⟨hne, fun hm => ?_⟩
  rcases hused with hown | hchild
  · exact hne (hown r hm)
  · have hlink := hs.link hold (hchild r hm)
    rw [← hr, hs.root_parent] at hlink
    cases hlink

private theorem link_graft (hs : s.Tidy root aside) (hold : s.Reaches root old)
    (hused : s.UsesOwn used old) (h : s.Grafted t u used holder old new) {n m : NodeId}
    (hn : u.Reaches root n) (hh : u.Holds n m) : u.parent (some m) = some n := by
  obtain ⟨hholder, -⟩ := hs.holds_of_parent hold h.parent_eq
  rcases h.holds_cases hh with ⟨rfl, rfl⟩ | ⟨hle, hh'⟩ | ⟨hlt, hh'⟩
  · exact h.parent_new
  · exact h.parent_of_fresh hholder.lt_size hle hh'
  · have hstays := (hs.reaches_graft hold hused h hn).resolve_left (Nat.not_le.2 hlt)
    have hm := hs.ne_of_holds hold h hstays.1 hh
    rw [h.parent_old (hs.lt_size hstays.1 hh') hm (hs.not_mem_used hold hused hstays hh' hm)]
    exact hs.link hstays.1 hh'

private theorem count_graft_le (hs : s.Tidy root aside) (hold : s.Reaches root old)
    (hused : s.UsesOwn used old) (h : s.Grafted t u used holder old new) {n : NodeId} (m : NodeId)
    (hn : u.Reaches root n) : (u.children (some n)).count (some m) ≤ 1 := by
  obtain ⟨hholder, -⟩ := hs.holds_of_parent hold h.parent_eq
  rcases hs.reaches_graft hold hused h hn with hle | hstays
  · have hne : (some n : Ref) ≠ some holder := by
      simpa using (hholder.lt_size.trans_le hle).ne'
    rw [(children_replaceChild h.splice).2 _ hne]
    exact h.grows.once_new m hle
  · have hsame : t.children (some n) = s.children (some n) :=
      children_congr (h.grows.data?_old hstays.1.lt_size)
    by_cases hn : n = holder
    · subst hn
      have hcount := count_children_replaceChild h.splice m
      have honce := hs.once m hstays.1
      rw [hsame] at hcount
      by_cases hm : m = new
      · -- The new node was in no slot of the holder.
        subst hm
        have hzero : (s.children (some n)).count (some m) = 0 := List.count_eq_zero.2 fun hh =>
          absurd (hs.lt_size hstays.1 hh) (Nat.not_lt.2 h.fresh)
        simp only [List.count_singleton_self] at hcount
        omega
      · have : [some new].count (some m) = 0 := List.count_eq_zero.2 (by simpa using hm)
        omega
    · rw [(children_replaceChild h.splice).2 _ (by simpa using hn), hsame]
      exact hs.once m hstays.1

/-- New holders come after the old ones, and a new holder shares nothing with another one. -/
private theorem last_graft (hs : s.Tidy root aside) (hold : s.Reaches root old)
    (hused : s.UsesOwn used old) (h : s.Grafted t u used holder old new) {n m k : NodeId}
    (hn : u.Reaches root n) (hh : u.Holds n m) (hk : u.Holds k m) (hnot : m ∉ aside) : k ≤ n := by
  obtain ⟨hholder, -⟩ := hs.holds_of_parent hold h.parent_eq
  rcases h.holds_cases hh with ⟨rfl, rfl⟩ | ⟨hle, hh'⟩ | ⟨hlt, hh'⟩
  · rcases h.holds_cases hk with ⟨rfl, -⟩ | ⟨hkle, hk'⟩ | ⟨-, hk'⟩
    · exact Nat.le_refl _
    · exact absurd hk' (h.grows.loose_free List.mem_cons_self hkle)
    · exact absurd (hs.inside hk' h.fresh) hnot
  · by_contra hkn
    have hkle : s.size ≤ k := hle.trans (Nat.le_of_lt (Nat.not_le.1 hkn))
    rcases h.holds_cases hk with ⟨rfl, -⟩ | ⟨-, hk'⟩ | ⟨hklt, -⟩
    · exact absurd hholder.lt_size (Nat.not_lt.2 hkle)
    · have hlinks := (h.grows.link_new hle hh').symm.trans (h.grows.link_new hkle hk')
      exact hkn (Nat.le_of_eq (Option.some.inj hlinks).symm)
    · exact absurd hklt (Nat.not_lt.2 hkle)
  · have hstays := (hs.reaches_graft hold hused h hn).resolve_left (Nat.not_le.2 hlt)
    have hmlt := hs.lt_size hstays.1 hh'
    have hm := hs.ne_of_holds hold h hstays.1 hh
    rcases h.holds_cases hk with ⟨-, rfl⟩ | ⟨hkle, hk'⟩ | ⟨-, hk'⟩
    · exact absurd hmlt (Nat.not_lt.2 h.fresh)
    · exact absurd ((h.grows.holds_new hkle hk').2 hmlt)
        (hs.not_mem_used hold hused hstays hh' hm)
    · exact hs.last hstays.1 hh' hk' hnot

/-- Replacing a node in reach by new ones keeps a tree tidy. -/
theorem graft (hs : s.Tidy root aside) (hold : s.Reaches root old) (hused : s.UsesOwn used old)
    (h : s.Grafted t u used holder old new) : u.Tidy root aside := by
  obtain ⟨r, hr, hreach⟩ := hold.exists_root
  obtain ⟨hne, hnot_used⟩ := hs.root_stays hold hused h hr
  refine ⟨hs.link_graft hold hused h, hs.count_graft_le hold hused h, ?_,
    hs.last_graft hold hused h, ?_, hs.inside_graft h⟩
  · rw [hr, h.parent_old hreach.lt_size hne hnot_used, ← hr, hs.root_parent]
  · intro n k hn hroot hnot hk
    obtain rfl : r = n := Option.some.inj (hr.symm.trans hroot)
    rcases h.holds_cases hk with ⟨-, rfl⟩ | ⟨hkle, hk'⟩ | ⟨-, hk'⟩
    · exact absurd hreach.lt_size (Nat.not_lt.2 h.fresh)
    · exact hnot_used ((h.grows.holds_new hkle hk').2 hreach.lt_size)
    · exact hs.root_unheld hreach hroot hnot hk'

end Tidy

end

/-! ## Out of reach -/

namespace Tidy

variable {s t u : Store} {root : Ref} {aside : Set NodeId} {used : List Ref}
  {holder old new : NodeId}

/-- The holder of a node out of reach is out of reach. -/
theorem not_reaches_holder (hs : s.Tidy root aside) (hold : ¬ s.Reaches root old)
    (h : s.Grafted t u used holder old new) : ¬ s.Reaches root holder := by
  intro hreach
  have hheld : t.Holds holder old := mem_children_of_replaceChild h.splice
  rw [Holds, children_congr (h.grows.data?_old hreach.lt_size)] at hheld
  exact hold (hs.reaches hreach hheld)

/-- A graft out of reach leaves the payloads of the nodes in reach. -/
theorem data?_graft_unreached (hs : s.Tidy root aside) (hold : ¬ s.Reaches root old)
    (h : s.Grafted t u used holder old new) {n : NodeId} (hn : s.Reaches root n) :
    u.data? (some n) = s.data? (some n) := by
  have hne : (some n : Ref) ≠ some holder :=
    fun he => hs.not_reaches_holder hold h (Option.some.inj he ▸ hn)
  obtain ⟨x, y, -, -, hdata⟩ := data?_replaceChild h.splice
  rw [hdata, if_neg hne, h.grows.data?_old hn.lt_size]

/-- A graft out of reach brings nothing into reach. -/
theorem reaches_graft_unreached (hs : s.Tidy root aside) {r : NodeId} (hr : root = some r)
    (hlt : r < s.size) (hold : ¬ s.Reaches root old)
    (h : s.Grafted t u used holder old new) {n : NodeId} (hn : u.Reaches root n) :
    s.Reaches root n := by
  induction hn with
  | start hroot _ =>
    obtain rfl := Option.some.inj (hr.symm.trans hroot)
    exact .start hr hlt
  | step _ hh _ ih =>
    rw [Holds, children_congr (hs.data?_graft_unreached hold h ih)] at hh
    exact hs.reaches ih hh

/-- What happens out of reach does not matter. -/
theorem graft_unreached (hs : s.Tidy root aside) {r : NodeId} (hr : root = some r)
    (hlt : r < s.size) (hold : ¬ s.Reaches root old)
    (hused : ∀ m, some m ∈ used → ¬ s.Reaches root m) (h : s.Grafted t u used holder old new) :
    u.Tidy root aside := by
  -- A node in reach has its slots and its link, and no new holder.
  have hchildren : ∀ {n}, s.Reaches root n → u.children (some n) = s.children (some n) :=
    fun hn => children_congr (hs.data?_graft_unreached hold h hn)
  have hparent : ∀ {n}, s.Reaches root n → u.parent (some n) = s.parent (some n) := fun {n} hn =>
    h.parent_old hn.lt_size (fun he => hold (he ▸ hn)) (fun hm => hused n hm hn)
  have hheld : ∀ {k m}, s.Reaches root m → u.Holds k m → s.Holds k m := by
    intro k m hm hk
    rcases h.holds_cases hk with ⟨-, rfl⟩ | ⟨hle, hk'⟩ | ⟨-, hk'⟩
    · exact absurd hm.lt_size (Nat.not_lt.2 h.fresh)
    · exact absurd hm (hused m ((h.grows.holds_new hle hk').2 hm.lt_size))
    · exact hk'
  have hreaches : ∀ {n}, u.Reaches root n → s.Reaches root n :=
    hs.reaches_graft_unreached hr hlt hold h
  constructor
  · intro n m hn hh
    have hn := hreaches hn
    rw [Holds, hchildren hn] at hh
    rw [hparent (hs.reaches hn hh)]
    exact hs.link hn hh
  · intro n m hn
    rw [hchildren (hreaches hn)]
    exact hs.once m (hreaches hn)
  · rw [hr, hparent (.start hr hlt), ← hr]
    exact hs.root_parent
  · intro n m k hn hh hk
    have hn := hreaches hn
    rw [Holds, hchildren hn] at hh
    exact hs.last hn hh (hheld (hs.reaches hn hh) hk)
  · intro n k hn hroot hnot hk
    exact hs.root_unheld (hreaches hn) hroot hnot (hheld (hreaches hn) hk)
  · exact hs.inside_graft h

end Tidy

end Store

end JavaRecipes
