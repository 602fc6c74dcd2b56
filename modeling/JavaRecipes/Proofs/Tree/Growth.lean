import JavaRecipes.Proofs.Tree.Built

/-!
Stores that grow. Whatever is built from nodes of a store and new ones, each child before its
holder, is a forest of new nodes over some of the old ones: it leaves all payloads, takes over the
links of what it uses, and holds nothing twice.
-/

namespace JavaRecipes

namespace Store

/-- `t` is `s` with new nodes behind it. Of the old nodes they hold only those that are used, and
`loose` are nodes that none of them holds. -/
structure Grows (used : List Ref) (s t : Store) (loose : List Ref) : Prop where
  size_le : s.size ≤ t.size
  data?_old : ∀ {n}, n < s.size → t.data? (some n) = s.data? (some n)
  holds_new : ∀ {n m}, s.size ≤ n → t.Holds n m → m < n ∧ (m < s.size → some m ∈ used)
  link_new : ∀ {n m}, s.size ≤ n → t.Holds n m → t.parent (some m) = some n
  once_new : ∀ {n} m, s.size ≤ n → (t.children (some n)).count (some m) ≤ 1
  parent_old : ∀ {m}, m < s.size → some m ∉ used → t.parent (some m) = s.parent (some m)
  parent_lt : ∀ {m k}, t.parent (some m) = some k → s.parent (some m) = some k ∨ k < t.size
  loose_lt : ∀ {m}, some m ∈ loose → m < t.size
  loose_used : ∀ {m}, some m ∈ loose → m < s.size → some m ∈ used
  loose_free : ∀ {n m}, some m ∈ loose → s.size ≤ n → ¬ t.Holds n m
  loose_once : ∀ m, loose.count (some m) ≤ 1

namespace Grows

/-- An old node stands for itself. -/
theorem existing {s : Store} {r : Ref} (h : ∀ n, r = some n → n < s.size) : s.Grows [r] s [r] where
  size_le := Nat.le_refl _
  data?_old _ := rfl
  holds_new hn hh := absurd (holds_lt_size hh) (Nat.not_lt.2 hn)
  link_new hn hh := absurd (holds_lt_size hh) (Nat.not_lt.2 hn)
  once_new m hn := by
    rw [children_eq_nil_of_data? (by simpa [data?, get?, size] using hn)]
    simp
  parent_old _ _ := rfl
  parent_lt := .inl
  loose_lt hm := h _ (List.mem_singleton.1 hm).symm
  loose_used hm _ := hm
  loose_free _ hn hh := absurd (holds_lt_size hh) (Nat.not_lt.2 hn)
  loose_once m := List.count_le_length.trans (by simp)

/-- Nodes can be left out from what is used or loose if they are not there. -/
theorem congr_mem {used used' : List Ref} {s t : Store} {loose loose' : List Ref}
    (h : s.Grows used t loose) (hused : ∀ m, some m ∈ used ↔ some m ∈ used')
    (hloose : ∀ m, loose'.count (some m) ≤ loose.count (some m)) :
    s.Grows used' t loose' := by
  have hmem : ∀ {m}, some m ∈ loose' → some m ∈ loose := fun {m} hm =>
    List.count_pos_iff.1 ((List.count_pos_iff.2 hm).trans_le (hloose m))
  constructor
  · exact h.size_le
  · exact h.data?_old
  · exact fun hn hh => ⟨(h.holds_new hn hh).1, fun hlt => (hused _).1 ((h.holds_new hn hh).2 hlt)⟩
  · exact h.link_new
  · exact h.once_new
  · exact fun hm hnot => h.parent_old hm fun hm' => hnot ((hused _).1 hm')
  · exact h.parent_lt
  · exact fun hm => h.loose_lt (hmem hm)
  · exact fun hm hlt => (hused _).1 (h.loose_used (hmem hm) hlt)
  · exact fun hm => h.loose_free (hmem hm)
  · exact fun m => (hloose m).trans (h.loose_once m)

theorem nil (s : Store) : s.Grows [] s [] :=
  (existing (by simp) : s.Grows [none] s [none]).congr_mem (by simp) (by simp)

/-- What is built one after the other stands side by side, if nothing is used twice. -/
theorem append {used used' : List Ref} {s t u : Store} {loose loose' : List Ref}
    (h : s.Grows used t loose) (h' : t.Grows used' u loose')
    (hold : ∀ m, some m ∈ used' → m < s.size) (hdisjoint : ∀ m, some m ∈ used → some m ∉ used') :
    s.Grows (used ++ used') u (loose ++ loose') := by
  -- What the first part holds or leaves loose is not used by the second one.
  have hfree : ∀ {m}, (m < s.size → some m ∈ used) → some m ∉ used' :=
    fun hm hm' => hdisjoint _ (hm (hold _ hm')) hm'
  have hsame : ∀ {n m}, n < t.size → (u.Holds n m ↔ t.Holds n m) := fun hn => by
    rw [Holds, Holds, children_congr (h'.data?_old hn)]
  constructor
  · exact h.size_le.trans h'.size_le
  · intro n hn
    rw [h'.data?_old (hn.trans_le h.size_le), h.data?_old hn]
  · intro n m hn hh
    by_cases hnt : n < t.size
    · obtain ⟨hlt, hm⟩ := h.holds_new hn ((hsame hnt).1 hh)
      exact ⟨hlt, fun hlt => List.mem_append_left _ (hm hlt)⟩
    · obtain ⟨hlt, hm⟩ := h'.holds_new (Nat.not_lt.1 hnt) hh
      exact ⟨hlt, fun hlt => List.mem_append_right _ (hm (hlt.trans_le h.size_le))⟩
  · intro n m hn hh
    by_cases hnt : n < t.size
    · have hh := (hsame hnt).1 hh
      obtain ⟨hlt, hm⟩ := h.holds_new hn hh
      rw [h'.parent_old (hlt.trans hnt) (hfree hm)]
      exact h.link_new hn hh
    · exact h'.link_new (Nat.not_lt.1 hnt) hh
  · intro n m hn
    by_cases hnt : n < t.size
    · rw [children_congr (h'.data?_old hnt)]
      exact h.once_new m hn
    · exact h'.once_new m (Nat.not_lt.1 hnt)
  · intro m hm hnot
    obtain ⟨hnot, hnot'⟩ := not_or.1 (fun h => hnot (List.mem_append.2 h))
    rw [h'.parent_old (hm.trans_le h.size_le) hnot', h.parent_old hm hnot]
  · intro m k hk
    rcases h'.parent_lt hk with hk | hk
    · exact (h.parent_lt hk).imp id fun hlt => hlt.trans_le h'.size_le
    · exact .inr hk
  · intro m hm
    rcases List.mem_append.1 hm with hm | hm
    · exact (h.loose_lt hm).trans_le h'.size_le
    · exact h'.loose_lt hm
  · intro m hm hlt
    rcases List.mem_append.1 hm with hm | hm
    · exact List.mem_append_left _ (h.loose_used hm hlt)
    · exact List.mem_append_right _ (h'.loose_used hm (hlt.trans_le h.size_le))
  · intro n m hm hn hh
    rcases List.mem_append.1 hm with hm | hm
    · by_cases hnt : n < t.size
      · exact h.loose_free hm hn ((hsame hnt).1 hh)
      · exact hfree (h.loose_used hm) ((h'.holds_new (Nat.not_lt.1 hnt) hh).2 (h.loose_lt hm))
    · by_cases hnt : n < t.size
      · obtain ⟨hlt, hm'⟩ := h.holds_new hn ((hsame hnt).1 hh)
        exact hfree hm' (h'.loose_used hm (hlt.trans hnt))
      · exact h'.loose_free hm (Nat.not_lt.1 hnt) hh
  · intro m
    rw [List.count_append]
    by_cases hm : some m ∈ loose
    · have hm' : some m ∉ loose' :=
        fun hm' => hfree (h.loose_used hm) (h'.loose_used hm' (h.loose_lt hm))
      rw [List.count_eq_zero_of_not_mem hm', Nat.add_zero]
      exact h.loose_once m
    · rw [List.count_eq_zero_of_not_mem hm, Nat.zero_add]
      exact h'.loose_once m

/-- A new node over loose ones is the only loose one afterwards. -/
theorem add {used : List Ref} {s t : Store} {loose : List Ref} (h : s.Grows used t loose)
    {data : NodeData} (hcount : ∀ m, data.children.count (some m) ≤ loose.count (some m)) :
    s.Grows used (t.add data).2 [some (t.add data).1] := by
  have hloose : ∀ m, some m ∈ data.children → some m ∈ loose := fun m hm =>
    List.count_pos_iff.1 ((List.count_pos_iff.2 hm).trans_le (hcount m))
  have hdata := data?_add t data
  have hnew : (t.add data).2.data? (some t.size) = some data := by rw [hdata, if_pos rfl]
  have hsame : ∀ {n}, n ≠ t.size → (t.add data).2.data? (some n) = t.data? (some n) := fun hn => by
    rw [hdata, if_neg fun h => hn (Option.some.inj h)]
  constructor
  · rw [size_add]
    exact h.size_le.trans (Nat.le_succ _)
  · intro n hn
    rw [hsame (Nat.ne_of_lt (hn.trans_le h.size_le)), h.data?_old hn]
  · intro n m hn hh
    rcases holds_add.1 hh with ⟨rfl, hm⟩ | ⟨-, hh⟩
    · exact ⟨h.loose_lt (hloose m hm), h.loose_used (hloose m hm)⟩
    · exact h.holds_new hn hh
  · intro n m hn hh
    rcases holds_add.1 hh with ⟨rfl, hm⟩ | ⟨-, hh⟩
    · rw [parent_add t data (h.loose_lt (hloose m hm)), if_pos hm]
    · have hlt : m < t.size := (h.holds_new hn hh).1.trans (holds_lt_size hh)
      rw [parent_add t data hlt, if_neg fun hm => h.loose_free (hloose m hm) hn hh]
      exact h.link_new hn hh
  · intro n m hn
    by_cases hnt : n = t.size
    · subst hnt
      rw [children_eq_of_data? hnew]
      exact (hcount m).trans (h.loose_once m)
    · rw [children_congr (hsame hnt)]
      exact h.once_new m hn
  · intro m hm hnot
    rw [parent_add t data (hm.trans_le h.size_le),
      if_neg fun hc => hnot (h.loose_used (hloose m hc) hm)]
    exact h.parent_old hm hnot
  · intro m k hk
    have hlt : t.size < (t.add data).2.size := by
      rw [size_add]
      exact Nat.lt_succ_self _
    by_cases hm : m < t.size
    · rw [parent_add t data hm] at hk
      split at hk
      · exact .inr (Option.some.inj hk ▸ hlt)
      · exact (h.parent_lt hk).imp id fun hk => hk.trans hlt
    · obtain rfl : m = t.size := by
        have := lt_size_of_parent hk
        rw [size_add] at this
        exact Nat.le_antisymm (Nat.lt_succ_iff.1 this) (Nat.not_lt.1 hm)
      rw [parent_add_size] at hk
      cases hk
  · intro m hm
    obtain rfl : m = t.size := by simpa using hm
    rw [size_add]
    exact Nat.lt_succ_self _
  · intro m hm hlt
    obtain rfl : m = t.size := by simpa using hm
    exact absurd hlt (Nat.not_lt.2 h.size_le)
  · intro n m hm hn hh
    obtain rfl : m = t.size := by simpa using hm
    rcases holds_add.1 hh with ⟨-, hm⟩ | ⟨-, hh⟩
    · exact Nat.lt_irrefl _ (h.loose_lt (hloose _ hm))
    · exact Nat.lt_irrefl _ ((h.holds_new hn hh).1.trans (holds_lt_size hh))
  · intro m
    exact List.count_le_length.trans (by simp)

/-- A new node that holds nothing. -/
theorem leaf (s : Store) {data : NodeData} (hleaf : data.children = []) :
    s.Grows [] (s.add data).2 [some (s.add data).1] :=
  (nil s).add (by simp [hleaf])

/-- A new node over a new name and loose nodes. -/
theorem addNamed {used : List Ref} {s t : Store} {loose : List Ref} (h : s.Grows used t loose)
    (name : Identifier) {data : NodeData}
    (hcount : ∀ m, data.children.count (some m) ≤ (loose ++ [some t.size]).count (some m)) :
    s.Grows used ((t.add (.identifier name)).2.add data).2
      [some ((t.add (.identifier name)).2.add data).1] := by
  have hboth :=
    h.append (leaf t (rfl : (NodeData.identifier name).children = [])) (by simp) (by simp)
  rw [List.append_nil] at hboth
  exact hboth.add hcount

end Grows

theorem count_children_one (r : Ref) (m : NodeId) :
    (ChildField.one r).children.count (some m) = [r].count (some m) := by
  cases r <;> simp [ChildField.children]

end Store

end JavaRecipes
