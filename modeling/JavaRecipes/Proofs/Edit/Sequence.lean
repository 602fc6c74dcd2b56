import JavaRecipes.Proofs.Edit.Renaming

/-!
Renaming edits one after another. The payloads of old nodes are retouched and their slots keep what
they had or get a new literal (`applyEdits_data?`); a node that was to be replaced leaves a slot of
its holder (`count_applyEdits_lt`).
-/

namespace JavaRecipes

/-- All nodes that the edits are about come before `limit`. -/
def Edit.Within (es : List Edit) (limit : NodeId) : Prop :=
  ∀ e ∈ es, ∀ r, e.target? = some r → ∃ n < limit, r = some n

/-- No edit is about a node that comes later. -/
theorem Edit.Within.target_ne {es : List Edit} {limit m : NodeId} (h : Edit.Within es limit)
    (hm : limit ≤ m) : ∀ e ∈ es, e.target? ≠ some (some m) := by
  intro e he ht
  obtain ⟨n, hn, hmn⟩ := h e he _ ht
  rw [← Option.some.inj hmn] at hn
  exact Nat.not_lt.2 hm hn

/-- A slot keeps its node, or a literal that came later stands there for a node that was to be
replaced. -/
def Refilled (es : List Edit) (limit : NodeId) (s : Store) (a b : Ref) : Prop :=
  b = a ∨ ∃ value m type, .replaceExpression a (.stringLiteral value) ∈ es ∧ b = some m ∧
    limit ≤ m ∧ s.data? (some m) = some (.literal { value := .string value, type })

namespace Draft

theorem applyEdits_cons {d d' : Draft} {e : Edit} {es : List Edit}
    (h : d.applyEdits (e :: es) = .ok d') :
    ∃ d₁, d.applyEdit e = .ok d₁ ∧ d₁.applyEdits es = .ok d' := by
  simp only [applyEdits] at h
  split at h
  · simp at h
  · rename_i d₁ hd₁
    exact ⟨d₁, hd₁, h⟩

/-- What holds at the start and is kept by each edit, after those that come before it, holds after a
run. -/
theorem applyEdits_induction {P : List Edit → Draft → Prop} {d d' : Draft} {es : List Edit}
    (hd : d.applyEdits es = .ok d') (hstart : P [] d)
    (hstep : ∀ {done e rest d₁ d₂}, es = done.reverse ++ e :: rest → P done d₁ →
      d₁.applyEdit e = .ok d₂ →
      P (e :: done) d₂) : P es.reverse d' := by
  have hrun : ∀ rest done d, es = done.reverse ++ rest → P done d → d.applyEdits rest = .ok d' →
      P es.reverse d' := by
    intro rest
    induction rest with
    | nil =>
      intro done d hes hP hd
      obtain rfl := Except.ok.inj hd
      simpa [hes] using hP
    | cons e rest ih =>
      intro done d hes hP hd
      obtain ⟨d₁, he, hrest⟩ := applyEdits_cons hd
      exact ih (e :: done) d₁ (by simp [hes]) (hstep hes hP he) hrest
  exact hrun es [] d rfl hstart hd

/-- If each edit can be made where what has been kept so far holds, and keeps it, then all edits can
be made. -/
theorem exists_applyEdits {P : List Edit → Draft → Prop} {d : Draft} {es : List Edit}
    (hstart : P [] d) (hstep : ∀ {done e rest d₁}, es = done.reverse ++ e :: rest → P done d₁ →
      ∃ d₂, d₁.applyEdit e = .ok d₂ ∧ P (e :: done) d₂) :
      ∃ d', d.applyEdits es = .ok d' ∧ P es.reverse d' := by
  have hrun : ∀ rest done d, es = done.reverse ++ rest → P done d →
      ∃ d', d.applyEdits rest = .ok d' ∧ P es.reverse d' := by
    intro rest
    induction rest with
    | nil =>
      intro done d hes hP
      exact ⟨d, rfl, by simpa [hes] using hP⟩
    | cons e rest ih =>
      intro done d hes hP
      obtain ⟨d₁, he, hP₁⟩ := hstep hes hP
      obtain ⟨d', hd', hP'⟩ := ih (e :: done) d₁ (by simp [hes]) hP₁
      exact ⟨d', by simp [applyEdits, he, hd'], hP'⟩
  exact hrun es [] d rfl hstart

theorem applyEdits_size_le {d d' : Draft} {es : List Edit} (hes : ∀ e ∈ es, e.IsRenaming)
    (h : d.applyEdits es = .ok d') : d.store.size ≤ d'.store.size := by
  induction es generalizing d with
  | nil =>
    obtain rfl := Except.ok.inj h
    exact Nat.le_refl _
  | cons e es ih =>
    obtain ⟨d₁, he, hrest⟩ := applyEdits_cons h
    have h₁ := applyEdit_size_le (hes e List.mem_cons_self) he
    have h₂ := ih (fun a ha => hes a (List.mem_cons_of_mem _ ha)) hrest
    exact Nat.le_trans h₁ h₂

/-- What renaming edits do to a payload. -/
theorem applyEdits_data? {d d' : Draft} {es : List Edit} {limit : NodeId}
    (hes : ∀ e ∈ es, e.IsRenaming) (hwithin : Edit.Within es limit) (hlimit : limit ≤ d.store.size)
    (h : d.applyEdits es = .ok d') {n : NodeId} {x : NodeData}
    (hx : d.store.data? (some n) = some x) :
    ∃ y, d'.store.data? (some n) = some y ∧
      NodeData.Slotwise (Refilled es limit d'.store) (retouchAll es (some n) x) y := by
  induction es generalizing d n x with
  | nil =>
    obtain rfl := Except.ok.inj h
    exact ⟨x, hx, NodeData.Slotwise.refl (fun _ => .inl rfl) x⟩
  | cons e es ih =>
    obtain ⟨d₁, he, hrest⟩ := applyEdits_cons h
    have hrenaming := hes e List.mem_cons_self
    have hes' : ∀ a ∈ es, a.IsRenaming := fun a ha => hes a (List.mem_cons_of_mem _ ha)
    have hwithin' : Edit.Within es limit := fun a ha => hwithin a (List.mem_cons_of_mem _ ha)
    have hlimit' := Nat.le_trans hlimit (applyEdit_size_le hrenaming he)
    obtain ⟨z, hz, hxz⟩ := applyEdit_data? hrenaming he hx
    obtain ⟨y, hy, hzy⟩ := ih hes' hwithin' hlimit' hrest hz
    refine ⟨y, hy, (slotwise_retouchAll es (some n) hxz).comp ?_ hzy⟩
    intro a b c hab hbc
    have hlater : ∀ a, Refilled es limit d'.store a c → Refilled (e :: es) limit d'.store a c := by
      rintro a (hac | ⟨value, m, type, hmem, hm⟩)
      · exact .inl hac
      · exact .inr ⟨value, m, type, List.mem_cons_of_mem _ hmem, hm⟩
    rcases hab with rfl | ⟨value, rfl, rfl⟩
    · exact hlater _ hbc
    · -- the new literal is no edit's target, so it is still there in the end
      have hfree := hwithin'.target_ne hlimit
      rcases hbc with rfl | ⟨value', m, type, hmem, -⟩
      · obtain ⟨type, hfresh⟩ := applyEdit_fresh he
        obtain ⟨w, hw, hlit⟩ := ih hes' hwithin' hlimit' hrest hfresh
        rw [retouchAll_of_no_target hfree] at hlit
        rw [hlit.of_literal] at hw
        exact .inr ⟨value, _, _, List.mem_cons_self, rfl, hlimit, hw⟩
      · exact absurd rfl (hfree _ hmem)

/-- Nodes that were not there before are the literals of replacements. -/
theorem applyEdits_new {d d' : Draft} {es : List Edit} {limit : NodeId}
    (hes : ∀ e ∈ es, e.IsRenaming) (hwithin : Edit.Within es limit) (hlimit : limit ≤ d.store.size)
    (h : d.applyEdits es = .ok d') {n : NodeId} (hn : d.store.size ≤ n) {y : NodeData}
    (hy : d'.store.data? (some n) = some y) :
    ∃ r value type, .replaceExpression r (.stringLiteral value) ∈ es ∧
      y = .literal { value := .string value, type } := by
  induction es generalizing d with
  | nil =>
    obtain rfl := Except.ok.inj h
    exact absurd (Store.lt_size_of_data? hy) (Nat.not_lt.2 hn)
  | cons e es ih =>
    obtain ⟨d₁, he, hrest⟩ := applyEdits_cons h
    have hrenaming := hes e List.mem_cons_self
    have hes' : ∀ a ∈ es, a.IsRenaming := fun a ha => hes a (List.mem_cons_of_mem _ ha)
    have hwithin' : Edit.Within es limit := fun a ha => hwithin a (List.mem_cons_of_mem _ ha)
    have hlimit' := Nat.le_trans hlimit (applyEdit_size_le hrenaming he)
    by_cases hn₁ : d₁.store.size ≤ n
    · obtain ⟨r, value, type, hmem, rfl⟩ := ih hes' hwithin' hlimit' hrest hn₁
      exact ⟨r, value, type, List.mem_cons_of_mem _ hmem, rfl⟩
    · obtain ⟨z, hz⟩ := Store.exists_data? (Nat.lt_of_not_le hn₁)
      obtain ⟨r, value, type, rfl, rfl, rfl⟩ := applyEdit_new hrenaming he hn hz
      obtain ⟨w, hw, hlit⟩ := applyEdits_data? hes' hwithin' hlimit' hrest hz
      have hfree := hwithin'.target_ne hlimit
      rw [retouchAll_of_no_target hfree] at hlit
      rw [hlit.of_literal, hy] at hw
      exact ⟨r, value, _, List.mem_cons_self, Option.some.inj hw⟩

end Draft

/-- A slot that is refilled was not empty. -/
theorem Refilled.none_iff {es : List Edit} {limit : NodeId} {s : Store}
    (hwithin : Edit.Within es limit) {a b : Ref} (h : Refilled es limit s a b) :
    a = none ↔ b = none := by
  rcases h with rfl | ⟨value, m, type, hmem, rfl, -⟩
  · exact Iff.rfl
  · obtain ⟨n, -, rfl⟩ := hwithin _ hmem _ rfl
    simp

/-- An old node in a slot was there before. -/
theorem Refilled.eq_of_lt {es : List Edit} {limit : NodeId} {s : Store} {a : Ref} {m : NodeId}
    (h : Refilled es limit s a (some m)) (hm : m < limit) : a = some m := by
  rcases h with h | ⟨value, k, type, -, hk, hlimit, -⟩
  · exact h.symm
  · rw [Option.some.inj hk] at hm
    exact absurd hm (Nat.not_lt.2 hlimit)

theorem children_retouchAll (es : List Edit) (r : Ref) (x : NodeData) :
    (retouchAll es r x).children = x.children := by
  induction es generalizing x with
  | nil => rfl
  | cons e es ih =>
    rw [retouchAll_cons, ih]
    cases e <;> simp only [Edit.retouch] <;> try split
    all_goals try rfl
    all_goals cases x <;> rfl

namespace Draft

theorem applyEdits_append {d d' : Draft} {es es' : List Edit}
    (h : d.applyEdits (es ++ es') = .ok d') :
    ∃ d₁, d.applyEdits es = .ok d₁ ∧ d₁.applyEdits es' = .ok d' := by
  induction es generalizing d with
  | nil => exact ⟨d, rfl, h⟩
  | cons e es ih =>
    obtain ⟨d₁, he, hrest⟩ := applyEdits_cons h
    obtain ⟨d₂, hes, hes'⟩ := ih hrest
    refine ⟨d₂, ?_, hes'⟩
    simp only [applyEdits, he]
    exact hes

/-- The slots of a node after renaming edits. -/
theorem applyEdits_children {d d' : Draft} {es : List Edit} {limit : NodeId}
    (hes : ∀ e ∈ es, e.IsRenaming) (hwithin : Edit.Within es limit) (hlimit : limit ≤ d.store.size)
    (h : d.applyEdits es = .ok d') {n : NodeId} (hn : n < d.store.size) :
    List.Forall₂ (Refilled es limit d'.store) (d.store.children (some n))
      (d'.store.children (some n)) := by
  obtain ⟨x, hx⟩ := Store.exists_data? hn
  obtain ⟨y, hy, hxy⟩ := applyEdits_data? hes hwithin hlimit h hx
  have hchildren := hxy.children fun a b hab => hab.none_iff hwithin
  rw [children_retouchAll] at hchildren
  rwa [Store.children_eq_of_data? hx, Store.children_eq_of_data? hy]

theorem applyEdits_parent {d d' : Draft} {es : List Edit} (hes : ∀ e ∈ es, e.IsRenaming)
    (h : d.applyEdits es = .ok d') {n : NodeId} (hn : n < d.store.size)
    (hne : ∀ value, .replaceExpression (some n) (.stringLiteral value) ∉ es) :
    d'.store.parent (some n) = d.store.parent (some n) := by
  induction es generalizing d with
  | nil =>
    obtain rfl := Except.ok.inj h
    rfl
  | cons e es ih =>
    obtain ⟨d₁, he, hrest⟩ := applyEdits_cons h
    have hrenaming := hes e List.mem_cons_self
    have hes' : ∀ a ∈ es, a.IsRenaming := fun a ha => hes a (List.mem_cons_of_mem _ ha)
    have hn₁ := Nat.lt_of_lt_of_le hn (applyEdit_size_le hrenaming he)
    rw [ih hes' hrest hn₁ fun value hmem => hne value (List.mem_cons_of_mem _ hmem)]
    refine applyEdit_parent hrenaming he hn fun value heq => hne value ?_
    rw [heq]
    exact List.mem_cons_self

/-- Edits put no old node into a slot. -/
theorem count_applyEdits_le {d d' : Draft} {es : List Edit} {limit : NodeId}
    (hes : ∀ e ∈ es, e.IsRenaming) (hwithin : Edit.Within es limit) (hlimit : limit ≤ d.store.size)
    (h : d.applyEdits es = .ok d') {n m : NodeId} (hn : n < d.store.size) (hm : m < limit) :
    (d'.store.children (some n)).count (some m) ≤ (d.store.children (some n)).count (some m) := by
  refine ChildField.count_le_of_forall₂ (applyEdits_children hes hwithin hlimit h hn) ?_
  rintro a _ hab rfl
  exact hab.eq_of_lt hm

/-- A replacement takes its target out of one slot of the holder. -/
theorem count_applyEdit_replaceExpression {d d' : Draft} {m : NodeId} {value : String}
    (h : d.applyEdit (.replaceExpression (some m) (.stringLiteral value)) = .ok d')
    (hm : m < d.store.size) :
    ∃ p, d.store.parent (some m) = some p ∧ p < d.store.size ∧
      (d.store.children (some p)).count (some m) =
        (d'.store.children (some p)).count (some m) + 1 := by
  obtain ⟨p, type, hparent, hstore, -⟩ := applyEdit_replaceExpression h
  obtain ⟨x, y, hx, hxy, hdata⟩ := Store.data?_replaceChild hstore
  have hp : p ≠ d.store.size := by
    rintro rfl
    rw [Store.data?_add, if_pos rfl] at hx
    obtain rfl := Option.some.inj hx
    simp [NodeData.replaceChild_literal] at hxy
  rw [Store.data?_add, if_neg (by simpa using hp)] at hx
  refine ⟨p, hparent, Store.lt_size_of_data? hx, ?_⟩
  have hy : d'.store.data? (some p) = some y := by simp [hdata]
  rw [Store.children_eq_of_data? hx, Store.children_eq_of_data? hy]
  exact NodeData.count_replaceChild (Nat.ne_of_lt hm) hxy

/-- In the end a node that was to be replaced is in one slot less of its holder. -/
theorem count_applyEdits_lt {d d' : Draft} {es : List Edit} {limit : NodeId}
    (hes : ∀ e ∈ es, e.IsRenaming) (hwithin : Edit.Within es limit) (hlimit : limit ≤ d.store.size)
    (h : d.applyEdits es = .ok d') (hnodup : es.Nodup) (hharm : EditSet.Harmonious es)
    {m p : NodeId} {value : String} (hmem : .replaceExpression (some m) (.stringLiteral value) ∈ es)
    (hp : d.store.parent (some m) = some p) (hpd : p < d.store.size) :
    (d'.store.children (some p)).count (some m) < (d.store.children (some p)).count (some m) := by
  obtain ⟨before, after, rfl⟩ := List.append_of_mem hmem
  obtain ⟨d₁, hbefore, hrest⟩ := applyEdits_append h
  obtain ⟨d₂, he, hafter⟩ := applyEdits_cons hrest
  have hm : m < limit := by
    obtain ⟨n, hn, hmn⟩ := hwithin _ hmem _ rfl
    rwa [Option.some.inj hmn]
  have hes₁ : ∀ e ∈ before, e.IsRenaming := fun e he => hes e (by simp [he])
  have hes₂ : ∀ e ∈ after, e.IsRenaming := fun e he => hes e (by simp [he])
  have hsize₁ : d.store.size ≤ d₁.store.size := applyEdits_size_le hes₁ hbefore
  have hsize₂ : d₁.store.size ≤ d₂.store.size := applyEdit_size_le (.replaceExpression _ _) he
  -- no earlier edit replaces the node: it would be this one, which is there once
  have hearlier : ∀ v, .replaceExpression (some m) (.stringLiteral v) ∉ before := by
    intro v hv
    have heq := (hharm (.replaceExpression (some m) (.stringLiteral v)) (by simp [hv]) _ hmem
      (some m) rfl rfl).eq (by simp)
    rw [heq] at hv
    exact (List.nodup_append.1 hnodup).2.2 _ hv _ List.mem_cons_self rfl
  have hmd : m < d.store.size := Nat.lt_of_lt_of_le hm hlimit
  obtain ⟨p', hp', hlt, hcount⟩ :=
    count_applyEdit_replaceExpression he (Nat.lt_of_lt_of_le hmd hsize₁)
  rw [applyEdits_parent hes₁ hbefore hmd hearlier, hp] at hp'
  obtain rfl := Option.some.inj hp'
  have hw₁ : Edit.Within before limit := fun e he => hwithin e (by simp [he])
  have hw₂ : Edit.Within after limit := fun e he => hwithin e (by simp [he])
  have h₁ := count_applyEdits_le hes₁ hw₁ hlimit hbefore hpd hm
  have h₂ := count_applyEdits_le hes₂ hw₂ (Nat.le_trans hlimit (Nat.le_trans hsize₁ hsize₂)) hafter
    (Nat.lt_of_lt_of_le hlt hsize₂) hm
  omega

end Draft

end JavaRecipes
