import JavaRecipes.Proofs.Edit.KeptTree
import JavaRecipes.Proofs.Edit.Snippets

/-!
Edits that rewrite expressions: they replace nodes or point calls at other methods. Old payloads get
other children, a call is of another method just if an edit says so, and new calls are of methods
that the snippets spell.
-/

namespace JavaRecipes

namespace Edit

/-- An edit that replaces an expression or the method of a call. -/
inductive IsRewriting : Edit → Prop
  | replaceExpression (r : Ref) (snippet : Snippet) : IsRewriting (.replaceExpression r snippet)
  | retypeInvocation (r : Ref) (signature : MethodSignature) :
    IsRewriting (.retypeInvocation r signature)

/-- The signatures of the calls that an edit builds. -/
def signatures : Edit → List MethodSignature
  | .replaceExpression _ snippet => snippet.signatures
  | _ => []

end Edit

namespace NodeData

theorem retypeInvocation_of_kind {x : NodeData} (h : x.kind ≠ .methodInvocation) (method : TypeId) :
    x.retypeInvocation method = x := by
  cases x <;> simp [kind] at h <;> rfl

theorem Slotwise.retypeInvocation {R : Ref → Ref → Prop} {x y : NodeData} (h : Slotwise R x y)
    (method : TypeId) : Slotwise R (x.retypeInvocation method) (y.retypeInvocation method) := by
  by_cases hkind : x.kind = .methodInvocation
  · obtain ⟨c, rfl⟩ := exists_of_kind hkind
    obtain ⟨fs, hfs, rfl⟩ := h
    refine ⟨fs, hfs, ?_⟩
    simp only [childFields, List.forall₂_cons_left_iff, List.forall₂_nil_left_iff,
      ChildField.rel_one_iff, ChildField.rel_many_iff] at hfs
    obtain ⟨_, _, ⟨select, -, rfl⟩,
        ⟨_, _, ⟨name, -, rfl⟩, ⟨_, _, ⟨as, -, rfl⟩, rfl, rfl⟩, rfl⟩, rfl⟩ := hfs
    rfl
  · rwa [retypeInvocation_of_kind hkind, retypeInvocation_of_kind (h.kind ▸ hkind)]

theorem retypeInvocation_retypeInvocation (method method' : TypeId) (x : NodeData) :
    (x.retypeInvocation method).retypeInvocation method' = x.retypeInvocation method' := by
  cases x <;> rfl

end NodeData

namespace Draft

/-- What a replacement does to the payloads and types. -/
theorem applyEdit_replaceExpression_payloads {d d' : Draft} {r : Ref} {snippet : Snippet}
    (hsound : d.types.IndexSound) (h : d.applyEdit (.replaceExpression r snippet) = .ok d') :
    d.types.Grows d'.types ∧ d.store.size ≤ d'.store.size ∧
      (∀ {n x}, d.store.data? (some n) = some x → ∃ y, d'.store.data? (some n) = some y ∧
        NodeData.Slotwise (ChildField.Changed r (d.materialize snippet).1) x y) ∧
      ∀ {n c}, d.store.size ≤ n → d'.store.data? (some n) = some (.methodInvocation c) →
        ∃ id m, c.type = some id ∧ d'.types.methodAt? id = some m ∧
          ∃ signature ∈ snippet.signatures, d'.types.Spells m signature := by
  have hbuilds := builds_materialize snippet d hsound
  obtain ⟨holder, -, hsplice, htypes⟩ := applyEdit_replacement h
  have hsize := Store.size_replaceChild hsplice
  rw [htypes, hsize]
  refine ⟨hbuilds.types, hbuilds.size_le, ?_, ?_⟩
  · intro n x hx
    exact Store.slotwise_replaceChild hsplice
      ((hbuilds.data?_old (Store.lt_size_of_data? hx)).trans hx)
  · intro n c hn hc
    obtain ⟨x, hx⟩ := Store.exists_data? (hsize ▸ Store.lt_size_of_data? hc)
    obtain ⟨y, hy, hxy⟩ := Store.slotwise_replaceChild hsplice hx
    obtain rfl := Option.some.inj (hy.symm.trans hc)
    obtain ⟨c₀, rfl, htype, -⟩ := hxy.methodInvocation_right
    obtain ⟨id, m, hid, hm⟩ := hbuilds.calls hn hx
    exact ⟨id, m, htype.trans hid, hm⟩

/-- A payload of the file and what has become of it: it has other children, and calls another method
just if an edit says so. -/
inductive Rewrites (done : List Edit) (types : TypeTable) (n : NodeId) (x y : NodeData) : Prop
  | kept : (∀ signature, .retypeInvocation (some n) signature ∉ done) →
    x.Slotwise (fun _ _ => True) y → Rewrites done types n x y
  | retyped {signature : MethodSignature} {id : TypeId} {m : MethodType} :
    .retypeInvocation (some n) signature ∈ done → types.methodAt? id = some m →
      types.Spells m signature →
    (x.retypeInvocation id).Slotwise (fun _ _ => True) y → Rewrites done types n x y

/-- What rewriting edits have made of a file. -/
structure Rewritten (f : SourceFile) (done : List Edit) (d : Draft) : Prop where
  types : f.types.Grows d.types
  size_le : f.store.size ≤ d.store.size
  old : ∀ {n x}, f.store.data? (some n) = some x →
    ∃ y, d.store.data? (some n) = some y ∧ Rewrites done d.types n x y
  calls : ∀ {n c}, f.store.size ≤ n → d.store.data? (some n) = some (.methodInvocation c) →
    ∃ id m, c.type = some id ∧ d.types.methodAt? id = some m ∧
      ∃ e ∈ done, ∃ signature ∈ e.signatures, d.types.Spells m signature

namespace Rewritten

variable {f : SourceFile} {done : List Edit} {d d' : Draft}

theorem start (hsound : f.types.IndexSound) :
    Rewritten f [] { store := f.store, types := f.types } where
  types := .refl hsound
  size_le := Nat.le_refl _
  old {_ x} hx := ⟨x, hx, .kept (by simp) (.refl (fun _ => trivial) x)⟩
  calls hn hc := absurd (Store.lt_size_of_data? hc) (Nat.not_lt.2 hn)

/-- One more edit of a node of the file. -/
theorem step (h : Rewritten f done d) {e : Edit} (he : e.IsRewriting)
    (hwithin : ∀ r, e.target? = some r → ∃ n < f.store.size, r = some n)
    (hd : d.applyEdit e = .ok d') : Rewritten f (e :: done) d' := by
  cases he with
  | replaceExpression r snippet =>
    obtain ⟨hgrows, hsize, hold, hnew⟩ := applyEdit_replaceExpression_payloads h.types.sound hd
    refine ⟨h.types.trans hgrows, h.size_le.trans hsize, ?_, ?_⟩
    · intro n x hx
      obtain ⟨y, hy, hxy⟩ := h.old hx
      obtain ⟨z, hz, hyz⟩ := hold hy
      refine ⟨z, hz, ?_⟩
      cases hxy with
      | kept hno hslots =>
        exact .kept (by simpa using hno) (hslots.comp (fun _ _ _ _ _ => trivial) hyz)
      | retyped hmem hm hspells hslots =>
        exact .retyped (List.mem_cons_of_mem _ hmem) (hgrows.methodAt? hm) (hspells.grows hgrows)
          (hslots.comp (fun _ _ _ _ _ => trivial) hyz)
    · intro n c hn hc
      by_cases hlt : n < d.store.size
      · obtain ⟨x, hx⟩ := Store.exists_data? hlt
        obtain ⟨y, hy, hxy⟩ := hold hx
        obtain rfl := Option.some.inj (hy.symm.trans hc)
        obtain ⟨c₀, rfl, htype, -⟩ := hxy.methodInvocation_right
        obtain ⟨id, m, hid, hm, a, ha, signature, hs, hspells⟩ := h.calls hn hx
        exact ⟨id, m, htype.trans hid, hgrows.methodAt? hm, a, List.mem_cons_of_mem _ ha,
          signature, hs,
          hspells.grows hgrows⟩
      · obtain ⟨id, m, hid, hm, signature, hs, hspells⟩ := hnew (Nat.not_lt.1 hlt) hc
        exact ⟨id, m, hid, hm, _, List.mem_cons_self, signature, hs, hspells⟩
  | retypeInvocation r signature =>
    obtain ⟨k, hk, rfl⟩ := hwithin r rfl
    obtain ⟨hgrows, m, hm, hspells⟩ := TypeTable.internSignature_spec h.types.sound signature
    obtain rfl := Except.ok.inj hd
    have hdata := d.store.data?_updateData (some k)
    refine ⟨h.types.trans hgrows, h.size_le.trans_eq (d.store.size_updateData _ _).symm, ?_, ?_⟩
    · intro n x hx
      obtain ⟨y, hy, hxy⟩ := h.old hx
      by_cases hn : n = k
      · subst hn
        refine ⟨_, (hdata _ _).trans ((if_pos rfl).trans (congrArg _ hy)), ?_⟩
        refine .retyped List.mem_cons_self hm hspells ?_
        cases hxy with
        | kept _ hslots => exact hslots.retypeInvocation _
        | retyped _ _ _ hslots =>
          rw [← NodeData.retypeInvocation_retypeInvocation]
          exact hslots.retypeInvocation _
      · refine ⟨y, (hdata _ _).trans ((if_neg (by simpa using hn)).trans hy), ?_⟩
        cases hxy with
        | kept hno hslots => exact .kept (by simpa [hn] using hno) hslots
        | retyped hmem hm' hspells' hslots =>
          exact .retyped (List.mem_cons_of_mem _ hmem) (hgrows.methodAt? hm')
            (hspells'.grows hgrows) hslots
    · intro n c hn hc
      have hne : (some n : Ref) ≠ some k := by simpa using (hk.trans_le hn).ne'
      have hc : d.store.data? (some n) = some (.methodInvocation c) :=
        (if_neg hne).symm.trans ((hdata _ _).symm.trans hc)
      obtain ⟨id, m', hid, hm', a, ha, signature', hs, hspells'⟩ := h.calls hn hc
      exact ⟨id, m', hid, hgrows.methodAt? hm', a, List.mem_cons_of_mem _ ha, signature', hs,
        hspells'.grows hgrows⟩

/-- A run of edits. -/
theorem run (hsound : f.types.IndexSound) {es : List Edit} (hes : ∀ e ∈ es, e.IsRewriting)
    (hwithin : Edit.Within es f.store.size)
    (hd : Draft.applyEdits { store := f.store, types := f.types } es = .ok d) :
    Rewritten f es.reverse d :=
  applyEdits_induction (P := Rewritten f) hd (start hsound) fun {_ e _ _ _} hsplit h he =>
    h.step (hes e (by simp [hsplit])) (fun r hr => hwithin e (by simp [hsplit]) r hr) he

end Rewritten

end Draft

end JavaRecipes
