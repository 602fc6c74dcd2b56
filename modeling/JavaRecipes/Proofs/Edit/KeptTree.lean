import JavaRecipes.Proofs.Edit.Grafts
import JavaRecipes.Proofs.Edit.Sequence
import JavaRecipes.Proofs.Tree.Graft

/-!
Edits that keep a tree tidy. An edit replaces a node by new ones over that node or over children of
it; made one after another, such edits stay out of each other's way if none uses what an earlier one
has replaced. Then each finds its node where it was, or out of reach together with all it uses.
-/

namespace JavaRecipes

namespace Edit

/-- The node that an edit replaces. -/
def replaced? : Edit → Option Ref
  | .replaceExpression r _ => some r
  | _ => none

/-- The nodes of the file that a replacement uses. -/
def used : Edit → List Ref
  | .replaceExpression _ snippet => snippet.existingNodes
  | _ => []

/-- A replacement is of a node in reach, by new ones over it or its children. Other edits leave the
tree. -/
def Grafts (f : SourceFile) : Edit → Prop
  | .replaceExpression r snippet => ∃ n, r = some n ∧ f.Reaches n ∧ (∀ r', snippet ≠ .existing r') ∧
      Snippet.Usable f.store.size snippet.existingNodes ∧ f.store.UsesOwn snippet.existingNodes n
  | _ => True

/-- The later edit neither replaces nor uses what the earlier one replaces. -/
def Apart (a b : Edit) : Prop := ∀ r, a.replaced? = some r → b.replaced? ≠ some r ∧ r ∉ b.used

theorem apart_of_split {es done rest : List Edit} {e : Edit} (h : es.Pairwise Apart)
    (hsplit : es = done.reverse ++ e :: rest) : ∀ a ∈ done, a.Apart e := by
  subst hsplit
  exact fun a ha => (List.pairwise_append.1 h).2.2 a (List.mem_reverse.2 ha) e List.mem_cons_self

/-- No edit replaces the node. -/
def Spare (es : List Edit) (n : NodeId) : Prop := ∀ e ∈ es, e.replaced? ≠ some (some n)

theorem spare_cons {e : Edit} {es : List Edit} {n : NodeId} :
    Spare (e :: es) n ↔ e.replaced? ≠ some (some n) ∧ Spare es n :=
  List.forall_mem_cons

theorem spare_cons_iff_ne {e : Edit} {es : List Edit} {m n : NodeId}
    (he : e.replaced? = some (some m)) :
    Spare (e :: es) n ↔ n ≠ m ∧ Spare es n := by
  rw [spare_cons, he, Ne, Option.some.injEq, Option.some.injEq, eq_comm]

end Edit

namespace NodeData

theorem childFields_setLiteral (value : LiteralValue) (x : NodeData) :
    (x.setLiteral value).childFields = x.childFields := by
  cases x <;> rfl

theorem childFields_renameIdentifier (name : String) (x : NodeData) :
    (x.renameIdentifier name).childFields = x.childFields := by
  cases x <;> rfl

theorem childFields_removeModifier (kind : ModifierKind) (x : NodeData) :
    (x.removeModifier kind).childFields = x.childFields := by
  cases x <;> rfl

theorem childFields_retypeInvocation (method : TypeId) (x : NodeData) :
    (x.retypeInvocation method).childFields = x.childFields := by
  cases x <;> rfl

end NodeData

namespace Store

theorem children_updateData (s : Store) (r : Ref) {change : NodeData → NodeData}
    (h : ∀ x, (change x).childFields = x.childFields) (r' : Ref) :
    (s.updateData r change).children r' = s.children r' := by
  unfold children
  rw [data?_updateData]
  split
  · rw [Option.map_map]
    congr 2
    funext x
    simp [NodeData.children, h]
  · rfl

end Store

namespace Draft

/-- An edit that replaces no node changes one payload outside its slots, or none. -/
theorem applyEdit_store {d d' : Draft} {e : Edit} (he : e.replaced? = none)
    (h : d.applyEdit e = .ok d') :
    d'.store = d.store ∨
      ∃ r change, d'.store = d.store.updateData r change ∧
        ∀ x, (change x).childFields = x.childFields := by
  cases e with
  | setLiteral r value =>
    obtain rfl := Except.ok.inj h
    exact .inr ⟨r, _, rfl, NodeData.childFields_setLiteral value⟩
  | replaceExpression r snippet => cases he
  | renameIdentifier r name =>
    obtain rfl := Except.ok.inj h
    exact .inr ⟨r, _, rfl, NodeData.childFields_renameIdentifier name⟩
  | removeModifier r kind =>
    obtain rfl := Except.ok.inj h
    exact .inr ⟨r, _, rfl, NodeData.childFields_removeModifier kind⟩
  | renameClassType source target =>
    obtain rfl := Except.ok.inj h
    exact .inl rfl
  | renameMethodType id name =>
    simp only [applyEdit] at h
    split at h
    · cases h
    · obtain rfl := Except.ok.inj h
      exact .inl rfl
  | retypeInvocation r signature =>
    obtain rfl := Except.ok.inj h
    exact .inr ⟨r, _, rfl, NodeData.childFields_retypeInvocation _⟩

theorem applyEdit_slots {d d' : Draft} {e : Edit} (he : e.replaced? = none)
    (h : d.applyEdit e = .ok d') :
    d'.store.size = d.store.size ∧ (∀ r, d'.store.children r = d.store.children r) ∧
      ∀ r, d'.store.parent r = d.store.parent r := by
  rcases applyEdit_store he h with hs | ⟨r, change, hs, hchange⟩
  · rw [hs]
    exact ⟨rfl, fun _ => rfl, fun _ => rfl⟩
  · rw [hs]
    exact ⟨d.store.size_updateData r change, d.store.children_updateData r hchange,
      fun r' => d.store.parent_updateData r r' change⟩

/-- A replacement is built and put in the place of the node. -/
theorem applyEdit_replacement {d d' : Draft} {r : Ref} {snippet : Snippet}
    (h : d.applyEdit (.replaceExpression r snippet) = .ok d') :
    ∃ holder, d.store.parent r = some holder ∧
      (d.materialize snippet).2.store.replaceChild (some holder) r (d.materialize snippet).1 =
        some d'.store ∧
      d'.types = (d.materialize snippet).2.types := by
  simp only [applyEdit] at h
  split at h
  · cases h
  · rename_i holder hholder
    split at h
    · cases h
    · rename_i store hstore
      obtain rfl := Except.ok.inj h
      exact ⟨holder, hholder, hstore, rfl⟩

/-- What is built anew is a new node. -/
theorem exists_fst_materialize (d : Draft) {snippet : Snippet} (hnew : ∀ r, snippet ≠ .existing r)
    (hu : Snippet.Usable d.store.size snippet.existingNodes) :
    ∃ n, (d.materialize snippet).1 = some n ∧ d.store.size ≤ n := by
  cases snippet with
  | existing r => exact absurd rfl (hnew r)
  | stringLiteral value => exact ⟨_, rfl, Nat.le_refl _⟩
  | typeName name => exact ⟨_, rfl, Nat.le_refl _⟩
  | staticField target owner name fieldType =>
    simp only [materialize, fst_add, store_add, store_variableType, store_typeNamed?,
      store_classType, Store.size_add]
    exact ⟨_, rfl, (grows_materialize target d hu).size_le.trans (Nat.le_succ _)⟩
  | invocation select signature arguments =>
    have hselect := buildClosed_grows.materializeOption select d hu.left
    have harguments := buildClosed_grows.materializeList arguments (d.materializeOption select).2
      (hu.right.mono hselect.size_le)
    simp only [materialize, identifier, fst_add, store_add, Store.size_add]
    exact ⟨_, rfl, (hselect.size_le.trans harguments.size_le).trans (Nat.le_succ _)⟩

theorem exists_grafted {d d' : Draft} {n : NodeId} {snippet : Snippet}
    (hnew : ∀ r, snippet ≠ .existing r) (hu : Snippet.Usable d.store.size snippet.existingNodes)
    (h : d.applyEdit (.replaceExpression (some n) snippet) = .ok d') :
    ∃ holder new, (d.materialize snippet).1 = some new ∧
      d.store.Grafted (d.materialize snippet).2.store d'.store snippet.existingNodes
        holder n new := by
  obtain ⟨holder, hholder, hsplice, -⟩ := applyEdit_replacement h
  obtain ⟨new, hfst, hle⟩ := d.exists_fst_materialize hnew hu
  have hgrows := grows_materialize snippet d hu
  rw [hfst] at hsplice hgrows
  exact ⟨holder, new, hfst, hgrows, hle, hholder, hsplice⟩

theorem size_le_applyEdit {f : SourceFile} {d d' : Draft}
    (hsize : f.store.size ≤ d.store.size) {e : Edit} (he : e.Grafts f)
    (hd : d.applyEdit e = .ok d') : d.store.size ≤ d'.store.size := by
  cases hr : e.replaced? with
  | none => exact (applyEdit_slots hr hd).1.ge
  | some r =>
    cases e with
    | replaceExpression r' snippet =>
      obtain ⟨n, rfl, -, hnew, hu, -⟩ := he
      obtain ⟨holder, new, -, hgraft⟩ := exists_grafted hnew (hu.mono hsize) hd
      exact hgraft.size_le
    | _ => cases hr

/-! ## What comes into reach -/

/-- The draft has at most new nodes in reach that the file has not. -/
structure Confined (f : SourceFile) (d : Draft) : Prop where
  size_le : f.store.size ≤ d.store.size
  holds : ∀ {n m}, (n < f.store.size → f.Reaches n) → d.store.Holds n m →
    m < f.store.size → f.Reaches m

namespace Confined

variable {f : SourceFile} {d d' : Draft}

theorem start (f : SourceFile) : Confined f { store := f.store, types := f.types } :=
  ⟨Nat.le_refl _, fun hn hh hm => .step (hn (Store.holds_lt_size hh)) hh hm⟩

theorem step (h : Confined f d) {e : Edit} (he : e.Grafts f) (hd : d.applyEdit e = .ok d') :
    Confined f d' := by
  cases hr : e.replaced? with
  | none =>
    obtain ⟨hsize, hchildren, -⟩ := applyEdit_slots hr hd
    refine ⟨hsize ▸ h.size_le, fun hn hh => ?_⟩
    rw [Store.Holds, hchildren] at hh
    exact h.holds hn hh
  | some r =>
    cases e with
    | replaceExpression r' snippet =>
      obtain ⟨k, rfl, hk, hnew, hu, hused⟩ := he
      obtain ⟨holder, new, -, hgraft⟩ := exists_grafted hnew (hu.mono h.size_le) hd
      refine ⟨h.size_le.trans hgraft.size_le, fun {n m} hn hh hm => ?_⟩
      rcases hgraft.holds_cases hh with ⟨-, rfl⟩ | ⟨hle, hh'⟩ | ⟨-, hh'⟩
      · exact absurd (hm.trans_le h.size_le) (Nat.not_lt.2 hgraft.fresh)
      · have hmem := (hgraft.grows.holds_new hle hh').2 (hm.trans_le h.size_le)
        rcases hused with hown | hchild
        · exact hown m hmem ▸ hk
        · exact .step hk (hchild m hmem) hm
      · exact h.holds hn hh' hm
    | _ => cases hr

theorem run {es : List Edit} (hes : ∀ e ∈ es, e.Grafts f)
    (hd : Draft.applyEdits { store := f.store, types := f.types } es = .ok d) : Confined f d :=
  applyEdits_induction (P := fun _ => Confined f) hd (start f)
    fun {_ e _ _ _} hsplit h he => h.step (hes e (by simp [hsplit])) he

theorem reaches (h : Confined f d) {n : NodeId} (hn : d.store.Reaches f.root n)
    (hlt : n < f.store.size) :
    f.Reaches n := by
  induction hn with
  | start hroot _ => exact .start hroot hlt
  | step _ hh _ ih => exact h.holds ih hh hlt

end Confined

/-! ## What stays in place -/

/-- Where a draft stands after some edits of a file: the tree is tidy, a child that was not replaced
is held as it was, and links to its holder if that was not replaced either. Of the nodes of the file
those in reach were in reach before, and none of them was replaced, except one that its replacement
uses. -/
structure Tracks (f : SourceFile) (aside : Set NodeId) (done : List Edit) (d : Draft) : Prop where
  tidy : d.store.Tidy f.root aside
  size_le : f.store.size ≤ d.store.size
  holds : ∀ {n m}, f.Reaches n → f.store.Holds n m → Edit.Spare done m → d.store.Holds n m
  parent : ∀ {n m}, f.Reaches n → f.store.Holds n m → Edit.Spare done n → Edit.Spare done m →
    d.store.parent (some m) = some n
  reaches : ∀ {n}, d.store.Reaches f.root n → n < f.store.size →
    f.Reaches n ∧ ∀ e ∈ done, e.replaced? = some (some n) → some n ∈ e.used

namespace Tracks

variable {f : SourceFile} {aside : Set NodeId} {done : List Edit} {d d' : Draft}

theorem start (hf : f.Linked) (htidy : f.store.Tidy f.root aside) :
    Tracks f aside [] { store := f.store, types := f.types } :=
  ⟨htidy, Nat.le_refl _, fun _ hh _ => hh, fun hn hh _ _ => hf.link hn hh,
    fun hn _ => ⟨hn, by simp⟩⟩

/-- A child in reach of a node that is to be replaced shows that the node is in reach. -/
theorem reaches_of_child (h : Tracks f aside done d) {n m : NodeId} (hn : f.Reaches n)
    (hh : f.store.Holds n m) (hspare : Edit.Spare done n) (hspare' : Edit.Spare done m)
    (hm : d.store.Reaches f.root m) : d.store.Reaches f.root n :=
  (h.tidy.holds_of_parent hm (h.parent hn hh hspare hspare')).1

section

variable {n : NodeId} {used : List Ref} {t : Store} {holder new : NodeId}

theorem usesOwn (h : Tracks f aside done d) (hn : f.Reaches n) (hused : f.store.UsesOwn used n)
    (hspare : ∀ m, some m ∈ used → Edit.Spare done m) : d.store.UsesOwn used n :=
  hused.imp id fun hchild m hm => h.holds hn (hchild m hm) (hspare m hm)

/-- With a node all that its replacement uses is out of reach. -/
theorem not_reaches_used (h : Tracks f aside done d) (hn : f.Reaches n)
    (hused : f.store.UsesOwn used n) (hspare : Edit.Spare done n)
    (hspare' : ∀ m, some m ∈ used → Edit.Spare done m) (hreach : ¬ d.store.Reaches f.root n)
    {m : NodeId} (hm : some m ∈ used) : ¬ d.store.Reaches f.root m := by
  intro hmr
  rcases hused with hown | hchild
  · exact hreach (hown m hm ▸ hmr)
  · exact hreach (h.reaches_of_child hn (hchild m hm) hspare (hspare' m hm) hmr)

/-- A graft keeps the tree tidy, in reach and out of reach. -/
theorem tidy_graft (h : Tracks f aside done d) (hn : f.Reaches n) (hused : f.store.UsesOwn used n)
    (hspare : Edit.Spare done n) (hspare' : ∀ m, some m ∈ used → Edit.Spare done m)
    (hgraft : d.store.Grafted t d'.store used holder n new) : d'.store.Tidy f.root aside := by
  by_cases hreach : d.store.Reaches f.root n
  · exact h.tidy.graft hreach (h.usesOwn hn hused hspare') hgraft
  · obtain ⟨r, hr, hroot⟩ := hn.exists_root
    exact h.tidy.graft_unreached hr (hroot.lt_size.trans_le h.size_le) hreach
      (fun m => h.not_reaches_used hn hused hspare hspare' hreach) hgraft

/-- A node that was there is in reach only if it was so before, and if it is not the replaced
one. -/
theorem reaches_graft (h : Tracks f aside done d) (hn : f.Reaches n)
    (hused : f.store.UsesOwn used n) (hspare' : ∀ m, some m ∈ used → Edit.Spare done m)
    (hgraft : d.store.Grafted t d'.store used holder n new) {k : NodeId}
    (hk : d'.store.Reaches f.root k) (hlt : k < d.store.size) : d.store.Stays f.root used n k := by
  by_cases hreach : d.store.Reaches f.root n
  · exact (h.tidy.reaches_graft hreach (h.usesOwn hn hused hspare') hgraft hk).resolve_left
      (Nat.not_le.2 hlt)
  · obtain ⟨r, hr, hroot⟩ := hn.exists_root
    have hkd :=
      h.tidy.reaches_graft_unreached hr (hroot.lt_size.trans_le h.size_le) hreach hgraft hk
    exact ⟨hkd, fun hkn => absurd (hkn ▸ hkd) hreach⟩

end

/-- One more edit. -/
theorem step (h : Tracks f aside done d) (hf : f.Linked) {e : Edit} (he : e.Grafts f)
    (hapart : ∀ a ∈ done, a.Apart e) (hd : d.applyEdit e = .ok d') :
    Tracks f aside (e :: done) d' := by
  cases hr : e.replaced? with
  | none =>
    obtain ⟨hsize, hchildren, hparent⟩ := applyEdit_slots hr hd
    refine ⟨h.tidy.congr hsize hchildren hparent, hsize ▸ h.size_le, fun hn hh hspare => ?_,
      fun hn hh hspare hspare' => ?_, fun hn hlt => ?_⟩
    · rw [Store.Holds, hchildren]
      exact h.holds hn hh (Edit.spare_cons.1 hspare).2
    · rw [hparent]
      exact h.parent hn hh (Edit.spare_cons.1 hspare).2 (Edit.spare_cons.1 hspare').2
    · obtain ⟨hnf, hgone⟩ := h.reaches (hn.congr hsize hchildren) hlt
      exact ⟨hnf, List.forall_mem_cons.2 ⟨by simp [hr], hgone⟩⟩
  | some r =>
    cases e with
    | replaceExpression r' snippet =>
      obtain ⟨n, rfl, hn, hnew, hu, hused⟩ := he
      have hspare : Edit.Spare done n := fun a ha har => (hapart a ha _ har).1 rfl
      have hspare' : ∀ m, some m ∈ snippet.existingNodes → Edit.Spare done m :=
        fun m hm a ha har => (hapart a ha _ har).2 hm
      obtain ⟨holder, new, -, hgraft⟩ := exists_grafted hnew (hu.mono h.size_le) hd
      refine ⟨h.tidy_graft hn hused hspare hspare' hgraft,
        h.size_le.trans hgraft.size_le, ?_, ?_, ?_⟩
      · intro k m hk hh hm
        obtain ⟨hm, hmd⟩ := Edit.spare_cons.1 hm
        exact hgraft.holds (h.holds hk hh hmd) fun heq => hm (heq ▸ rfl)
      · intro k m hk hh hkd hmd
        obtain ⟨hkn, hkd⟩ := Edit.spare_cons.1 hkd
        obtain ⟨hmn, hmd⟩ := Edit.spare_cons.1 hmd
        have hmne : m ≠ n := fun heq => hmn (heq ▸ rfl)
        -- The replacement uses only what the replaced node held.
        have hmused : some m ∉ snippet.existingNodes := by
          intro hmem
          rcases hused with hown | hchild
          · exact hmne (hown m hmem)
          · exact hkn (hf.holder_eq hn hk (hchild m hmem) hh ▸ rfl)
        rw [hgraft.parent_old ((hf.lt_size hk hh).trans_le h.size_le) hmne hmused]
        exact h.parent hk hh hkd hmd
      · intro k hk hlt
        obtain ⟨hkd, hkn⟩ := h.reaches_graft hn hused hspare' hgraft hk (hlt.trans_le h.size_le)
        obtain ⟨hkf, hgone⟩ := h.reaches hkd hlt
        refine ⟨hkf, List.forall_mem_cons.2 ⟨fun hrep => ?_, hgone⟩⟩
        obtain rfl : n = k := by simpa [Edit.replaced?] using hrep
        exact hkn rfl
    | _ => cases hr

/-- A run of edits. -/
theorem run (hf : f.Linked) (htidy : f.store.Tidy f.root aside) {es : List Edit}
    (hes : ∀ e ∈ es, e.Grafts f) (hapart : es.Pairwise Edit.Apart)
    (hd : Draft.applyEdits { store := f.store, types := f.types } es = .ok d) :
    Tracks f aside es.reverse d :=
  applyEdits_induction (P := Tracks f aside) hd (start hf htidy)
    fun {_ e _ _ _} hsplit h he =>
      h.step hf (hes e (by simp [hsplit])) (Edit.apart_of_split hapart hsplit) he

end Tracks

end Draft

/-- An edit set that keeps trees tidy. -/
structure EditSet.Grafts (s : EditSet) (f : SourceFile) : Prop where
  each : ∀ e ∈ s.edits, e.Grafts f
  apart : s.edits.Pairwise Edit.Apart

/-- Applying such a set keeps a tree tidy. -/
theorem EditSet.Grafts.tidy {s : EditSet} {f g : SourceFile} {aside : Set NodeId} (h : s.Grafts f)
    (hf : f.Linked) (htidy : f.store.Tidy f.root aside) (hg : s.apply f = .ok g) :
    g.root = f.root ∧ g.store.Tidy g.root aside ∧ ∀ n, g.Reaches n → n < f.store.size →
      f.Reaches n ∧ ∀ e ∈ s.edits, e.replaced? = some (some n) → some n ∈ e.used := by
  obtain ⟨-, d, hd, rfl⟩ := apply_eq_ok hg
  have htracks := Draft.Tracks.run hf htidy h.each h.apart hd
  refine ⟨rfl, htracks.tidy, fun n hn hlt => ?_⟩
  obtain ⟨hnf, hgone⟩ := htracks.reaches hn hlt
  exact ⟨hnf, fun e he => hgone e (by simpa using he)⟩

/-- Two replacements of one checked set replace different nodes. -/
theorem EditSet.pairwise_replaced {s : EditSet} {f : SourceFile} (hnodup : s.edits.Nodup)
    (hfault : s.fault? f = none) :
    s.edits.Pairwise fun a b => ∀ r, a.replaced? = some r → b.replaced? ≠ some r := by
  have hharm := (fault?_eq_none hfault).2
  have htarget : ∀ {e : Edit} {r : Ref}, e.replaced? = some r →
      e.target? = some r ∧ ∀ r k, e ≠ .removeModifier r k := by
    intro e r he
    cases e with
    | replaceExpression r' snippet => exact ⟨he, by simp⟩
    | _ => cases he
  refine hnodup.imp_of_mem fun {a b} ha hb hab r har hbr => hab ?_
  exact (hharm a ha b hb r (htarget har).1 (htarget hbr).1).eq (htarget har).2

end JavaRecipes
