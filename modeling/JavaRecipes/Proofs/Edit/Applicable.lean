import JavaRecipes.Proofs.Edit.KeptTree
import JavaRecipes.Proofs.Types.Index

/-!
When an edit set applies. The check does not depend on the order of the edits
(`fault?_eq_none_iff`): each has to fit the file by itself, and those of one node have to agree. In
a file whose links all name holders, a set that passes the check is also carried out
(`apply_ok_iff`): no edit takes a link away but that of the node that it replaces, and no other edit
replaces that node.
-/

namespace JavaRecipes

/-! ## The check -/

namespace Edit

theorem Agrees.compatible {a b : Edit} (h : a.Agrees b) (hne : a ≠ b) {r : Ref}
    (ha : a.target? = some r) (hb : b.target? = some r) : Edit.compatible a b = true := by
  rcases h with heq | ⟨ra, rb, k, k', rfl, rfl⟩
  · exact absurd heq hne
  · obtain rfl := Option.some.inj ha
    obtain rfl := Option.some.inj hb
    simpa [Edit.compatible] using hne

end Edit

namespace EditSet

private theorem conflict?_eq_none {e : Edit} {earlier : List Edit} (hnew : e ∉ earlier)
    (h : Harmonious (e :: earlier)) : e.conflict? earlier = none := by
  unfold Edit.conflict?
  cases htarget : e.target? with
  | none => rfl
  | some r =>
    cases hfind : earlier.find? fun a => a.target? = some r with
    | none => simp [hfind]
    | some a =>
      have ha : a ∈ earlier := List.mem_of_find?_eq_some hfind
      have har : a.target? = some r := by simpa using List.find?_some hfind
      have hagrees := h a (List.mem_cons_of_mem _ ha) e List.mem_cons_self r har htarget
      have hne : a ≠ e := fun hae => hnew (hae ▸ ha)
      simp [hfind, hagrees.compatible hne har htarget]

private theorem faultAfter?_eq_none_of {file : SourceFile} {earlier es : List Edit}
    (hnodup : (es.reverse ++ earlier).Nodup) (hfault : ∀ e ∈ es, e.fault? file = none)
    (hharm : Harmonious (es.reverse ++ earlier)) : faultAfter? file earlier es = none := by
  induction es generalizing earlier with
  | nil => rfl
  | cons e es ih =>
    have hsplit : (e :: es).reverse ++ earlier = es.reverse ++ e :: earlier := by simp
    rw [hsplit] at hnodup hharm
    have hnew : e ∉ earlier := (List.nodup_cons.1 (List.nodup_append.1 hnodup).2.1).1
    have hconflict := conflict?_eq_none hnew fun a ha b hb =>
      hharm a (List.mem_append_right _ ha) b (List.mem_append_right _ hb)
    simp only [faultAfter?, hfault e List.mem_cons_self, hconflict]
    exact ih hnodup (fun a ha => hfault a (List.mem_cons_of_mem _ ha)) hharm

/-- A set without repetitions passes the check when each edit does, and edits of one node agree. -/
theorem fault?_eq_none_iff {s : EditSet} (hnodup : s.edits.Nodup) (file : SourceFile) :
    s.fault? file = none ↔ (∀ e ∈ s.edits, e.fault? file = none) ∧ Harmonious s.edits := by
  refine ⟨fault?_eq_none, fun ⟨hfault, hharm⟩ => faultAfter?_eq_none_of ?_ hfault ?_⟩
  · simpa using hnodup
  · exact fun a ha b hb => hharm a (by simpa using ha) b (by simpa using hb)

theorem Harmonious.subset {es es' : List Edit} (h : Harmonious es) (hsub : es' ⊆ es) :
    Harmonious es' :=
  fun a ha b hb => h a (hsub ha) b (hsub hb)

end EditSet

/-! ## Links -/

namespace Store

/-- Every link names a node that holds the child. -/
def LinksHold (s : Store) : Prop := ∀ n p, s.parent (some n) = some p → s.Holds p n

/-- `t` comes from `s`, and no node has lost its link. -/
structure Tied (s t : Store) : Prop where
  size_le : s.size ≤ t.size
  links : s.LinksHold → t.LinksHold
  linked : ∀ {n}, (s.parent (some n)).isSome → (t.parent (some n)).isSome

namespace Tied

theorem refl (s : Store) : s.Tied s := ⟨Nat.le_refl _, id, id⟩

theorem trans {s t u : Store} (h : s.Tied t) (h' : t.Tied u) : s.Tied u :=
  ⟨h.size_le.trans h'.size_le, fun hs => h'.links (h.links hs), fun hn => h'.linked (h.linked hn)⟩

theorem add (s : Store) (data : NodeData) : s.Tied (s.add data).2 where
  size_le := by
    rw [size_add]
    exact Nat.le_succ _
  links hs := by
    intro n p hp
    have hn : n < s.size := by
      have hlt := lt_size_of_parent hp
      rw [size_add] at hlt
      have hne : n ≠ s.size := by
        rintro rfl
        rw [parent_add_size] at hp
        cases hp
      exact Nat.lt_of_le_of_ne (Nat.lt_succ_iff.1 hlt) hne
    rw [parent_add s data hn] at hp
    split at hp
    · rename_i hmem
      obtain rfl := Option.some.inj hp
      exact holds_add.2 (.inl ⟨rfl, hmem⟩)
    · have hheld := hs n p hp
      exact holds_add.2 (.inr ⟨Nat.ne_of_lt (holds_lt_size hheld), hheld⟩)
  linked := by
    intro n hn
    obtain ⟨p, hp⟩ := Option.isSome_iff_exists.1 hn
    rw [parent_add s data (lt_size_of_parent hp)]
    split
    · rfl
    · exact hn

theorem updateData (s : Store) (r : Ref) {change : NodeData → NodeData}
    (h : ∀ x, (change x).childFields = x.childFields) : s.Tied (s.updateData r change) where
  size_le := by simp
  links hs := by
    intro n p hp
    rw [parent_updateData] at hp
    rw [Holds, children_updateData s r h]
    exact hs n p hp
  linked hn := by simpa using hn

end Tied

end Store

/-! ## Replacing a child -/

namespace Store

/-- A child that is held can be replaced. -/
theorem replaceChild_isSome {s : Store} {p old : NodeId} {new : Ref} (h : s.Holds p old)
    (hnew : (s.get? new).isSome) : ∃ u, s.replaceChild (some p) (some old) new = some u :=
  Option.isSome_iff_exists.1 (isSome_replaceChild_iff.2 ⟨hnew, .inl h⟩)

section

variable {s u : Store} {p old new : NodeId}

/-- The old child keeps only a link to another holder. -/
private theorem parent_of_parent_replaceChild
    (h : s.replaceChild (some p) (some old) (some new) = some u) {q : NodeId}
    (hq : u.parent (some old) = some q) : q ≠ p ∧ s.parent (some old) = some q := by
  rw [parent_replaceChild_eq h] at hq
  by_cases hcut : some old = some new ∨ s.parent (some old) = some p
  · rw [if_pos ⟨rfl, hcut⟩] at hq
    cases hq
  · obtain ⟨hne, hparent⟩ := not_or.1 hcut
    rw [if_neg fun hr => hcut hr.2, if_neg hne] at hq
    refine ⟨?_, hq⟩
    rintro rfl
    exact hparent hq

/-- Links still name holders after a splice. -/
theorem LinksHold.replaceChild (hs : s.LinksHold)
    (h : s.replaceChild (some p) (some old) (some new) = some u) : u.LinksHold := by
  intro n q hq
  obtain ⟨⟨before, after, -, hu⟩, hother⟩ := children_replaceChild h
  by_cases hold : n = old
  · subst hold
    obtain ⟨hne, hparent⟩ := parent_of_parent_replaceChild h hq
    have hqp : (some q : Ref) ≠ some p := by simpa using hne
    rw [Holds, hother _ hqp]
    exact hs n q hparent
  · by_cases hnew : n = new
    · subst hnew
      rw [parent_replaceChild_new h hold] at hq
      obtain rfl := Option.some.inj hq
      simp [Holds, hu]
    · rw [parent_replaceChild h (by simpa using hold) (by simpa using hnew)] at hq
      exact holds_replaceChild h (hs n q hq) hold

/-- And only the replaced node can have lost its link. -/
theorem linked_replaceChild (h : s.replaceChild (some p) (some old) (some new) = some u)
    {n : NodeId} (hn : n ≠ old) (hlinked : (s.parent (some n)).isSome) :
    (u.parent (some n)).isSome := by
  by_cases hnew : n = new
  · subst hnew
    rw [parent_replaceChild_new h hn]
    rfl
  · rwa [parent_replaceChild h (by simpa using hn) (by simpa using hnew)]

end

end Store

/-! ## Entries -/

namespace TypeTable

/-- `t'` has the methods of `t`, at their places. -/
def KeepsMethods (t t' : TypeTable) : Prop :=
  ∀ id m, t.methodAt? id = some m → t'.methodAt? id = some m

namespace KeepsMethods

theorem refl (t : TypeTable) : t.KeepsMethods t := fun _ _ h => h

theorem trans {t u v : TypeTable} (h : t.KeepsMethods u) (h' : u.KeepsMethods v) :
    t.KeepsMethods v :=
  fun id m hm => h' id m (h id m hm)

theorem of_get? {t t' : TypeTable} (h : ∀ {id}, id < t.size → t'.get? id = t.get? id) :
    t.KeepsMethods t' := by
  intro id m hm
  obtain ⟨e, he, -⟩ := Option.bind_eq_some_iff.1 hm
  rw [methodAt?, h (Array.getElem?_eq_some_iff.1 he).1]
  exact hm

theorem push (t : TypeTable) (e : TypeEntry) : t.KeepsMethods (t.push e) :=
  of_get? fun hid => by rw [get?_push, if_neg (Nat.ne_of_lt hid)]

theorem internClass (t : TypeTable) (name : String) (owner : Option TypeId) :
    t.KeepsMethods (t.internClass name owner).2 :=
  of_get? fun hid => get?_internClass t name owner hid

theorem internEntry (t : TypeTable) (e : TypeEntry) : t.KeepsMethods (t.internEntry e).2 :=
  of_get? fun hid => get?_internEntry t e hid

theorem internName (t : TypeTable) (name : String) : t.KeepsMethods (t.internName name).2 := by
  unfold TypeTable.internName
  split
  · exact internEntry t _
  · exact internClass t name none

theorem internNames (t : TypeTable) (names : List String) :
    t.KeepsMethods (t.internNames names).2 := by
  induction names generalizing t with
  | nil => exact refl t
  | cons name names ih => exact (internName t name).trans (ih _)

theorem internSignature (t : TypeTable) (signature : MethodSignature) :
    t.KeepsMethods (t.internSignature signature).2 := by
  obtain ⟨declaring, name, returns, params⟩ := signature
  have hclass := internClass t declaring none
  cases returns with
  | none => exact (hclass.trans (internNames _ params)).trans (internEntry _ _)
  | some result =>
    exact ((hclass.trans (internName _ result)).trans (internNames _ params)).trans
      (internEntry _ _)

end KeepsMethods

end TypeTable

/-! ## Snippets -/

namespace Draft

/-- `d'` is `d` with more in it. -/
structure Extends (d d' : Draft) : Prop where
  tied : d.store.Tied d'.store
  data?_old : ∀ {n}, n < d.store.size → d'.store.data? (some n) = d.store.data? (some n)
  methods : d.types.KeepsMethods d'.types

namespace Extends

theorem refl (d : Draft) : d.Extends d := ⟨.refl _, fun _ => rfl, .refl _⟩

theorem trans {d d' d'' : Draft} (h : d.Extends d') (h' : d'.Extends d'') : d.Extends d'' where
  tied := h.tied.trans h'.tied
  data?_old hn := by rw [h'.data?_old (hn.trans_le h.tied.size_le), h.data?_old hn]
  methods := h.methods.trans h'.methods

theorem add {d d' : Draft} (h : d.Extends d') (data : NodeData) : d.Extends (d'.add data).2 := by
  refine h.trans ⟨.add _ _, fun {n} hn => ?_, .refl _⟩
  have hne : (some n : Ref) ≠ some d'.store.size := by simpa using Nat.ne_of_lt hn
  rw [store_add, Store.data?_add, if_neg hne]

/-- Only the types change. -/
theorem retype {d d' : Draft} (h : d.Extends d') {types : TypeTable}
    (hmethods : d'.types.KeepsMethods types) : d.Extends { d' with types } :=
  h.trans ⟨.refl _, fun _ => rfl, hmethods⟩

theorem typeNamed? {d d' : Draft} (h : d.Extends d') (name : Option String) :
    d.Extends (d'.typeNamed? name).2 := by
  cases name with
  | none => exact h
  | some name => exact h.retype (.internName _ name)

end Extends

mutual

/-- Building a snippet only adds to a draft. -/
theorem extends_materialize : ∀ (snippet : Snippet) (d : Draft), d.Extends (d.materialize snippet).2
  | .existing _, d => .refl d
  | .stringLiteral _, d => ((Extends.refl d).retype (.internClass _ stringClass none)).add _
  | .typeName name, d => ((Extends.refl d).retype (.internClass _ name none)).add _
  | .staticField target owner _ fieldType, d =>
    (((((extends_materialize target d).retype
      (.internClass _ owner none)).typeNamed? fieldType).retype (.push _ _)).add _).add _
  | .invocation select signature arguments, d =>
    ((((extends_materializeOption select d).trans (extends_materializeList arguments _)).retype
      (.internSignature _ signature)).add _).add _

theorem extends_materializeOption : ∀ (snippet : Option Snippet) (d : Draft),
    d.Extends (d.materializeOption snippet).2
  | none, d => .refl d
  | some snippet, d => extends_materialize snippet d

theorem extends_materializeList : ∀ (snippets : List Snippet) (d : Draft),
    d.Extends (d.materializeList snippets).2
  | [], d => .refl d
  | snippet :: snippets, d =>
    (extends_materialize snippet d).trans (extends_materializeList snippets _)

end

/-- What is built is there, if the nodes that it uses are. -/
theorem exists_materialize {snippet : Snippet} {d : Draft}
    (h : ∀ r ∈ snippet.existingNodes, (d.store.get? r).isSome) :
    ∃ n, (d.materialize snippet).1 = some n ∧
      ((d.materialize snippet).2.store.get? (some n)).isSome := by
  have hadded : ∀ (d : Draft) (data : NodeData),
      ((d.add data).2.store.get? (some (d.add data).1)).isSome := by
    intro d data
    have hdata := Store.data?_add d.store data (some d.store.size)
    rw [if_pos rfl] at hdata
    obtain ⟨node, hnode, -⟩ := Option.map_eq_some_iff.1 hdata
    rw [store_add, fst_add, hnode]
    rfl
  cases snippet with
  | existing r =>
    have hr := h r (by simp [Snippet.existingNodes])
    cases r with
    | none => simp [Store.get?] at hr
    | some n => exact ⟨n, rfl, hr⟩
  | _ => exact ⟨_, rfl, hadded _ _⟩

/-- A node that its parent holds can be replaced. -/
theorem exists_splice {d : Draft} {m p : NodeId} {snippet : Snippet}
    (hp : d.store.parent (some m) = some p) (hheld : d.store.Holds p m)
    (hexisting : ∀ a ∈ snippet.existingNodes, (d.store.get? a).isSome) :
    ∃ k u, (d.materialize snippet).1 = some k ∧
      (d.materialize snippet).2.store.replaceChild (some p) (some m) (some k) = some u ∧
      d.applyEdit (.replaceExpression (some m) snippet) =
        .ok { (d.materialize snippet).2 with store := u } := by
  obtain ⟨k, hk, hget⟩ := exists_materialize hexisting
  have hheld' : (d.materialize snippet).2.store.Holds p m := by
    rwa [Store.Holds,
      Store.children_congr ((extends_materialize snippet d).data?_old (Store.holds_lt_size hheld))]
  obtain ⟨u, hu⟩ := Store.replaceChild_isSome hheld' hget
  exact ⟨k, u, hk, hu, by simp [applyEdit, hp, hk, hu]⟩

/-! ## One edit after another -/

/-- A draft that the edits can be made in: links name holders, what is to be replaced has a link,
what snippets use is there and so are the methods to be renamed, and no node is replaced twice. -/
structure Ready (d : Draft) (es : List Edit) : Prop where
  links : d.store.LinksHold
  linked : ∀ {r snippet}, .replaceExpression r snippet ∈ es → (d.store.parent r).isSome
  existing : ∀ {r snippet}, .replaceExpression r snippet ∈ es →
    ∀ a ∈ snippet.existingNodes, (d.store.get? a).isSome
  methods : ∀ {id name}, .renameMethodType id name ∈ es → (d.types.methodAt? id).isSome
  apart : es.Pairwise fun a b => ∀ r, a.replaced? = some r → b.replaced? ≠ some r

namespace Ready

theorem tail {d : Draft} {e : Edit} {es : List Edit} (h : d.Ready (e :: es)) : d.Ready es where
  links := h.links
  linked hmem := h.linked (List.mem_cons_of_mem _ hmem)
  existing hmem := h.existing (List.mem_cons_of_mem _ hmem)
  methods hmem := h.methods (List.mem_cons_of_mem _ hmem)
  apart := (List.pairwise_cons.1 h.apart).2

/-- Edits that leave all links, nodes and methods leave the draft ready. -/
theorem change {d d' : Draft} {es : List Edit} (h : d.Ready es)
    (hsize : d.store.size ≤ d'.store.size) (hlinks : d'.store.LinksHold)
    (hlinked : ∀ {n snippet}, .replaceExpression (some n) snippet ∈ es →
      (d.store.parent (some n)).isSome → (d'.store.parent (some n)).isSome)
    (hmethods : ∀ id, (d.types.methodAt? id).isSome → (d'.types.methodAt? id).isSome) :
    d'.Ready es where
  links := hlinks
  linked := by
    intro r snippet hmem
    have hr := h.linked hmem
    cases r with
    | none => simp [Store.parent, Store.get?] at hr
    | some n => exact hlinked hmem hr
  existing := by
    intro r snippet hmem a ha
    have hget := h.existing hmem a ha
    cases a with
    | none => simp [Store.get?] at hget
    | some n =>
      have hlt : n < d.store.size := by simpa [Store.get?, Store.size] using hget
      simpa [Store.get?, Store.size] using hlt.trans_le hsize
  methods hmem := hmethods _ (h.methods hmem)
  apart := h.apart

theorem of_tied {d d' : Draft} {es : List Edit} (h : d.Ready es) (htied : d.store.Tied d'.store)
    (hmethods : d.types.KeepsMethods d'.types) : d'.Ready es := by
  refine h.change htied.size_le (htied.links h.links) (fun _ => htied.linked) fun id hid => ?_
  obtain ⟨m, hm⟩ := Option.isSome_iff_exists.1 hid
  rw [hmethods id m hm]
  rfl

/-- The first edit can be made, and leaves the draft ready for the others. -/
theorem step {d : Draft} {e : Edit} {es : List Edit} (h : d.Ready (e :: es)) :
    ∃ d', d.applyEdit e = .ok d' ∧ d'.Ready es := by
  have hupdate : ∀ (r : Ref) {change : NodeData → NodeData},
      (∀ x, (change x).childFields = x.childFields) →
      (d.updateData r change).Ready es :=
    fun r change hchange => h.tail.of_tied (.updateData d.store r hchange) (.refl _)
  cases e with
  | setLiteral r value => exact ⟨_, rfl, hupdate r (NodeData.childFields_setLiteral value)⟩
  | renameIdentifier r name =>
    exact ⟨_, rfl, hupdate r (NodeData.childFields_renameIdentifier name)⟩
  | removeModifier r kind => exact ⟨_, rfl, hupdate r (NodeData.childFields_removeModifier kind)⟩
  | retypeInvocation r signature =>
    exact ⟨_, rfl, h.tail.of_tied (.updateData d.store r (NodeData.childFields_retypeInvocation _))
      (.internSignature _ signature)⟩
  | renameClassType source target =>
    refine ⟨_, rfl, h.tail.of_tied (.refl _) ?_⟩
    cases hrename : d.types.renameClass source target with
    | none => exact .refl _
    | some types => exact fun id m hm => by simpa [TypeTable.methodAt?_renameClass hrename] using hm
  | renameMethodType id name =>
    obtain ⟨m, hm⟩ := Option.isSome_iff_exists.1 (h.methods List.mem_cons_self)
    obtain ⟨types, htypes⟩ : ∃ types, d.types.renameMethod id name = some types :=
      ⟨_, by rw [TypeTable.renameMethod, hm]; rfl⟩
    refine ⟨{ d with types }, by simp [applyEdit, htypes],
      h.tail.change (Nat.le_refl _) h.links (fun _ hn => hn) fun id' hid' => ?_⟩
    simp only [TypeTable.methodAt?_renameMethod htypes]
    split
    · simpa using hid'
    · exact hid'
  | replaceExpression r snippet =>
    obtain ⟨p, hp⟩ := Option.isSome_iff_exists.1 (h.linked List.mem_cons_self)
    obtain ⟨m, rfl⟩ : ∃ m, r = some m := by
      cases r with
      | none => simp [Store.parent, Store.get?] at hp
      | some m => exact ⟨m, rfl⟩
    have hextends := extends_materialize snippet d
    obtain ⟨k, u, -, hu, hd⟩ := exists_splice hp (h.links m p hp) (h.existing List.mem_cons_self)
    have hready := h.tail.of_tied hextends.tied hextends.methods
    refine ⟨{ (d.materialize snippet).2 with store := u }, hd,
      hready.change (Store.size_replaceChild hu).ge (hready.links.replaceChild hu) ?_
        fun _ hid => hid⟩
    intro n snippet' hmem
    refine Store.linked_replaceChild hu ?_
    rintro rfl
    exact (List.pairwise_cons.1 h.apart).1 _ hmem _ rfl rfl

theorem run {d : Draft} {es : List Edit} (h : d.Ready es) : ∃ d', d.applyEdits es = .ok d' := by
  induction es generalizing d with
  | nil => exact ⟨d, rfl⟩
  | cons e es ih =>
    obtain ⟨d₁, he, hready⟩ := h.step
    obtain ⟨d', hd'⟩ := ih hready
    exact ⟨d', by simp [applyEdits, he, hd']⟩

end Ready

end Draft

/-! ## Sets -/

namespace EditSet

theorem ready {s : EditSet} {f : SourceFile} (hnodup : s.edits.Nodup) (hlinks : f.store.LinksHold)
    (hfault : s.fault? f = none) : Draft.Ready { store := f.store, types := f.types } s.edits where
  links := hlinks
  linked hmem := (Edit.replaceExpression_of_fault? ((fault?_eq_none hfault).1 _ hmem)).1
  existing hmem := (Edit.replaceExpression_of_fault? ((fault?_eq_none hfault).1 _ hmem)).2
  methods hmem :=
    Option.isSome_iff_exists.2 (Edit.exists_methodAt?_of_fault? ((fault?_eq_none hfault).1 _ hmem))
  apart := pairwise_replaced hnodup hfault

/-- In a file whose links name holders, a set applies when it passes the check. -/
theorem apply_ok_iff {s : EditSet} {f : SourceFile} (hnodup : s.edits.Nodup)
    (hlinks : f.store.LinksHold) :
    (∃ g, s.apply f = .ok g) ↔ s.fault? f = none := by
  constructor
  · rintro ⟨g, hg⟩
    exact (apply_eq_ok hg).1
  · intro hfault
    obtain ⟨d, hd⟩ := (ready hnodup hlinks hfault).run
    exact exists_apply hfault hd

end EditSet

end JavaRecipes
