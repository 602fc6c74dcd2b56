import JavaRecipes.Proofs.Edit.Sequence
import JavaRecipes.Proofs.Tree.Linked

/-!
The file that a set of renaming edits gives: what its nodes are, which of them are reachable, and in
a linked tree what each slot holds.
-/

namespace JavaRecipes

/-- A set of renaming edits takes one file to another. -/
structure EditSet.Renames (s : EditSet) (f g : SourceFile) : Prop where
  only : ∀ e ∈ s.edits, e.IsRenaming
  nodup : s.edits.Nodup
  applied : s.apply f = .ok g

/-- A slot keeps its node if no edit replaces that; else it holds a new literal. -/
inductive Settles (es : List Edit) (f g : SourceFile) : Ref → Ref → Prop
  | kept {a : Ref} :
    (∀ value, .replaceExpression a (.stringLiteral value) ∉ es) → Settles es f g a a
  | filled {a : Ref} {value : String} {m : NodeId} {type : Option TypeId} :
    .replaceExpression a (.stringLiteral value) ∈ es → f.store.size ≤ m →
    g.store.data? (some m) = some (.literal { value := .string value, type }) →
    Settles es f g a (some m)

theorem Settles.eq_or_mem {es : List Edit} {f g : SourceFile} {a b : Ref} (h : Settles es f g a b) :
    b = a ∨ ∃ value, .replaceExpression a (.stringLiteral value) ∈ es := by
  cases h with
  | kept => exact .inl rfl
  | filled hmem _ _ => exact .inr ⟨_, hmem⟩

/-- What passes the check of an edit is a node of the file. -/
theorem exists_target {file : SourceFile} {e : Edit} (h : e.fault? file = none) {r : Ref}
    (hr : e.target? = some r) : ∃ n < file.store.size, r = some n := by
  have hget : (file.store.data? r).isSome := by
    have hrole : ∀ r role, roleFault? file r role = none → (file.store.data? r).isSome := by
      intro r role hnone
      unfold roleFault? Store.kind? at hnone
      cases hd : file.store.data? r with
      | none => simp [hd] at hnone
      | some x => rfl
    cases e with
    | replaceExpression r' snippet =>
      obtain rfl := Option.some.inj hr
      simp only [Edit.fault?] at h
      split at h
      · simp at h
      · rename_i hsome
        simpa [Store.data?, Option.isNone_iff_eq_none, Option.isSome_iff_ne_none] using hsome
    | renameClassType source target => simp [Edit.target?] at hr
    | renameMethodType id name => simp [Edit.target?] at hr
    | _ =>
      obtain rfl := Option.some.inj hr
      exact hrole _ _ h
  cases r with
  | none => simp [Store.data?, Store.get?] at hget
  | some n => exact ⟨n, (Store.data?_isSome_iff _ n).1 hget, rfl⟩

namespace EditSet.Renames

variable {s : EditSet} {f g : SourceFile}

theorem within (h : s.Renames f g) : Edit.Within s.edits f.store.size := by
  intro e he r hr
  have hfault := (fault?_eq_none (apply_eq_ok h.applied).1).1 e he
  exact exists_target hfault hr

theorem harmonious (h : s.Renames f g) : Harmonious s.edits :=
  (fault?_eq_none (apply_eq_ok h.applied).1).2

/-- Two edits of one node are one. -/
theorem edit_eq (h : s.Renames f g) {a b : Edit} (ha : a ∈ s.edits) (hb : b ∈ s.edits) {r : Ref}
    (har : a.target? = some r) (hbr : b.target? = some r) : a = b := by
  refine (h.harmonious a ha b hb r har hbr).eq ?_
  rintro r' k rfl
  cases h.only _ ha

theorem root_eq (h : s.Renames f g) : g.root = f.root := by
  obtain ⟨-, d, -, rfl⟩ := apply_eq_ok h.applied
  rfl

/-- The payload of an old node. -/
theorem data? (h : s.Renames f g) {n : NodeId} {x : NodeData}
    (hx : f.store.data? (some n) = some x) :
    ∃ y, g.store.data? (some n) = some y ∧
      NodeData.Slotwise (Refilled s.edits f.store.size g.store)
        (retouchAll s.edits (some n) x) y := by
  obtain ⟨-, d, hd, rfl⟩ := apply_eq_ok h.applied
  exact Draft.applyEdits_data? h.only h.within (Nat.le_refl _) hd hx

/-- Nodes keep their kind. -/
theorem kind_eq (h : s.Renames f g) {n : NodeId} {x y : NodeData}
    (hx : f.store.data? (some n) = some x) (hy : g.store.data? (some n) = some y) :
    y.kind = x.kind := by
  obtain ⟨z, hz, hxz⟩ := h.data? hx
  rw [hy] at hz
  obtain rfl := Option.some.inj hz
  rw [hxz.kind]
  exact kind_retouchAll s.edits (some n) x

/-- The payload of a new node. -/
theorem data?_new (h : s.Renames f g) {n : NodeId} (hn : f.store.size ≤ n) {y : NodeData}
    (hy : g.store.data? (some n) = some y) :
    ∃ r value type, .replaceExpression r (.stringLiteral value) ∈ s.edits ∧
      y = .literal { value := .string value, type } := by
  obtain ⟨-, d, hd, rfl⟩ := apply_eq_ok h.applied
  exact Draft.applyEdits_new h.only h.within (Nat.le_refl _) hd hn hy

/-- A node that is no literal in the end is an old one. -/
theorem lt_size_of_kind (h : s.Renames f g) {n : NodeId} {y : NodeData}
    (hy : g.store.data? (some n) = some y) (hkind : y.kind ≠ .literal) : n < f.store.size := by
  by_contra hn
  obtain ⟨_, _, _, -, rfl⟩ := h.data?_new (Nat.le_of_not_lt hn) hy
  exact hkind rfl

theorem children (h : s.Renames f g) {n : NodeId} (hn : n < f.store.size) :
    List.Forall₂ (Refilled s.edits f.store.size g.store) (f.store.children (some n))
      (g.store.children (some n)) := by
  obtain ⟨-, d, hd, rfl⟩ := apply_eq_ok h.applied
  exact Draft.applyEdits_children h.only h.within (Nat.le_refl _) hd hn

/-- Only old nodes hold something. -/
theorem holder_lt_size (h : s.Renames f g) {n m : NodeId} (hh : g.store.Holds n m) :
    n < f.store.size := by
  obtain ⟨y, hy⟩ := Store.exists_data? (Store.holds_lt_size hh)
  refine h.lt_size_of_kind hy ?_
  intro hkind
  cases y <;> simp [NodeData.kind] at hkind
  simp [Store.holds_iff hy, NodeData.children, NodeData.childFields] at hh

/-- Old nodes are held as before. -/
theorem holds (h : s.Renames f g) {n m : NodeId} (hh : g.store.Holds n m) (hm : m < f.store.size) :
    f.store.Holds n m := by
  have hchildren := h.children (h.holder_lt_size hh)
  obtain ⟨i, hi, hget⟩ := List.mem_iff_getElem.1 hh
  have hi' : i < (f.store.children (some n)).length := by
    rw [hchildren.length_eq]
    exact hi
  have hrefilled := hchildren.get hi' hi
  simp only [List.get_eq_getElem, hget] at hrefilled
  rw [Store.Holds, ← hrefilled.eq_of_lt hm]
  exact List.getElem_mem hi'

/-- An old node that is reachable in the end was so before. -/
theorem reaches (h : s.Renames f g) {n : NodeId} (hn : g.Reaches n) (hlt : n < f.store.size) :
    f.Reaches n := by
  induction hn with
  | start hroot _ => exact .start (h.root_eq ▸ hroot) hlt
  | step _ hh _ ih => exact .step (ih (h.holder_lt_size hh)) (h.holds hh hlt) hlt

/-! ## Leaves -/

/-- An identifier gets the name that an edit has for it. -/
theorem identifierText?_of_mem (h : s.Renames f g) {n : NodeId} {name : String}
    (hmem : .renameIdentifier (some n) name ∈ s.edits) {d : Identifier}
    (hd : f.store.data? (some n) = some (.identifier d)) :
    g.store.identifierText? (some n) = some name := by
  obtain ⟨y, hy, hxy⟩ := h.data? hd
  rw [retouchAll_of_mem hmem fun a ha har => h.edit_eq ha hmem har rfl] at hxy
  simp only [Edit.retouch, if_true, NodeData.renameIdentifier] at hxy
  rw [hxy.of_identifier] at hy
  simp [Store.identifierText?, Store.identifier?, hy, NodeData.identifier?]

/-- An identifier that no edit renames stays as it is. -/
theorem identifier_of_not_mem (h : s.Renames f g) {n : NodeId}
    (hno : ∀ name, .renameIdentifier (some n) name ∉ s.edits) {d : Identifier}
    (hd : f.store.data? (some n) = some (.identifier d)) :
    g.store.data? (some n) = some (.identifier d) := by
  obtain ⟨y, hy, hxy⟩ := h.data? hd
  have hsame : retouchAll s.edits (some n) (.identifier d) = .identifier d := by
    refine retouchAll_of_fixed fun e he => ?_
    cases e <;> simp only [Edit.retouch] <;> try split
    all_goals try rfl
    rename_i name hr
    exact absurd (hr ▸ he) (hno name)
  rw [hsame] at hxy
  rwa [hxy.of_identifier] at hy

/-- A literal gets the value that an edit has for it. -/
theorem literal_of_mem (h : s.Renames f g) {n : NodeId} {value : LiteralValue}
    (hmem : .setLiteral (some n) value ∈ s.edits) {d : Literal}
    (hd : f.store.data? (some n) = some (.literal d)) :
    g.store.data? (some n) = some (.literal { d with value }) := by
  obtain ⟨y, hy, hxy⟩ := h.data? hd
  rw [retouchAll_of_mem hmem fun a ha har => h.edit_eq ha hmem har rfl] at hxy
  simp only [Edit.retouch, if_true, NodeData.setLiteral] at hxy
  rwa [hxy.of_literal] at hy

/-- A literal that no edit sets stays as it is. -/
theorem literal_of_not_mem (h : s.Renames f g) {n : NodeId}
    (hno : ∀ value, .setLiteral (some n) value ∉ s.edits) {d : Literal}
    (hd : f.store.data? (some n) = some (.literal d)) :
    g.store.data? (some n) = some (.literal d) := by
  obtain ⟨y, hy, hxy⟩ := h.data? hd
  have hsame : retouchAll s.edits (some n) (.literal d) = .literal d := by
    refine retouchAll_of_fixed fun e he => ?_
    cases e <;> simp only [Edit.retouch] <;> try split
    all_goals try rfl
    rename_i value hr
    exact absurd (hr ▸ he) (hno value)
  rw [hsame] at hxy
  rwa [hxy.of_literal] at hy

/-- Only leaves are changed by anything but a replacement. -/
theorem data?_of_kind (h : s.Renames f g) {n : NodeId} {x : NodeData}
    (hx : f.store.data? (some n) = some x) (hl : x.kind ≠ .literal) (hi : x.kind ≠ .identifier) :
    ∃ y, g.store.data? (some n) = some y ∧
      NodeData.Slotwise (Refilled s.edits f.store.size g.store) x y := by
  obtain ⟨y, hy, hxy⟩ := h.data? hx
  rw [retouchAll_of_kind _ _ hl hi] at hxy
  exact ⟨y, hy, hxy⟩

/-! ## Linked trees -/

/-- In a linked tree a node that was to be replaced is gone from its holder. -/
theorem not_holds_of_mem (h : s.Renames f g) (hf : f.Linked) {n m : NodeId} (hn : f.Reaches n)
    (hh : f.store.Holds n m) {value : String}
    (hmem : .replaceExpression (some m) (.stringLiteral value) ∈ s.edits) :
    ¬ g.store.Holds n m := by
  intro hheld
  obtain ⟨-, d, hd, rfl⟩ := apply_eq_ok h.applied
  have hlt := Draft.count_applyEdits_lt h.only h.within (Nat.le_refl _) hd h.nodup h.harmonious hmem
    (hf.link hn hh) hn.lt_size
  have honce := hf.once m hn
  have hpos := List.count_pos_iff.2 hheld
  simp only at hlt hpos
  omega

/-- The slots of a reachable node of a linked tree. -/
theorem settles (h : s.Renames f g) (hf : f.Linked) {n : NodeId} (hn : f.Reaches n) {x : NodeData}
    (hx : f.store.data? (some n) = some x) :
    ∃ y, g.store.data? (some n) = some y ∧
      NodeData.Slotwise (Settles s.edits f g) (retouchAll s.edits (some n) x) y := by
  obtain ⟨y, hy, hxy⟩ := h.data? hx
  refine ⟨y, hy, hxy.imp_of_mem ?_⟩
  intro a b _ hb hab
  rcases hab with rfl | ⟨value, m, type, hmem, rfl, hm, hdata⟩
  · refine .kept fun value hmem => ?_
    obtain ⟨m, hm, rfl⟩ := h.within _ hmem _ rfl
    have hheld : g.store.Holds n m := by
      rw [Store.Holds, Store.children_eq_of_data? hy]
      simpa [ChildField.Among] using hb
    exact h.not_holds_of_mem hf hn (h.holds hheld hm) hmem hheld
  · exact .filled hmem hm hdata

/-- A slot is empty in the end just if it was. -/
theorem settles_none_iff (h : s.Renames f g) {a b : Ref} (hab : Settles s.edits f g a b) :
    a = none ↔ b = none := by
  cases hab with
  | kept => exact Iff.rfl
  | filled hmem _ _ =>
    obtain ⟨n, -, rfl⟩ := h.within _ hmem _ rfl
    simp

theorem children_settle (h : s.Renames f g) (hf : f.Linked) {n : NodeId} (hn : f.Reaches n) :
    List.Forall₂ (Settles s.edits f g) (f.store.children (some n)) (g.store.children (some n)) := by
  obtain ⟨x, hx⟩ := Store.exists_data? hn.lt_size
  obtain ⟨y, hy, hxy⟩ := h.settles hf hn hx
  have hchildren := hxy.children fun a b => h.settles_none_iff
  rw [children_retouchAll] at hchildren
  rwa [Store.children_eq_of_data? hx, Store.children_eq_of_data? hy]

/-- What was in a slot tells what is in it in the end. -/
theorem exists_settled (h : s.Renames f g) (hf : f.Linked) {n : NodeId} (hn : f.Reaches n) {a : Ref}
    (ha : a ∈ f.store.children (some n)) :
    ∃ (k : Nat) (b : Ref), (f.store.children (some n))[k]? = some a ∧
      (g.store.children (some n))[k]? = some b ∧ Settles s.edits f g a b := by
  have hchildren := h.children_settle hf hn
  obtain ⟨k, hk, hget⟩ := List.mem_iff_getElem.1 ha
  have hk' : k < (g.store.children (some n)).length := hchildren.length_eq ▸ hk
  have hsettled := hchildren.get hk hk'
  simp only [List.get_eq_getElem, hget] at hsettled
  exact ⟨k, _, by simp [hk, hget], List.getElem?_eq_getElem hk', hsettled⟩

/-- And the other way round. -/
theorem exists_unsettled (h : s.Renames f g) (hf : f.Linked) {n : NodeId}
    (hn : f.Reaches n) {b : Ref} (hb : b ∈ g.store.children (some n)) :
    ∃ (k : Nat) (a : Ref), (f.store.children (some n))[k]? = some a ∧
      (g.store.children (some n))[k]? = some b ∧ Settles s.edits f g a b := by
  have hchildren := h.children_settle hf hn
  obtain ⟨k, hk, hget⟩ := List.mem_iff_getElem.1 hb
  have hk' : k < (f.store.children (some n)).length := hchildren.length_eq ▸ hk
  have hsettled := hchildren.get hk' hk
  simp only [List.get_eq_getElem, hget] at hsettled
  exact ⟨k, _, List.getElem?_eq_getElem hk', by simp [hk, hget], hsettled⟩

end EditSet.Renames

end JavaRecipes
