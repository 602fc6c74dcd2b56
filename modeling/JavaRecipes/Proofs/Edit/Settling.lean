import JavaRecipes.Proofs.Edit.Mentions
import JavaRecipes.Proofs.Edit.Outcome
import JavaRecipes.Proofs.Edit.Rewriting

/-!
What any set of edits does to a file. An edit touches the payload of its node, adds to the types or
renames one (`Draft.applyEdit_payload`, `Draft.applyEdit_table`). So literals, identifiers and
modifiers are in the end as the edits want them, methods have names that edits have for them, and
classes stay in the index (`Draft.Settling`).
-/

namespace JavaRecipes

namespace Edit

/-- What an edit makes of the payload of its node, slots apart. -/
def touch (types : TypeTable) (x : NodeData) : Edit → NodeData
  | .setLiteral _ value => x.setLiteral value
  | .renameIdentifier _ name => x.renameIdentifier name
  | .removeModifier _ kind => x.removeModifier kind
  | .retypeInvocation _ signature => x.retypeInvocation (types.internSignature signature).1
  | _ => x

/-- A local edit shows in a payload. -/
def Shown (y : NodeData) : Edit → Prop
  | .setLiteral _ value => y.literal?.map (·.value) = some value
  | .renameIdentifier _ name => y.identifier?.map (·.name) = some name
  | .removeModifier _ kind =>
    ∃ modifiers, y.modifiers? = some modifiers ∧ hasModifier modifiers kind = false
  | _ => True

theorem kind_touch (e : Edit) (types : TypeTable) (x : NodeData) :
    (e.touch types x).kind = x.kind := by
  cases e <;> first | rfl | (cases x <;> rfl)

end Edit

/-! ## Payloads -/

namespace NodeData

theorem Slotwise.modifiers? {R : Ref → Ref → Prop} {x y : NodeData} (h : Slotwise R x y) :
    y.modifiers? = x.modifiers? := by
  obtain ⟨fs, hfs, rfl⟩ := h
  cases x <;> simp only [childFields, List.forall₂_cons_left_iff, List.forall₂_nil_left_iff,
    ChildField.rel_one_iff, ChildField.rel_many_iff] at hfs <;>
    grind [withChildFields, NodeData.modifiers?]

theorem modifiers?_removeModifier (kind : ModifierKind) (x : NodeData) :
    (x.removeModifier kind).modifiers? = x.modifiers?.map (keptModifiers kind) := by
  cases x <;> rfl

theorem hasModifier_eq_false_iff {modifiers : List Modifier} {kind : ModifierKind} :
    hasModifier modifiers kind = false ↔ ∀ m ∈ modifiers, m.kind ≠ kind := by
  simp [hasModifier]

theorem mem_keptModifiers {kind : ModifierKind} {modifiers : List Modifier} {m : Modifier} :
    m ∈ keptModifiers kind modifiers ↔ m ∈ modifiers ∧ m.kind ≠ kind := by
  simp [keptModifiers]

end NodeData

namespace Edit

/-- Local edits still show when slots change. -/
theorem Shown.slotwise {e : Edit} {R : Ref → Ref → Prop} {x y : NodeData} (h : e.Shown x)
    (hxy : x.Slotwise R y) : e.Shown y := by
  cases e with
  | setLiteral r value =>
    cases x with
    | literal d => rwa [hxy.of_literal]
    | _ => cases h
  | renameIdentifier r name =>
    cases x with
    | identifier d => rwa [hxy.of_identifier]
    | _ => cases h
  | removeModifier r kind =>
    obtain ⟨modifiers, hmodifiers, hfree⟩ := h
    exact ⟨modifiers, hxy.modifiers?.trans hmodifiers, hfree⟩
  | _ => trivial

/-- A modifier that is gone does not come back with the next one. -/
theorem Shown.removeModifier {r : Ref} {kind kind' : ModifierKind} {x : NodeData}
    (h : (Edit.removeModifier r kind).Shown x) :
    (Edit.removeModifier r kind).Shown (x.removeModifier kind') := by
  obtain ⟨modifiers, hmodifiers, hfree⟩ := h
  refine ⟨NodeData.keptModifiers kind' modifiers, ?_, ?_⟩
  · rw [NodeData.modifiers?_removeModifier, hmodifiers]
    rfl
  · rw [NodeData.hasModifier_eq_false_iff] at hfree ⊢
    intro m hm
    exact hfree m (NodeData.mem_keptModifiers.1 hm).1

theorem admits_of_roleFault? {f : SourceFile} {r : Ref} {role : NodeRole} {x : NodeData}
    (h : roleFault? f r role = none) (hx : f.store.data? r = some x) :
    role.admits x.kind = true := by
  simp only [roleFault?, Store.kind?, hx, Option.map_some] at h
  split at h
  · assumption
  · cases h

/-- An edit that fits its node shows once it is made. -/
theorem shown_touch {f : SourceFile} {e : Edit} {r : Ref} {x y : NodeData}
    (hfault : e.fault? f = none) (htarget : e.target? = some r) (hx : f.store.data? r = some x)
    (hkind : y.kind = x.kind) (types : TypeTable) : e.Shown (e.touch types y) := by
  have hadmits : ∀ role, roleFault? f r role = none → role.admits y.kind = true := by
    intro role hrole
    rw [hkind]
    exact admits_of_roleFault? hrole hx
  cases e with
  | setLiteral r' value =>
    obtain rfl := Option.some.inj htarget
    have hliteral := hadmits .literal hfault
    cases y <;> first | rfl | cases hliteral
  | renameIdentifier r' name =>
    obtain rfl := Option.some.inj htarget
    have hidentifier := hadmits .identifier hfault
    cases y <;> first | rfl | cases hidentifier
  | removeModifier r' kind =>
    obtain rfl := Option.some.inj htarget
    have hdeclaration := hadmits .declaration hfault
    obtain ⟨modifiers, hmodifiers⟩ : ∃ modifiers, y.modifiers? = some modifiers := by
      cases y <;> first | exact ⟨_, rfl⟩ | cases hdeclaration
    refine ⟨NodeData.keptModifiers kind modifiers, ?_, ?_⟩
    · rw [touch, NodeData.modifiers?_removeModifier, hmodifiers]
      rfl
    · rw [NodeData.hasModifier_eq_false_iff]
      exact fun m hm => (NodeData.mem_keptModifiers.1 hm).2
  | _ => trivial

/-- So does every edit of the node when one of them is made. -/
theorem Shown.step {f : SourceFile} {a e : Edit} {r : Ref} {x y : NodeData} {types : TypeTable}
    (hfault : e.fault? f = none) (hagrees : e.Agrees a) (htarget : e.target? = some r)
    (hx : f.store.data? r = some x) (hkind : y.kind = x.kind) (ha : a = e ∨ a.Shown y) :
    a.Shown (e.touch types y) := by
  rcases hagrees with rfl | ⟨_, _, _, _, rfl, rfl⟩
  · exact shown_touch hfault htarget hx hkind types
  · rcases ha with ha | ha
    · rw [ha]
      exact shown_touch hfault htarget hx hkind types
    · exact ha.removeModifier

end Edit

namespace Draft

open TypeTable (Interns)

theorem applyEdit_renameMethodType {d d' : Draft} {id : TypeId} {name : String}
    (h : d.applyEdit (.renameMethodType id name) = .ok d') :
    d'.store = d.store ∧ d.types.renameMethod id name = some d'.types := by
  simp only [applyEdit] at h
  split at h
  · cases h
  · rename_i types htypes
    obtain rfl := Except.ok.inj h
    exact ⟨rfl, htypes⟩

/-- An edit that is no replacement touches the payload of its node, and leaves all others. -/
theorem applyEdit_touch {d d' : Draft} {e : Edit} (he : e.replaced? = none)
    (h : d.applyEdit e = .ok d') {n : NodeId} {x : NodeData}
    (hx : d.store.data? (some n) = some x) :
    d'.store.data? (some n) =
      some (if e.target? = some (some n) then e.touch d.types x else x) := by
  have hupdate : ∀ {r}, e.target? = some r → d'.store = d.store.updateData r (e.touch d.types ·) →
      d'.store.data? (some n) =
        some (if e.target? = some (some n) then e.touch d.types x else x) := by
    intro r hr hstore
    rw [hstore, Store.data?_updateData, hx, hr]
    by_cases hn : r = some n
    · simp [hn]
    · simp [hn, Ne.symm hn]
  have hsame : e.target? = none → d'.store = d.store →
      d'.store.data? (some n) =
        some (if e.target? = some (some n) then e.touch d.types x else x) := by
    intro hnone hstore
    rw [hstore, hnone, if_neg (by simp), hx]
  cases e with
  | replaceExpression r snippet => cases he
  | renameClassType source target =>
    obtain rfl := Except.ok.inj h
    exact hsame rfl rfl
  | renameMethodType id name => exact hsame rfl (applyEdit_renameMethodType h).1
  | _ =>
    obtain rfl := Except.ok.inj h
    exact hupdate rfl rfl

/-- The payload of a node after an edit: touched if the edit is about the node, and with other
children. -/
theorem applyEdit_payload {d d' : Draft} {e : Edit} (hsound : d.types.IndexSound)
    (h : d.applyEdit e = .ok d') {n : NodeId} {x : NodeData}
    (hx : d.store.data? (some n) = some x) :
    ∃ y, d'.store.data? (some n) = some y ∧
      (if e.target? = some (some n) then e.touch d.types x else x).Slotwise
        (fun _ _ => True) y := by
  cases hr : e.replaced? with
  | none => exact ⟨_, applyEdit_touch hr h hx, .refl (fun _ => trivial) _⟩
  | some r =>
    cases e with
    | replaceExpression r' snippet =>
      obtain ⟨-, -, hold, -⟩ := applyEdit_replaceExpression_payloads hsound h
      obtain ⟨y, hy, hxy⟩ := hold hx
      refine ⟨y, hy, ?_⟩
      rw [show (Edit.replaceExpression r' snippet).touch d.types x = x from rfl, ite_self]
      exact hxy.mono fun _ _ _ => trivial
    | _ => cases hr

/-- The types after an edit: more of them, or one with another name. -/
theorem applyEdit_table {d d' : Draft} {e : Edit} (hsound : d.types.IndexSound)
    (h : d.applyEdit e = .ok d') :
    (d.types.Grows d'.types ∧ Interns e.typeNames d.types d'.types ∧
      (∀ source target, e ≠ .renameClassType source target) ∧
        ∀ id name, e ≠ .renameMethodType id name) ∨
    (∃ source target, e = .renameClassType source target ∧
      d'.types = (d.types.renameClass source target).getD d.types) ∨
    ∃ id name, e = .renameMethodType id name ∧ d.types.renameMethod id name = some d'.types := by
  cases e with
  | replaceExpression r snippet =>
    obtain ⟨hgrows, -⟩ := applyEdit_replaceExpression_payloads hsound h
    obtain ⟨_, -, -, htypes⟩ := applyEdit_replacement h
    refine .inl ⟨hgrows, ?_, by simp, by simp⟩
    rw [htypes]
    exact interns_materialize snippet d
  | retypeInvocation r signature =>
    obtain rfl := Except.ok.inj h
    exact .inl ⟨(TypeTable.internSignature_spec hsound signature).1,
      .internSignature _ signature, by simp,
      by simp⟩
  | renameClassType source target =>
    obtain rfl := Except.ok.inj h
    exact .inr (.inl ⟨source, target, rfl, rfl⟩)
  | renameMethodType id name => exact .inr (.inr ⟨id, name, rfl, (applyEdit_renameMethodType h).2⟩)
  | _ =>
    obtain rfl := Except.ok.inj h
    exact .inl ⟨.refl hsound, .refl _, by simp, by simp⟩

end Draft

/-! ## Types -/

namespace TypeTable

theorem methodAt?_getD_renameClass (t : TypeTable) (source target : String) (id : TypeId) :
    ((t.renameClass source target).getD t).methodAt? id = t.methodAt? id := by
  cases hrename : t.renameClass source target with
  | none => rfl
  | some t' => exact methodAt?_renameClass hrename id

/-- A class moves to another name, but stays in the index. -/
theorem exists_lookupClass_getD_renameClass {t : TypeTable} (source target : String) {name : String}
    {id : TypeId} (h : t.lookupClass name = some id) :
    ∃ name', ((t.renameClass source target).getD t).lookupClass name' = some id := by
  cases hrename : t.renameClass source target with
  | none => exact ⟨name, h⟩
  | some t' =>
    rcases renameClass_cases hrename with ⟨-, rfl⟩ | ⟨_, hne, -, hfree, -⟩
    · exact ⟨name, h⟩
    · by_cases hname : name = source
      · refine ⟨target, ?_⟩
        rw [Option.getD_some, lookupClass_renameClass hrename hne, if_pos rfl, ← hname, h]
      · have htarget : name ≠ target := by
          rintro rfl
          rw [h] at hfree
          cases hfree
        refine ⟨name, ?_⟩
        rw [Option.getD_some, lookupClass_renameClass hrename hne, if_neg htarget, if_neg hname, h]

end TypeTable

namespace Draft

/-- What edits have made of a file, whatever they are. Local edits show; a method has its old name,
or one that an edit has for it; a class that had a name in the index has one. -/
structure Settling (f : SourceFile) (done : List Edit) (d : Draft) : Prop where
  sound : d.types.IndexSound
  nodes : ∀ {n x}, f.store.data? (some n) = some x → ∃ y, d.store.data? (some n) = some y ∧
    y.kind = x.kind ∧ ∀ a ∈ done, a.target? = some (some n) → a.Shown y
  methods : ∀ {id m}, f.types.methodAt? id = some m → ∃ m', d.types.methodAt? id = some m' ∧
    (m'.name = m.name ∧ (∀ name, .renameMethodType id name ∉ done) ∨
      .renameMethodType id m'.name ∈ done)
  indexed : ∀ {name id}, f.types.lookupClass name = some id →
    ∃ name', d.types.lookupClass name' = some id

namespace Settling

variable {f : SourceFile} {done : List Edit} {d d' : Draft} {e : Edit}

theorem start (hsound : f.types.IndexSound) :
    Settling f [] { store := f.store, types := f.types } where
  sound := hsound
  nodes {_ x} hx := ⟨x, hx, rfl, by simp⟩
  methods {_ m} hm := ⟨m, hm, .inl ⟨rfl, by simp⟩⟩
  indexed {name _} hid := ⟨name, hid⟩

theorem step_sound (h : Settling f done d) (hd : d.applyEdit e = .ok d') : d'.types.IndexSound := by
  rcases applyEdit_table h.sound hd with
    ⟨hgrows, -⟩ | ⟨source, target, -, htypes⟩ | ⟨id, name, -, htypes⟩
  · exact hgrows.sound
  · rw [htypes]
    cases hrename : d.types.renameClass source target with
    | none => exact h.sound
    | some t => exact h.sound.renameClass hrename
  · exact h.sound.renameMethod htypes

theorem step_nodes (h : Settling f done d) (hfault : e.fault? f = none)
    (hagrees : ∀ a ∈ e :: done, ∀ r, e.target? = some r → a.target? = some r → e.Agrees a)
    (hd : d.applyEdit e = .ok d') {n : NodeId} {x : NodeData}
    (hx : f.store.data? (some n) = some x) :
    ∃ y, d'.store.data? (some n) = some y ∧ y.kind = x.kind ∧
      ∀ a ∈ e :: done, a.target? = some (some n) → a.Shown y := by
  obtain ⟨y, hy, hkind, hshown⟩ := h.nodes hx
  obtain ⟨z, hz, hyz⟩ := applyEdit_payload h.sound hd hy
  refine ⟨z, hz, ?_, ?_⟩
  · rw [hyz.kind, ← hkind]
    split
    · exact e.kind_touch d.types y
    · rfl
  · intro a ha hat
    refine Edit.Shown.slotwise ?_ hyz
    split
    · rename_i het
      refine Edit.Shown.step hfault (hagrees a ha _ het hat) het hx hkind ?_
      exact (List.mem_cons.1 ha).imp_right fun hdone => hshown a hdone hat
    · rename_i het
      rcases List.mem_cons.1 ha with rfl | hdone
      · exact absurd hat het
      · exact hshown a hdone hat

theorem step_methods (h : Settling f done d) (hd : d.applyEdit e = .ok d') {id : TypeId}
    {m : MethodType} (hm : f.types.methodAt? id = some m) : ∃ m', d'.types.methodAt? id = some m' ∧
      (m'.name = m.name ∧ (∀ name, .renameMethodType id name ∉ e :: done) ∨
        .renameMethodType id m'.name ∈ e :: done) := by
  obtain ⟨m', hm', hname⟩ := h.methods hm
  have hother : (∀ name, e ≠ .renameMethodType id name) →
      (m'.name = m.name ∧ (∀ name, .renameMethodType id name ∉ e :: done) ∨
        .renameMethodType id m'.name ∈ e :: done) := by
    intro hne
    refine hname.imp (fun ⟨hsame, hnone⟩ => ⟨hsame, fun name hmem => ?_⟩) (List.mem_cons_of_mem _)
    rcases List.mem_cons.1 hmem with heq | hmem
    · exact hne name heq.symm
    · exact hnone name hmem
  rcases applyEdit_table h.sound hd with ⟨hgrows, -, -, hne⟩ | ⟨source, target, rfl, htypes⟩ |
    ⟨id', name, rfl, htypes⟩
  · exact ⟨m', hgrows.methodAt? hm', hother (hne id)⟩
  · refine ⟨m', ?_, hother (by simp)⟩
    rw [htypes, TypeTable.methodAt?_getD_renameClass, hm']
  · rw [TypeTable.methodAt?_renameMethod htypes]
    by_cases hid : id = id'
    · subst hid
      rw [if_pos rfl, hm']
      exact ⟨_, rfl, .inr List.mem_cons_self⟩
    · rw [if_neg hid]
      exact ⟨m', hm', hother (by simp [Ne.symm hid])⟩

theorem step_indexed (h : Settling f done d) (hd : d.applyEdit e = .ok d')
    {name : String} {id : TypeId} (hid : f.types.lookupClass name = some id) :
    ∃ name', d'.types.lookupClass name' = some id := by
  obtain ⟨name', hname'⟩ := h.indexed hid
  rcases applyEdit_table h.sound hd with
    ⟨-, hinterns, -⟩ | ⟨source, target, -, htypes⟩ | ⟨id', _, -, htypes⟩
  · exact ⟨name', hinterns.lookupClass_of_some hname'⟩
  · rw [htypes]
    exact TypeTable.exists_lookupClass_getD_renameClass source target hname'
  · exact ⟨name', by rw [TypeTable.lookupClass_renameMethod htypes, hname']⟩

/-- One more edit, which fits the file and agrees with the others. -/
theorem step (h : Settling f done d) (hfault : e.fault? f = none)
    (hagrees : ∀ a ∈ e :: done, ∀ r, e.target? = some r → a.target? = some r → e.Agrees a)
    (hd : d.applyEdit e = .ok d') : Settling f (e :: done) d' where
  sound := h.step_sound hd
  nodes := h.step_nodes hfault hagrees hd
  methods := h.step_methods hd
  indexed := h.step_indexed hd

end Settling

end Draft

/-! ## The whole set -/

namespace EditSet

variable {s : EditSet} {f g : SourceFile}

/-- What holds at the start and is kept by each edit, which fits the file and agrees with those
before it, holds in the end. -/
theorem apply_induction {P : List Edit → Draft → Prop} (h : s.apply f = .ok g)
    (hstart : P [] { store := f.store, types := f.types })
    (hstep : ∀ {done e d d'}, (∀ a ∈ s.edits, a.fault? f = none) → (∀ a ∈ e :: done, a ∈ s.edits) →
      (∀ a ∈ e :: done, ∀ r, e.target? = some r → a.target? = some r → e.Agrees a) → P done d →
      d.applyEdit e = .ok d' → P (e :: done) d') :
    P s.edits.reverse { store := g.store, types := g.types } := by
  obtain ⟨hfault, d, hd, rfl⟩ := apply_eq_ok h
  obtain ⟨hfaults, hharm⟩ := fault?_eq_none hfault
  refine Draft.applyEdits_induction hd hstart fun {done e rest d₁ d₂} hsplit hP he => ?_
  have hmem : ∀ a ∈ e :: done, a ∈ s.edits := by
    intro a ha
    rw [hsplit, List.mem_append, List.mem_reverse, List.mem_cons]
    exact (List.mem_cons.1 ha).elim (fun heq => .inr (.inl heq)) .inl
  exact hstep hfaults hmem (fun a ha r => hharm e (hmem e List.mem_cons_self) a (hmem a ha) r) hP he

theorem settling (hsound : f.types.IndexSound) (h : s.apply f = .ok g) :
    Draft.Settling f s.edits.reverse { store := g.store, types := g.types } :=
  apply_induction h (.start hsound) fun hfaults hdone hagrees h he =>
    h.step (hfaults _ (hdone _ List.mem_cons_self)) hagrees he

end EditSet

end JavaRecipes
