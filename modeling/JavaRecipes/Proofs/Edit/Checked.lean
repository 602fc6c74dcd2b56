import JavaRecipes.Edit.Apply

/-!
What a checked edit set is: every edit fits the file by itself, and edits of one node agree.
Applying a set that passes goes through its edits one by one.
-/

namespace JavaRecipes

namespace EditSet

@[simp]
theorem mem_pushAll {s : EditSet} {es : List Edit} {x : Edit} :
    x ∈ (s.pushAll es).edits ↔ x ∈ s.edits ∨ x ∈ es := by
  induction es generalizing s with
  | nil => simp [pushAll]
  | cons e es ih =>
    have h := ih (s := s.push e)
    rw [mem_push] at h
    rw [List.mem_cons, ← or_assoc]
    exact h

@[simp]
theorem mem_ofList {es : List Edit} {x : Edit} : x ∈ (ofList es).edits ↔ x ∈ es := by
  simp [ofList, empty]

theorem pushAll_nodup {s : EditSet} (h : s.edits.Nodup) (es : List Edit) :
    (s.pushAll es).edits.Nodup := by
  induction es generalizing s with
  | nil => exact h
  | cons e es ih => exact ih (push_nodup h e)

theorem ofList_nodup (es : List Edit) : (ofList es).edits.Nodup :=
  pushAll_nodup (by simp [empty]) es

/-- The edits of a set come before those that are added. -/
theorem exists_pushAll_eq_append (s : EditSet) (es : List Edit) :
    ∃ more, (s.pushAll es).edits = s.edits ++ more ∧ ∀ x ∈ more, x ∈ es := by
  induction es generalizing s with
  | nil => exact ⟨[], by simp [pushAll], by simp⟩
  | cons e es ih =>
    obtain ⟨more, hmore, hmem⟩ := ih (s.push e)
    by_cases he : e ∈ s.edits
    · refine ⟨more, ?_, fun x hx => List.mem_cons_of_mem _ (hmem x hx)⟩
      change ((s.push e).pushAll es).edits = _
      rw [hmore]
      simp [push, he]
    · refine ⟨e :: more, ?_, ?_⟩
      · change ((s.push e).pushAll es).edits = _
        rw [hmore]
        simp [push, he]
      · intro x hx
        rcases List.mem_cons.1 hx with rfl | hx
        · exact List.mem_cons_self
        · exact List.mem_cons_of_mem _ (hmem x hx)

/-- New edits without repetitions are added as they are. -/
theorem pushAll_eq_append {s : EditSet} {es : List Edit} (hes : es.Nodup)
    (hnew : ∀ x ∈ es, x ∉ s.edits) : (s.pushAll es).edits = s.edits ++ es := by
  induction es generalizing s with
  | nil => simp [pushAll]
  | cons e es ih =>
    have he : e ∉ s.edits := hnew e List.mem_cons_self
    have hpush : (s.push e).edits = s.edits ++ [e] := by simp [push, he]
    have hrest : ∀ x ∈ es, x ∉ (s.push e).edits := by
      intro x hx
      rw [mem_push]
      rintro (h | rfl)
      · exact hnew x (List.mem_cons_of_mem _ hx) h
      · exact (List.nodup_cons.1 hes).1 hx
    have h := ih (List.nodup_cons.1 hes).2 hrest
    change ((s.push e).pushAll es).edits = _
    rw [h, hpush, List.append_assoc]
    rfl

end EditSet

namespace Edit

/-- Two edits of one node can stand side by side: they are one edit, or both take modifiers away. -/
def Agrees (a b : Edit) : Prop :=
  a = b ∨ ∃ r r' k k', a = .removeModifier r k ∧ b = .removeModifier r' k'

theorem agrees_of_compatible {a b : Edit} (h : compatible a b = true) : Agrees a b := by
  cases a <;> cases b <;> simp_all [compatible, Agrees]

theorem Agrees.trans {a b c : Edit} (hab : Agrees a b) (hbc : Agrees b c) : Agrees a c := by
  rcases hab with rfl | ⟨r, r', k, k', rfl, rfl⟩
  · exact hbc
  · rcases hbc with rfl | ⟨_, r₂, _, k₂, -, rfl⟩
    · exact .inr ⟨r, r', k, k', rfl, rfl⟩
    · exact .inr ⟨r, r₂, k, k₂, rfl, rfl⟩

theorem Agrees.symm {a b : Edit} (h : Agrees a b) : Agrees b a := by
  rcases h with rfl | ⟨r, r', k, k', ha, hb⟩
  · exact .inl rfl
  · exact .inr ⟨r', r, k', k, hb, ha⟩

/-- An edit that agrees with another one and takes no modifier away is that edit. -/
theorem Agrees.eq {a b : Edit} (h : Agrees a b) (ha : ∀ r k, a ≠ .removeModifier r k) : a = b := by
  rcases h with rfl | ⟨r, _, k, _, ha', -⟩
  · rfl
  · exact absurd ha' (ha r k)

/-- What is to be replaced has a holder, and the nodes that are used for it are there. -/
theorem replaceExpression_of_fault? {f : SourceFile} {r : Ref} {snippet : Snippet}
    (h : (replaceExpression r snippet).fault? f = none) :
    (f.store.parent r).isSome ∧ ∀ a ∈ snippet.existingNodes, (f.store.get? a).isSome := by
  simp only [fault?] at h
  split at h
  · cases h
  · split at h
    · cases h
    · rename_i hparent
      rw [missingFault?, Option.map_eq_none_iff, List.find?_eq_none] at h
      refine ⟨by simpa [Option.isSome_iff_ne_none, Option.isNone_iff_eq_none] using hparent,
        fun a ha => ?_⟩
      simpa [Option.isSome_iff_ne_none, Option.isNone_iff_eq_none] using h a ha

/-- What passes the check takes a class to a name that the file does not know. -/
theorem lookupClass_of_fault? {f : SourceFile} {source target : String}
    (h : (renameClassType source target).fault? f = none) (hne : source ≠ target)
    (hsource : (f.types.lookupClass source).isSome) : f.types.lookupClass target = none := by
  simpa [fault?, hne, hsource] using h

theorem exists_methodAt?_of_fault? {f : SourceFile} {id : TypeId} {name : String}
    (h : (renameMethodType id name).fault? f = none) : ∃ m, f.types.methodAt? id = some m := by
  rw [← Option.isSome_iff_exists]
  simpa [fault?, Option.isSome_iff_ne_none, Option.isNone_iff_eq_none] using h

end Edit

namespace EditSet

/-- Edits of one node agree. -/
def Harmonious (es : List Edit) : Prop :=
  ∀ a ∈ es, ∀ b ∈ es, ∀ r, a.target? = some r → b.target? = some r → a.Agrees b

private theorem harmonious_cons {e : Edit} {earlier : List Edit} (h : Harmonious earlier)
    (hc : e.conflict? earlier = none) : Harmonious (e :: earlier) := by
  have hnew : ∀ b ∈ earlier, ∀ r, e.target? = some r → b.target? = some r → b.Agrees e := by
    intro b hb r her hbr
    simp only [Edit.conflict?, her] at hc
    cases hf : earlier.find? fun a => a.target? = some r with
    | none =>
      have := List.find?_eq_none.1 hf b hb
      simp [hbr] at this
    | some a =>
      have ha := List.mem_of_find?_eq_some hf
      have har : a.target? = some r := by simpa using List.find?_some hf
      simp only [hf] at hc
      split at hc
      · rename_i hae
        exact (h b hb a ha r hbr har).trans (Edit.agrees_of_compatible hae)
      · simp at hc
  intro a ha b hb r har hbr
  rcases List.mem_cons.1 ha with rfl | ha'
  · rcases List.mem_cons.1 hb with rfl | hb'
    · exact .inl rfl
    · exact (hnew b hb' r har hbr).symm
  · rcases List.mem_cons.1 hb with rfl | hb'
    · exact hnew a ha' r hbr har
    · exact h a ha' b hb' r har hbr

private theorem faultAfter?_eq_none {file : SourceFile} {earlier es : List Edit}
    (h : faultAfter? file earlier es = none) (hearlier : Harmonious earlier) :
    (∀ e ∈ es, e.fault? file = none) ∧ Harmonious (es.reverse ++ earlier) := by
  induction es generalizing earlier with
  | nil => exact ⟨by simp, by simpa using hearlier⟩
  | cons e es ih =>
    simp only [faultAfter?] at h
    cases hf : e.fault? file with
    | some error => simp [hf] at h
    | none =>
      cases hc : e.conflict? earlier with
      | some error => simp [hf, hc] at h
      | none =>
        simp only [hf, hc] at h
        obtain ⟨hfault, hharm⟩ := ih h (harmonious_cons hearlier hc)
        refine ⟨?_, by simpa using hharm⟩
        intro a ha
        rcases List.mem_cons.1 ha with rfl | ha
        · exact hf
        · exact hfault a ha

theorem fault?_eq_none {s : EditSet} {file : SourceFile} (h : s.fault? file = none) :
    (∀ e ∈ s.edits, e.fault? file = none) ∧ Harmonious s.edits := by
  obtain ⟨hfault, hharm⟩ := faultAfter?_eq_none h (by simp [Harmonious])
  refine ⟨hfault, fun a ha b hb r har hbr => hharm a ?_ b ?_ r har hbr⟩
  · simpa using ha
  · simpa using hb

/-- A set that applies was checked, and its edits were made in order. -/
theorem apply_eq_ok {s : EditSet} {file after : SourceFile} (h : s.apply file = .ok after) :
    s.fault? file = none ∧
      ∃ d, Draft.applyEdits { store := file.store, types := file.types } s.edits = .ok d ∧
        after = { file with store := d.store, types := d.types } := by
  unfold apply at h
  cases hf : s.fault? file with
  | some error => simp [hf] at h
  | none =>
    rw [hf] at h
    refine ⟨rfl, ?_⟩
    cases hd : Draft.applyEdits { store := file.store, types := file.types } s.edits with
    | error error => simp [hd] at h
    | ok d =>
      rw [hd] at h
      exact ⟨d, rfl, (Except.ok.inj h).symm⟩

/-- A set that passes the check and whose edits can be made is applied. -/
theorem exists_apply {s : EditSet} {file : SourceFile} {d : Draft} (hfault : s.fault? file = none)
    (hd : Draft.applyEdits { store := file.store, types := file.types } s.edits = .ok d) :
    ∃ after, s.apply file = .ok after :=
  ⟨{ file with store := d.store, types := d.types }, by simp [apply, hfault, hd]⟩

end EditSet

end JavaRecipes
