import JavaRecipes.Types.Table

/-!
The class index beside the entries of a type table: every name in it leads to a class of that name,
and every class has its name in it. Loading a file leaves its table so, and interning and renaming
keep it so.
-/

namespace JavaRecipes

namespace ClassIndex

/-- Renaming a key moves its position to the new name, if that name is free. -/
theorem find?_rekey {index : ClassIndex} {source target : String}
    (hfree : index.find? target = none) (name : String) :
    (rekey index source target).find? name =
      if name = target then index.find? source
      else if name = source then none else index.find? name := by
  induction index with
  | nil => simp [rekey, find?]
  | cons e rest ih =>
    obtain ⟨key, id⟩ := e
    simp only [find?] at hfree
    split at hfree
    · simp at hfree
    · rename_i hkt
      have hrest := ih hfree
      simp only [rekey] at hrest
      by_cases hks : key = source
      · subst hks
        by_cases hnt : name = target
        · simp [rekey, find?, hnt]
        · by_cases hnk : name = key
          · subst hnk
            simp [rekey, find?, hnt, Ne.symm hnt, hrest]
          · simp [rekey, find?, hnt, hnk, Ne.symm hnt, Ne.symm hnk, hrest]
      · by_cases hkn : key = name
        · subst hkn
          simp [rekey, find?, hks, hkt]
        · simp [rekey, find?, hks, hkn, hrest]

end ClassIndex

/-- The types that a type entry names. -/
def TypeEntry.typeIds : TypeEntry → List TypeId
  | .classType c => c.owner.toList
  | .method m => m.declaring :: m.returns.toList ++ m.params
  | .variable v => v.owner.toList ++ v.type.toList
  | _ => []

namespace TypeTable

/-- The name of a class entry. -/
def className? (t : TypeTable) (id : TypeId) : Option String := (t.classAt? id).map (·.name)

/-- What the index finds under a name is a class of that name. -/
def IndexSound (t : TypeTable) : Prop :=
  ∀ (name : String) (id : TypeId), t.lookupClass name = some id → t.className? id = some name

/-- The index is sound, and has the names of all classes. -/
structure Indexed (t : TypeTable) : Prop where
  sound : t.IndexSound
  complete : ∀ (id : TypeId) (name : String), t.className? id = some name →
    (t.lookupClass name).isSome

theorem lt_size_of_className? {t : TypeTable} {id : TypeId} {name : String}
    (h : t.className? id = some name) : id < t.size := by
  simp only [className?, classAt?, get?, Option.map_eq_some_iff, Option.bind_eq_some_iff] at h
  obtain ⟨_, ⟨_, he, _⟩, _⟩ := h
  exact (Array.getElem?_eq_some_iff.1 he).1

theorem name?_of_className? {t : TypeTable} {id : TypeId} {name : String}
    (h : t.className? id = some name) : t.name? id = some name := by
  simp only [className?, classAt?, Option.map_eq_some_iff, Option.bind_eq_some_iff] at h
  obtain ⟨c, ⟨entry, he, hc⟩, rfl⟩ := h
  cases entry <;> simp_all [TypeEntry.asClass?, name?, TypeEntry.name?]

/-- The index has each name of an entry that is not the keyword of a primitive. -/
theorem Indexed.lookupClass_isSome {t : TypeTable} (ht : t.Indexed) {id : TypeId} {name : String}
    (h : t.name? id = some name) (hname : Primitive.ofKeyword? name = none) :
    (t.lookupClass name).isSome := by
  obtain ⟨entry, he, hentry⟩ := Option.bind_eq_some_iff.1 h
  cases entry with
  | primitive p =>
    obtain rfl := Option.some.inj hentry
    simp [Primitive.ofKeyword?_keyword] at hname
  | classType c =>
    refine ht.complete id name ?_
    obtain rfl := Option.some.inj hentry
    simp [className?, classAt?, he, TypeEntry.asClass?]
  | _ => cases hentry

/-! ## Building the index -/

/-- An entry is a class of the name. -/
def isClassNamed (name : String) (e : TypeEntry × TypeId) : Bool :=
  (e.1.asClass?).map (·.name) == some name

/-- Enter a class entry under its name. -/
private def enter (index : ClassIndex) (e : TypeEntry × TypeId) : ClassIndex :=
  match e.1 with
  | .classType c => index.put c.name e.2
  | _ => index

private theorem find?_enter (index : ClassIndex) (e : TypeEntry × TypeId) (name : String) :
    (enter index e).find? name = if isClassNamed name e then some e.2 else index.find? name := by
  obtain ⟨entry, id⟩ := e
  cases entry <;> simp [enter, isClassNamed, TypeEntry.asClass?]

/-- Whatever the index has in the end was there at first or comes from an entry, the last of its
name. -/
private theorem find?_foldl_enter (es : List (TypeEntry × TypeId)) (index : ClassIndex)
    (name : String) :
    (es.foldl enter index).find? name =
      ((es.reverse.find? (isClassNamed name)).map (·.2)).or (index.find? name) := by
  induction es generalizing index with
  | nil => simp
  | cons e es ih =>
    rw [List.foldl_cons, ih, find?_enter, List.reverse_cons, List.find?_append]
    cases es.reverse.find? (isClassNamed name) with
    | some found => simp
    | none => cases he : isClassNamed name e <;> simp [he]

theorem lookupClass_reindex (t : TypeTable) (name : String) :
    t.reindex.lookupClass name =
      (t.entries.toList.zipIdx.reverse.find? (isClassNamed name)).map (·.2) := by
  have h := find?_foldl_enter t.entries.toList.zipIdx [] name
  simp only [ClassIndex.find?, Option.or_none] at h
  rw [← h]
  rfl

/-- A table whose index was built afresh is indexed. -/
theorem indexed_reindex (t : TypeTable) : t.reindex.Indexed := by
  have hname : ∀ id, t.reindex.className? id =
      (t.entries.toList[id]?.bind TypeEntry.asClass?).map (·.name) := by
    intro id
    simp [className?, classAt?, get?, reindex]
  constructor
  · intro name id h
    rw [lookupClass_reindex] at h
    obtain ⟨⟨entry, id'⟩, hfind, rfl⟩ := Option.map_eq_some_iff.1 h
    have hmem := List.mem_of_find?_eq_some hfind
    have hsat := List.find?_some hfind
    rw [List.mem_reverse, List.mem_zipIdx_iff_getElem?] at hmem
    rw [hname, hmem]
    exact beq_iff_eq.1 hsat
  · intro id name h
    rw [hname] at h
    rw [lookupClass_reindex, Option.isSome_map, List.find?_isSome]
    cases he : t.entries.toList[id]? with
    | none => simp [he] at h
    | some entry =>
      refine ⟨(entry, id), ?_, ?_⟩
      · rw [List.mem_reverse, List.mem_zipIdx_iff_getElem?]
        exact he
      · rw [he] at h
        exact beq_iff_eq.2 h

/-! ## Interning a class -/

theorem get?_internClass_of_size_le (t : TypeTable) (name : String)
    (owner : Option TypeId) {id : TypeId} (h : t.size ≤ id) {entry : TypeEntry}
    (he : (t.internClass name owner).2.get? id = some entry) :
    t.lookupClass name = none ∧ id = t.size ∧ entry = .classType ⟨name, owner⟩ := by
  have hnone : t.get? id = none := Array.getElem?_eq_none h
  unfold internClass at he
  cases hl : t.lookupClass name with
  | some old =>
    rw [hl] at he
    simp [hnone] at he
  | none =>
    rw [hl] at he
    have hpush : (t.push (.classType ⟨name, owner⟩)).get? id = some entry := he
    rw [get?_push] at hpush
    split at hpush
    · rename_i hid
      exact ⟨rfl, hid, (Option.some.inj hpush).symm⟩
    · simp [hnone] at hpush

@[simp]
theorem methodAt?_internClass (t : TypeTable) (name : String) (owner : Option TypeId)
    (id : TypeId) :
    (t.internClass name owner).2.methodAt? id = t.methodAt? id := by
  unfold methodAt?
  by_cases h : id < t.size
  · rw [get?_internClass t name owner h]
  · have hnone : t.get? id = none := Array.getElem?_eq_none (Nat.le_of_not_lt h)
    cases he : (t.internClass name owner).2.get? id with
    | none => simp [hnone]
    | some entry =>
      obtain ⟨-, -, rfl⟩ := get?_internClass_of_size_le t name owner (Nat.le_of_not_lt h) he
      simp [hnone, TypeEntry.asMethod?]

theorem className?_internClass (t : TypeTable) (name : String) (owner : Option TypeId) {id : TypeId}
    (h : id < t.size) : (t.internClass name owner).2.className? id = t.className? id := by
  simp only [className?, classAt?, get?_internClass t name owner h]

/-- A name that is there after interning was there before, or is the one interned. -/
theorem name?_internClass (t : TypeTable) (name : String) (owner : Option TypeId) {id : TypeId}
    {key : String} (hkey : key ≠ name) :
    (t.internClass name owner).2.name? id = some key ↔ t.name? id = some key := by
  unfold name?
  by_cases h : id < t.size
  · rw [get?_internClass t name owner h]
  · have hnone : t.get? id = none := Array.getElem?_eq_none (Nat.le_of_not_lt h)
    cases he : (t.internClass name owner).2.get? id with
    | none => simp [hnone]
    | some entry =>
      obtain ⟨-, -, rfl⟩ := get?_internClass_of_size_le t name owner (Nat.le_of_not_lt h) he
      simp [hnone, TypeEntry.name?, Ne.symm hkey]

theorem IndexSound.internClass {t : TypeTable} (ht : t.IndexSound) (name : String)
    (owner : Option TypeId) : (t.internClass name owner).2.IndexSound := by
  cases hl : t.lookupClass name with
  | some old =>
    have hsame : (t.internClass name owner).2 = t := by simp [TypeTable.internClass, hl]
    rw [hsame]
    exact ht
  | none =>
    have hfst : (t.internClass name owner).1 = t.size := by simp [TypeTable.internClass, hl]
    have hget : (t.internClass name owner).2.get? t.size = some (.classType ⟨name, owner⟩) := by
      have hpush := get?_push t (.classType ⟨name, owner⟩) t.size
      rw [if_pos rfl] at hpush
      unfold TypeTable.internClass
      rw [hl]
      exact hpush
    intro key id hkey
    rw [lookupClass_internClass, hfst] at hkey
    split at hkey
    · rename_i hk
      rw [← Option.some.inj hkey, ← hk]
      simp [className?, classAt?, hget, TypeEntry.asClass?]
    · have hold := ht _ _ hkey
      rwa [className?_internClass t name owner (lt_size_of_className? hold)]

/-! ## Renaming -/

/-- A rename either leaves the table, or takes the class of the old name to a free new one. -/
theorem renameClass_cases {t t' : TypeTable} {source target : String}
    (h : t.renameClass source target = some t') :
    (source = target ∧ t' = t) ∨
    ∃ id, source ≠ target ∧ t.lookupClass source = some id ∧ t.lookupClass target = none ∧
      t' = { t.modify id (fun
        | .classType c => .classType { c with name := target }
        | entry => entry) with classes := t.classes.rekey source target } := by
  unfold renameClass at h
  cases hs : t.lookupClass source with
  | none => simp [hs] at h
  | some id =>
    simp only [hs] at h
    split at h
    · rename_i hst
      exact .inl ⟨hst, (Option.some.inj h).symm⟩
    · rename_i hst
      split at h
      · simp at h
      · rename_i ht
        exact .inr ⟨id, hst, rfl, by simpa using ht, (Option.some.inj h).symm⟩

theorem lookupClass_renameClass {t t' : TypeTable} {source target : String}
    (h : t.renameClass source target = some t') (hne : source ≠ target) (name : String) :
    t'.lookupClass name =
      if name = target then t.lookupClass source
      else if name = source then none else t.lookupClass name := by
  rcases renameClass_cases h with ⟨hst, -⟩ | ⟨id, -, -, hfree, rfl⟩
  · exact absurd hst hne
  · exact ClassIndex.find?_rekey hfree name

theorem className?_renameClass {t t' : TypeTable} {source target : String}
    (h : t.renameClass source target = some t') (hne : source ≠ target) (id : TypeId) :
    t'.className? id =
      if t.lookupClass source = some id then (t.className? id).map fun _ => target
      else t.className? id := by
  rcases renameClass_cases h with ⟨hst, -⟩ | ⟨old, -, hold, -, rfl⟩
  · exact absurd hst hne
  · have hget := get?_modify t old id (fun
      | .classType c => .classType { c with name := target }
      | entry => entry)
    change ((_ : Option TypeEntry).bind TypeEntry.asClass?).map _ = _
    simp only [className?, classAt?, hold, Option.some.injEq]
    change (((t.modify old _).get? id).bind TypeEntry.asClass?).map _ = _
    rw [hget]
    by_cases hid : id = old
    · subst hid
      cases he : t.get? id with
      | none => simp
      | some entry => cases entry <;> simp [TypeEntry.asClass?]
    · simp [hid, Ne.symm hid]

/-- A rename concerns two names only. -/
theorem name?_renameClass {t t' : TypeTable} {source target : String} (ht : t.IndexSound)
    (h : t.renameClass source target = some t') {id : TypeId} {key : String}
    (hsource : key ≠ source) (htarget : key ≠ target) :
    t'.name? id = some key ↔ t.name? id = some key := by
  rcases renameClass_cases h with ⟨-, rfl⟩ | ⟨old, -, hold, -, rfl⟩
  · exact Iff.rfl
  · change ((t.modify old _).get? id).bind TypeEntry.name? = _ ↔ _
    rw [get?_modify]
    split
    · rename_i hid
      subst hid
      have hname := name?_of_className? (ht _ _ hold)
      rw [hname]
      have hclass := ht _ _ hold
      simp only [className?, classAt?, Option.map_eq_some_iff, Option.bind_eq_some_iff] at hclass
      obtain ⟨c, ⟨entry, hentry, hc⟩, -⟩ := hclass
      cases entry <;> simp [TypeEntry.asClass?] at hc
      simp [hentry, TypeEntry.name?, Ne.symm hsource, Ne.symm htarget]
    · rfl

theorem methodAt?_renameClass {t t' : TypeTable} {source target : String}
    (h : t.renameClass source target = some t') (id : TypeId) :
    t'.methodAt? id = t.methodAt? id := by
  rcases renameClass_cases h with ⟨-, rfl⟩ | ⟨old, -, -, -, rfl⟩
  · rfl
  · change ((t.modify old _).get? id).bind TypeEntry.asMethod? = _
    rw [get?_modify]
    split
    · unfold methodAt?
      cases t.get? id with
      | none => rfl
      | some entry => cases entry <;> rfl
    · rfl

theorem IndexSound.renameClass {t t' : TypeTable} {source target : String} (ht : t.IndexSound)
    (h : t.renameClass source target = some t') : t'.IndexSound := by
  by_cases hne : source = target
  · rcases renameClass_cases h with ⟨-, rfl⟩ | ⟨_, hst, _⟩
    · exact ht
    · exact absurd hne hst
  · intro name id hid
    rw [lookupClass_renameClass h hne] at hid
    rw [className?_renameClass h hne]
    split at hid
    · rename_i hnt
      rw [if_pos hid, ht _ _ hid, hnt]
      rfl
    · split at hid
      · simp at hid
      · rename_i hns
        have hname := ht _ _ hid
        have hother : t.lookupClass source ≠ some id := by
          intro hsid
          have hsource := ht _ _ hsid
          rw [hname] at hsource
          exact hns (Option.some.inj hsource)
        rw [if_neg hother, hname]

theorem methodAt?_renameMethod {t t' : TypeTable} {id : TypeId} {name : String}
    (h : t.renameMethod id name = some t') (id' : TypeId) :
    t'.methodAt? id' =
      if id' = id then (t.methodAt? id').map fun m => { m with name } else t.methodAt? id' := by
  simp only [renameMethod, Option.map_eq_some_iff] at h
  obtain ⟨m, hm, rfl⟩ := h
  unfold methodAt? at hm ⊢
  rw [get?_modify]
  split
  · rename_i hid
    subst hid
    cases he : t.get? id' with
    | none => simp [he] at hm
    | some entry =>
      have hentry : entry.asMethod? = some m := by simpa [he] using hm
      simp only [Option.map_some, Option.bind_some, hentry]
      rfl
  · rfl

theorem className?_renameMethod {t t' : TypeTable} {id : TypeId} {name : String}
    (h : t.renameMethod id name = some t') (id' : TypeId) :
    t'.className? id' = t.className? id' := by
  simp only [renameMethod, Option.map_eq_some_iff] at h
  obtain ⟨m, hm, rfl⟩ := h
  unfold className? classAt?
  rw [get?_modify]
  split
  · rename_i hid
    subst hid
    unfold methodAt? at hm
    cases he : t.get? id' with
    | none => rfl
    | some entry => cases entry <;> simp_all [TypeEntry.asMethod?, TypeEntry.asClass?]
  · rfl

theorem name?_renameMethod {t t' : TypeTable} {id : TypeId} {name : String}
    (h : t.renameMethod id name = some t') (id' : TypeId) : t'.name? id' = t.name? id' := by
  simp only [renameMethod, Option.map_eq_some_iff] at h
  obtain ⟨m, hm, rfl⟩ := h
  unfold name?
  rw [get?_modify]
  split
  · rename_i hid
    subst hid
    unfold methodAt? at hm
    cases he : t.get? id' with
    | none => rfl
    | some entry => cases entry <;> simp_all [TypeEntry.asMethod?, TypeEntry.name?]
  · rfl

theorem lookupClass_renameMethod {t t' : TypeTable} {id : TypeId} {name : String}
    (h : t.renameMethod id name = some t') (key : String) :
    t'.lookupClass key = t.lookupClass key := by
  simp only [renameMethod, Option.map_eq_some_iff] at h
  obtain ⟨m, -, rfl⟩ := h
  rfl

theorem IndexSound.renameMethod {t t' : TypeTable} {id : TypeId} {name : String} (ht : t.IndexSound)
    (h : t.renameMethod id name = some t') : t'.IndexSound := by
  intro key id' hkey
  rw [lookupClass_renameMethod h] at hkey
  rw [className?_renameMethod h]
  exact ht _ _ hkey

end TypeTable

end JavaRecipes
