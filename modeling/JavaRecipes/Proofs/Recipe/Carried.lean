import JavaRecipes.Proofs.Types.Index
import JavaRecipes.Recipe.RenameBean

/-!
Several class renames on one type table. Each of them was checked against the table as it was at
first, so a later one can still find its class renamed already, or its new name taken; it is then
left out without a word. `carryOut` tells which renames go through, and `Stage` what the table is
after them.
-/

namespace JavaRecipes

namespace ClassRename

/-- A rename that fits a table: its class is there, and its new name is free. -/
def Fits (c : ClassRename) (t : TypeTable) : Prop :=
  (t.lookupClass c.source).isSome ∧ (c.source ≠ c.target → t.lookupClass c.target = none)

/-- Nothing comes of a rename after others: it changes nothing, its class was renamed before, or its
name is one of those that came up since. -/
def Blocked (taken : List String) (done : List ClassRename) (c : ClassRename) : Prop :=
  c.source = c.target ∨ c.source ∈ done.map source ∨ c.target ∈ done.map target ∨ c.target ∈ taken

instance (taken : List String) (done : List ClassRename) (c : ClassRename) :
    Decidable (Blocked taken done c) :=
  inferInstanceAs (Decidable (_ ∨ _ ∨ _ ∨ _))

/-- The renames that go through, after those that did already. -/
def carryOut (taken : List String) (done : List ClassRename) : List ClassRename → List ClassRename
  | [] => done
  | c :: cs => carryOut taken (if Blocked taken done c then done else done ++ [c]) cs

/-- The name that a list of renames gives the class `name`. -/
def settle (done : List ClassRename) (name : String) : String :=
  ((done.find? (·.source = name)).map target).getD name

/-- Make the renames on a table, each if it is possible by then. -/
def renameAll (t : TypeTable) (cs : List ClassRename) : TypeTable :=
  cs.foldl (fun t c => (t.renameClass c.source c.target).getD t) t

theorem settle_append_of_ne {done : List ClassRename} {c : ClassRename} {name : String}
    (h : c.source ≠ name) : settle (done ++ [c]) name = settle done name := by
  simp [settle, List.find?_append, h]

theorem settle_append_self {done : List ClassRename} {c : ClassRename}
    (h : c.source ∉ done.map source) :
    settle done c.source = c.source ∧ settle (done ++ [c]) c.source = c.target := by
  have hnone : done.find? (·.source = c.source) = none := by
    refine List.find?_eq_none.2 fun a ha => ?_
    simpa using fun heq => h (List.mem_map.2 ⟨a, ha, heq⟩)
  simp [settle, List.find?_append, hnone]

/-- A class that gets another name gets it from one of the renames. -/
theorem settle_cases (done : List ClassRename) (name : String) :
    settle done name = name ∨ ∃ c ∈ done, c.source = name ∧ settle done name = c.target := by
  unfold settle
  cases hfind : done.find? (·.source = name) with
  | none => exact .inl rfl
  | some c =>
    refine .inr ⟨c, List.mem_of_find?_eq_some hfind, ?_, rfl⟩
    simpa using List.find?_some hfind

/-- Renames that went through are of the list, change something, and have different new names. -/
theorem carryOut_spec {taken : List String} {done cs : List ClassRename}
    (hdone : (done.map target).Nodup ∧ ∀ c ∈ done, c.source ≠ c.target) :
    ((carryOut taken done cs).map target).Nodup ∧
      ∀ c ∈ carryOut taken done cs, c.source ≠ c.target ∧ (c ∈ done ∨ c ∈ cs) := by
  induction cs generalizing done with
  | nil => exact ⟨hdone.1, fun c hc => ⟨hdone.2 c hc, .inl hc⟩⟩
  | cons c cs ih =>
    rw [carryOut]
    by_cases hblocked : Blocked taken done c
    · rw [if_pos hblocked]
      obtain ⟨hnodup, hmem⟩ := ih hdone
      refine ⟨hnodup, fun a ha => ⟨(hmem a ha).1, ?_⟩⟩
      exact (hmem a ha).2.imp id (List.mem_cons_of_mem _)
    · rw [if_neg hblocked]
      simp only [Blocked, not_or] at hblocked
      have hnew : ((done ++ [c]).map target).Nodup ∧ ∀ a ∈ done ++ [c], a.source ≠ a.target := by
        constructor
        · rw [List.map_append, List.nodup_append]
          refine ⟨hdone.1, by simp, ?_⟩
          rintro a ha b hb rfl
          rw [List.map_singleton, List.mem_singleton] at hb
          exact hblocked.2.2.1 (hb ▸ ha)
        · intro a ha
          rcases List.mem_append.1 ha with ha | ha
          · exact hdone.2 a ha
          · rw [List.mem_singleton.1 ha]
            exact hblocked.1
      obtain ⟨hnodup, hmem⟩ := ih hnew
      refine ⟨hnodup, fun a ha => ⟨(hmem a ha).1, ?_⟩⟩
      rcases (hmem a ha).2 with ha | ha
      · rcases List.mem_append.1 ha with ha | ha
        · exact .inl ha
        · exact .inr (by simp [List.mem_singleton.1 ha])
      · exact .inr (List.mem_cons_of_mem _ ha)

/-! ## A table on its way -/

/-- The table `t` is what has become of `t₀` when some renames are done and some names have come
up. -/
structure Stage (t₀ t : TypeTable) (taken : List String) (done : List ClassRename) : Prop where
  /-- Names that nothing was done to. -/
  same : ∀ name, name ∉ done.map source → name ∉ done.map target → name ∉ taken →
    t.lookupClass name = t₀.lookupClass name
  gone : ∀ name ∈ done.map source, t.lookupClass name = none
  came : ∀ name, name ∈ done.map target ∨ name ∈ taken → (t.lookupClass name).isSome
  names : ∀ id name, t₀.className? id = some name →
    t.className? id = some (if t₀.lookupClass name = some id then settle done name else name)

namespace Stage

variable {t₀ t : TypeTable} {taken : List String} {done : List ClassRename}

/-- A rename that is blocked leaves the table. -/
theorem renameClass_of_blocked (h : Stage t₀ t taken done) {c : ClassRename}
    (hblocked : Blocked taken done c) : (t.renameClass c.source c.target).getD t = t := by
  cases hr : t.renameClass c.source c.target with
  | none => rfl
  | some t' =>
    rcases TypeTable.renameClass_cases hr with ⟨-, rfl⟩ | ⟨id, hne, hsource, htarget, -⟩
    · rfl
    · rcases hblocked with heq | hspent | hcame
      · exact absurd heq hne
      · simp [h.gone _ hspent] at hsource
      · simpa [htarget] using h.came _ hcame

/-- Names that were given or had come up were not in the first index. -/
private theorem lookupClass_of_given (hdone : ∀ a ∈ done, a.Fits t₀ ∧ a.source ≠ a.target)
    (htaken : ∀ name ∈ taken, t₀.lookupClass name = none) {name : String}
    (hname : name ∈ done.map target ∨ name ∈ taken) : t₀.lookupClass name = none := by
  rcases hname with hname | hname
  · obtain ⟨a, ha, rfl⟩ := List.mem_map.1 hname
    exact (hdone a ha).1.2 (hdone a ha).2
  · exact htaken name hname

/-- The new name is not one that was given up: those were in the first index. -/
private theorem target_not_mem_sources (hdone : ∀ a ∈ done, a.Fits t₀ ∧ a.source ≠ a.target)
    {c : ClassRename} (hc : c.Fits t₀) (hne : c.source ≠ c.target) :
    c.target ∉ done.map source := by
  intro hmem
  obtain ⟨a, ha, heq⟩ := List.mem_map.1 hmem
  have hsome := (hdone a ha).1.1
  rw [heq, hc.2 hne] at hsome
  simp at hsome

/-- A rename that is not blocked finds its class where it was at first, and its new name free. -/
private theorem exists_renameClass (h : Stage t₀ t taken done)
    (hdone : ∀ a ∈ done, a.Fits t₀ ∧ a.source ≠ a.target)
    (htaken : ∀ name ∈ taken, t₀.lookupClass name = none) {c : ClassRename} (hc : c.Fits t₀)
    (hfree : ¬ Blocked taken done c) :
    ∃ id t', t₀.lookupClass c.source = some id ∧ t.lookupClass c.source = some id ∧
      t.renameClass c.source c.target = some t' := by
  simp only [Blocked, not_or] at hfree
  obtain ⟨hne, hspent, htarget, hnew⟩ := hfree
  obtain ⟨id, hid⟩ := Option.isSome_iff_exists.1 hc.1
  have hnot : ¬ (c.source ∈ done.map target ∨ c.source ∈ taken) := by
    intro hgiven
    rw [lookupClass_of_given hdone htaken hgiven] at hid
    cases hid
  obtain ⟨hgiven, hcame⟩ := not_or.1 hnot
  have hsource : t.lookupClass c.source = some id := by
    rw [h.same _ hspent hgiven hcame, hid]
  have htargetNone : t.lookupClass c.target = none := by
    rw [h.same _ (target_not_mem_sources hdone hc hne) htarget hnew, hc.2 hne]
  obtain ⟨t', ht'⟩ : ∃ t', t.renameClass c.source c.target = some t' := by
    simp [TypeTable.renameClass, hsource, hne, htargetNone]
  exact ⟨id, t', hid, hsource, ht'⟩

/-- A rename that is not blocked goes through. -/
theorem renameClass (h : Stage t₀ t taken done) (hsound : t₀.IndexSound)
    (hdone : ∀ a ∈ done, a.Fits t₀ ∧ a.source ≠ a.target)
    (htaken : ∀ name ∈ taken, t₀.lookupClass name = none) {c : ClassRename} (hc : c.Fits t₀)
    (hfree : ¬ Blocked taken done c) :
    Stage t₀ ((t.renameClass c.source c.target).getD t) taken (done ++ [c]) := by
  obtain ⟨id, t', hid, hsource, ht'⟩ := h.exists_renameClass hdone htaken hc hfree
  simp only [Blocked, not_or] at hfree
  obtain ⟨hne, hspent, -, -⟩ := hfree
  have hlookup := TypeTable.lookupClass_renameClass ht' hne
  rw [ht', Option.getD_some]
  constructor
  · intro name hns hnt hnk
    simp only [List.map_append, List.map_singleton, List.mem_append, List.mem_singleton,
      not_or] at hns hnt
    rw [hlookup, if_neg hnt.2, if_neg hns.2, h.same name hns.1 hnt.1 hnk]
  · intro name hname
    rw [List.map_append, List.mem_append, List.map_singleton, List.mem_singleton] at hname
    have hnt : name ≠ c.target := by
      rintro rfl
      rcases hname with hname | hname
      · exact target_not_mem_sources hdone hc hne hname
      · exact hne hname.symm
    rw [hlookup, if_neg hnt]
    rcases hname with hname | hname
    · split
      · rfl
      · exact h.gone name hname
    · rw [if_pos hname]
  · intro name hname
    rw [hlookup]
    by_cases hnt : name = c.target
    · rw [if_pos hnt, hsource]
      rfl
    · have hcame : name ∈ done.map target ∨ name ∈ taken := by
        simpa [hnt] using hname
      have hns : name ≠ c.source := by
        rintro rfl
        rw [lookupClass_of_given hdone htaken hcame] at hid
        cases hid
      rw [if_neg hnt, if_neg hns]
      exact h.came name hcame
  · intro id' name hname
    rw [TypeTable.className?_renameClass ht' hne, h.names id' name hname, hsource]
    by_cases hid' : id = id'
    · subst hid'
      have heq := hsound _ _ hid
      rw [hname] at heq
      obtain rfl := Option.some.inj heq
      simp [hid, settle_append_self hspent]
    · have hid'' : ¬ some id = some id' := by simpa using hid'
      rw [if_neg hid'']
      by_cases hl : t₀.lookupClass name = some id'
      · have hns : c.source ≠ name := by
          rintro rfl
          rw [hid] at hl
          exact hid'' hl
        simp [hl, settle_append_of_ne hns]
      · simp [hl]

/-- The table after all renames. -/
theorem renameAll (h : Stage t₀ t taken done) (hsound : t₀.IndexSound)
    (hdone : ∀ a ∈ done, a.Fits t₀ ∧ a.source ≠ a.target)
    (htaken : ∀ name ∈ taken, t₀.lookupClass name = none) {cs : List ClassRename}
    (hcs : ∀ c ∈ cs, c.Fits t₀) :
    Stage t₀ (ClassRename.renameAll t cs) taken (carryOut taken done cs) := by
  induction cs generalizing t done with
  | nil => exact h
  | cons c cs ih =>
    have hc := hcs c List.mem_cons_self
    have hrest : ∀ a ∈ cs, a.Fits t₀ := fun a ha => hcs a (List.mem_cons_of_mem _ ha)
    rw [carryOut, ClassRename.renameAll, List.foldl_cons]
    by_cases hblocked : Blocked taken done c
    · rw [if_pos hblocked, h.renameClass_of_blocked hblocked]
      exact ih h hdone hrest
    · rw [if_neg hblocked]
      refine ih (h.renameClass hsound hdone htaken hc hblocked) ?_ hrest
      intro a ha
      rcases List.mem_append.1 ha with ha | ha
      · exact hdone a ha
      · rw [List.mem_singleton.1 ha]
        exact ⟨hc, fun heq => hblocked (.inl heq)⟩

end Stage

end ClassRename

end JavaRecipes
