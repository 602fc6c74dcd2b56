import JavaRecipes.Proofs.Recipe.Changes

/-!
What a run reports: when it goes through, and which change it has for each position. The changes
stand in the order of the batch, at most one for a file, and a file without edits has none.
-/

namespace JavaRecipes

/-- A change of the file: the edits planned for it, of which there are some, and what they make of
it. -/
structure FileChange.Made (plan : Nat → SourceFile → EditSet) (file : SourceFile)
    (c : FileChange) : Prop where
  planned : c.edits = plan c.index file
  nonempty : c.edits.edits ≠ []
  applied : c.edits.apply file = .ok c.after

variable {plan : Nat → SourceFile → EditSet} {batch : Batch} {changes : List FileChange}

private theorem mem_changeFile {index : Nat} {file : SourceFile} {change : Option FileChange}
    (h : changeFile plan index file = .ok change) (c : FileChange) :
    change = some c ↔ c.index = index ∧ c.Made plan file := by
  unfold changeFile at h
  by_cases hempty : (plan index file).edits = []
  · simp only [EditSet.isEmpty, hempty, List.isEmpty_nil, if_true] at h
    obtain rfl := Except.ok.inj h
    constructor
    · intro hc
      cases hc
    · rintro ⟨rfl, hmade⟩
      exact absurd (hmade.planned ▸ hempty) hmade.nonempty
  · simp only [EditSet.isEmpty, List.isEmpty_iff, hempty, if_false] at h
    cases happly : (plan index file).apply file with
    | error e => simp [happly] at h
    | ok after =>
      simp only [happly] at h
      obtain rfl := Except.ok.inj h
      constructor
      · intro hc
        obtain rfl := Option.some.inj hc
        exact ⟨rfl, rfl, hempty, happly⟩
      · rintro ⟨rfl, hmade⟩
        have hafter : c.after = after :=
          Except.ok.inj (hmade.applied.symm.trans (hmade.planned ▸ happly))
        rw [← hafter, ← hmade.planned]

/-- The changes from a position on are those of the files there, in order. -/
private theorem mem_changeFilesFrom {files : Batch} {index : Nat}
    (h : changeFilesFrom plan index files = .ok changes) :
    changes.Pairwise (·.index < ·.index) ∧
      ∀ c, c ∈ changes ↔
        index ≤ c.index ∧ ∃ f, files[c.index - index]? = some f ∧ c.Made plan f := by
  induction files generalizing index changes with
  | nil =>
    obtain rfl := Except.ok.inj h
    exact ⟨.nil, by simp⟩
  | cons file files ih =>
    simp only [changeFilesFrom] at h
    cases hchange : changeFile plan index file with
    | error e => simp [hchange] at h
    | ok change =>
      simp only [hchange] at h
      cases hrest : changeFilesFrom plan (index + 1) files with
      | error e => simp [hrest] at h
      | ok rest =>
        simp only [hrest] at h
        obtain rfl := Except.ok.inj h
        obtain ⟨hsorted, hmem⟩ := ih hrest
        refine ⟨List.pairwise_append.2 ⟨by cases change <;> simp, hsorted, fun a ha b hb => ?_⟩,
          fun c => ?_⟩
        · have hindex := ((mem_changeFile hchange a).1 (Option.mem_toList.1 ha)).1
          have hle := ((hmem b).1 hb).1
          omega
        · rw [List.mem_append, Option.mem_toList, mem_changeFile hchange, hmem]
          constructor
          · rintro (⟨rfl, hmade⟩ | ⟨hle, f, hf, hmade⟩)
            · exact ⟨Nat.le_refl _, file, by simp, hmade⟩
            · obtain ⟨k, hk⟩ : ∃ k, c.index = index + 1 + k := ⟨c.index - (index + 1), by omega⟩
              refine ⟨by omega, f, ?_, hmade⟩
              rw [hk, Nat.add_sub_cancel_left] at hf
              rwa [hk, Nat.add_assoc, Nat.add_sub_cancel_left, Nat.add_comm,
                List.getElem?_cons_succ]
          · rintro ⟨hle, f, hf, hmade⟩
            obtain ⟨k, hk⟩ : ∃ k, c.index = index + k := ⟨c.index - index, by omega⟩
            rw [hk, Nat.add_sub_cancel_left] at hf
            cases k with
            | zero =>
              obtain rfl : file = f := by simpa using hf
              exact .inl ⟨hk, hmade⟩
            | succ k =>
              refine .inr ⟨by omega, f, ?_, hmade⟩
              have hindex : c.index - (index + 1) = k := by omega
              rwa [hindex]

/-- The changes stand in the order of their files. -/
theorem pairwise_changeFiles (h : changeFiles plan batch = .ok changes) :
    changes.Pairwise (·.index < ·.index) :=
  (mem_changeFilesFrom h).1

theorem mem_changeFiles (h : changeFiles plan batch = .ok changes) (c : FileChange) :
    c ∈ changes ↔ ∃ f, batch[c.index]? = some f ∧ c.Made plan f := by
  simpa using (mem_changeFilesFrom h).2 c

/-- A run goes through when the edits of every file can be applied. -/
theorem changeFiles_ok_iff :
    (∃ changes, changeFiles plan batch = .ok changes) ↔
      ∀ i f, batch[i]? = some f → ∃ g, (plan i f).apply f = .ok g := by
  constructor
  · rintro ⟨changes, h⟩ i f hi
    obtain ⟨g, -, happly⟩ := (merge_changeFiles h).2 i f hi
    exact ⟨g, happly⟩
  · have hfrom : ∀ (files : Batch) (index : Nat),
        (∀ i f, files[i]? = some f → ∃ g, (plan (index + i) f).apply f = .ok g) →
        ∃ changes, changeFilesFrom plan index files = .ok changes := by
      intro files
      induction files with
      | nil => exact fun _ _ => ⟨[], rfl⟩
      | cons f files ih =>
        intro index hfiles
        obtain ⟨g, hg⟩ : ∃ g, (plan index f).apply f = .ok g := hfiles 0 f rfl
        obtain ⟨changes, hchanges⟩ := ih (index + 1) fun i f' hf' => by
          have := hfiles (i + 1) f' (by simpa using hf')
          rwa [Nat.add_assoc, Nat.add_comm 1 i]
        by_cases hempty : (plan index f).isEmpty
        · exact ⟨_, by simp only [changeFilesFrom, changeFile, hempty, if_true, hchanges]; rfl⟩
        · exact ⟨_, by simp only [changeFilesFrom, changeFile, hempty, hg, hchanges]; rfl⟩
    exact fun h => hfrom batch 0 fun i f hi => by simpa using h i f hi

theorem changeFiles_singleton_ok_iff {f : SourceFile} :
    (∃ changes, changeFiles plan [f] = .ok changes) ↔ ∃ g, (plan 0 f).apply f = .ok g := by
  refine changeFiles_ok_iff.trans ⟨fun h => h 0 f rfl, fun h i f' hi => ?_⟩
  obtain ⟨rfl, rfl⟩ : i = 0 ∧ f' = f := by
    cases i with
    | zero => exact ⟨rfl, (Option.some.inj hi).symm⟩
    | succ i => cases hi
  exact h

/-! ## The change at a position -/

/-- The change that a run reports at a position. -/
def changeAt? (changes : List FileChange) (i : Nat) : Option FileChange :=
  changes.find? (·.index = i)

/-- The edits that a run reports at a position. -/
def editsAt (changes : List FileChange) (i : Nat) : List Edit :=
  ((changeAt? changes i).map (·.edits.edits)).getD []

theorem changeAt?_eq_some (h : changeFiles plan batch = .ok changes) {i : Nat} {c : FileChange} :
    changeAt? changes i = some c ↔ c ∈ changes ∧ c.index = i := by
  constructor
  · intro hc
    exact ⟨List.mem_of_find?_eq_some hc, by simpa using List.find?_some hc⟩
  · rintro ⟨hc, rfl⟩
    obtain ⟨c', hc'⟩ : ∃ c', changeAt? changes c.index = some c' :=
      Option.isSome_iff_exists.1 (List.find?_isSome.2 ⟨c, hc, by simp⟩)
    have hindex : c'.index = c.index := by simpa using List.find?_some hc'
    obtain ⟨f, hf, hmade⟩ := (mem_changeFiles h c).1 hc
    obtain ⟨f', hf', hmade'⟩ := (mem_changeFiles h c').1 (List.mem_of_find?_eq_some hc')
    rw [hindex, hf] at hf'
    obtain rfl := Option.some.inj hf'
    have hedits : c'.edits = c.edits := by rw [hmade'.planned, hmade.planned, hindex]
    have hafter : c'.after = c.after :=
      Except.ok.inj (hmade'.applied.symm.trans (hedits ▸ hmade.applied))
    obtain ⟨index, edits, after⟩ := c
    obtain ⟨index', edits', after'⟩ := c'
    obtain rfl : index' = index := hindex
    obtain rfl : edits' = edits := hedits
    obtain rfl : after' = after := hafter
    exact hc'

/-- What a run reports at the position of a file. -/
theorem changeAt?_changeFiles (h : changeFiles plan batch = .ok changes) {i : Nat} {f : SourceFile}
    (hi : batch[i]? = some f) :
    ((plan i f).edits = [] ∧ changeAt? changes i = none) ∨
      ∃ g, (plan i f).edits ≠ [] ∧ (plan i f).apply f = .ok g ∧
        changeAt? changes i = some ⟨i, plan i f, g⟩ := by
  by_cases hempty : (plan i f).edits = []
  · refine .inl ⟨hempty, Option.eq_none_iff_forall_ne_some.2 fun c hc => ?_⟩
    obtain ⟨hmem, rfl⟩ := (changeAt?_eq_some h).1 hc
    obtain ⟨f', hf', hmade⟩ := (mem_changeFiles h c).1 hmem
    obtain rfl := Option.some.inj (hi.symm.trans hf')
    exact hmade.nonempty (hmade.planned ▸ hempty)
  · obtain ⟨g, -, happly⟩ := (merge_changeFiles h).2 i f hi
    exact .inr ⟨g, hempty, happly,
      (changeAt?_eq_some h).2 ⟨(mem_changeFiles h _).2 ⟨f, hi, rfl, hempty, happly⟩, rfl⟩⟩

theorem isSome_changeAt?_iff (h : changeFiles plan batch = .ok changes) {i : Nat} {f : SourceFile}
    (hi : batch[i]? = some f) : (changeAt? changes i).isSome ↔ (plan i f).edits ≠ [] := by
  obtain ⟨hempty, hnone⟩ | ⟨g, hedits, -, hsome⟩ := changeAt?_changeFiles h hi
  · simp [hnone, hempty]
  · simp [hsome, hedits]

/-- The edits reported at the position of a file are those planned for it. -/
theorem editsAt_changeFiles (h : changeFiles plan batch = .ok changes) {i : Nat} {f : SourceFile}
    (hi : batch[i]? = some f) : editsAt changes i = (plan i f).edits := by
  obtain ⟨hempty, hnone⟩ | ⟨g, -, -, hsome⟩ := changeAt?_changeFiles h hi
  · simp [editsAt, hnone, hempty]
  · simp [editsAt, hsome]

theorem editsAt_of_length_le (h : changeFiles plan batch = .ok changes) {i : Nat}
    (hi : batch.length ≤ i) : editsAt changes i = [] := by
  have hnone : changeAt? changes i = none := by
    refine Option.eq_none_iff_forall_ne_some.2 fun c hc => ?_
    obtain ⟨hmem, rfl⟩ := (changeAt?_eq_some h).1 hc
    obtain ⟨f, hf, -⟩ := (mem_changeFiles h c).1 hmem
    rw [List.getElem?_eq_none hi] at hf
    cases hf
  simp [editsAt, hnone]

end JavaRecipes
