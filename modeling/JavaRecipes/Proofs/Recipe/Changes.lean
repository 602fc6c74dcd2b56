import JavaRecipes.Recipe.Basic

/-!
What a run that went through leaves when it is merged into its batch: every file as the edits
planned for it make it, in its old place.
-/

namespace JavaRecipes

/-- A file without edits is its own result. -/
private theorem apply_of_isEmpty {s : EditSet} (h : s.isEmpty) (file : SourceFile) :
    s.apply file = .ok file := by
  have hnil : s.edits = [] := List.isEmpty_iff.1 h
  simp [EditSet.apply, EditSet.fault?, EditSet.faultAfter?, hnil, Draft.applyEdits]

/-- A change of one file sits at its position and is what the edits give. -/
private theorem changeFile_eq_ok {plan : Nat → SourceFile → EditSet} {index : Nat}
    {file : SourceFile} {change : Option FileChange} (h : changeFile plan index file = .ok change) :
    (change = none ∧ (plan index file).apply file = .ok file) ∨
      ∃ c, change = some c ∧ c.index = index ∧ (plan index file).apply file = .ok c.after := by
  unfold changeFile at h
  by_cases hempty : (plan index file).isEmpty
  · simp only [hempty, if_true] at h
    exact .inl ⟨(Except.ok.inj h).symm, apply_of_isEmpty hempty file⟩
  · simp only [hempty] at h
    cases happly : (plan index file).apply file with
    | error e => simp [happly] at h
    | ok after =>
      simp only [happly] at h
      exact .inr ⟨_, (Except.ok.inj h).symm, rfl, rfl⟩

/-- The files before the position of the run are not touched. -/
private theorem merge_changeFilesFrom {plan : Nat → SourceFile → EditSet} {files before : Batch}
    {changes : List FileChange} (h : changeFilesFrom plan before.length files = .ok changes) :
    ∃ files', merge (before ++ files) changes = before ++ files' ∧ files'.length = files.length ∧
      ∀ i f, files[i]? = some f →
        ∃ g, files'[i]? = some g ∧ (plan (before.length + i) f).apply f = .ok g := by
  induction files generalizing before changes with
  | nil =>
    obtain rfl := Except.ok.inj h
    exact ⟨[], rfl, rfl, by simp⟩
  | cons file files ih =>
    simp only [changeFilesFrom] at h
    cases hchange : changeFile plan before.length file with
    | error e => simp [hchange] at h
    | ok change =>
      simp only [hchange] at h
      cases hrest : changeFilesFrom plan (before.length + 1) files with
      | error e => simp [hrest] at h
      | ok rest =>
        simp only [hrest] at h
        obtain rfl := Except.ok.inj h
        obtain ⟨g, hg, hmerge⟩ : ∃ g, (plan before.length file).apply file = .ok g ∧
            merge (before ++ file :: files) (change.toList ++ rest) =
              merge ((before ++ [g]) ++ files) rest := by
          rcases changeFile_eq_ok hchange with ⟨rfl, happly⟩ | ⟨c, rfl, hindex, happly⟩
          · exact ⟨file, happly, by simp [merge]⟩
          · exact ⟨c.after, happly, by simp [merge, hindex]⟩
        have hlength : (before ++ [g]).length = before.length + 1 := by simp
        rw [← hlength] at hrest
        obtain ⟨files', hfiles', hlen, hget⟩ := ih hrest
        refine ⟨g :: files', ?_, by simp [hlen], ?_⟩
        · rw [hmerge, hfiles']
          simp
        · intro i f hi
          cases i with
          | zero =>
            obtain rfl : file = f := by simpa using hi
            exact ⟨g, rfl, hg⟩
          | succ i =>
            obtain ⟨g', hg', happly⟩ := hget i f (by simpa using hi)
            refine ⟨g', by simpa using hg', ?_⟩
            rw [hlength] at happly
            rwa [Nat.add_assoc, Nat.add_comm 1 i] at happly

/-- Every file of a merged run is what its edits make of the file that was there. -/
theorem merge_changeFiles {plan : Nat → SourceFile → EditSet} {batch : Batch}
    {changes : List FileChange} (h : changeFiles plan batch = .ok changes) :
    (merge batch changes).length = batch.length ∧
      ∀ i f, batch[i]? = some f →
        ∃ g, (merge batch changes)[i]? = some g ∧ (plan i f).apply f = .ok g := by
  have hfrom : changeFilesFrom plan ([] : Batch).length batch = .ok changes := h
  obtain ⟨files', hmerge, hlength, hget⟩ := merge_changeFilesFrom hfrom
  have hmerge' : merge batch changes = files' := by simpa using hmerge
  rw [hmerge']
  refine ⟨hlength, fun i f hi => ?_⟩
  simpa using hget i f hi

/-- A run over one file gives that file as its edits make it. -/
theorem exists_merge_singleton {plan : Nat → SourceFile → EditSet} {f : SourceFile}
    {changes : List FileChange} (h : changeFiles plan [f] = .ok changes) :
    ∃ g, merge [f] changes = [g] ∧ (plan 0 f).apply f = .ok g := by
  obtain ⟨hlength, hget⟩ := merge_changeFiles h
  obtain ⟨g, hg, happly⟩ := hget 0 f rfl
  obtain ⟨g', heq⟩ := List.length_eq_one_iff.1 hlength
  rw [heq] at hg
  obtain rfl := Option.some.inj hg
  exact ⟨_, heq, happly⟩

/-- And it comes from a file that was there. -/
theorem exists_of_getElem?_merge {plan : Nat → SourceFile → EditSet} {batch : Batch}
    {changes : List FileChange} (h : changeFiles plan batch = .ok changes) {i : Nat}
    {g : SourceFile} (hg : (merge batch changes)[i]? = some g) :
    ∃ f, batch[i]? = some f ∧ (plan i f).apply f = .ok g := by
  obtain ⟨hlength, hget⟩ := merge_changeFiles h
  have hi : i < batch.length := by
    rw [← hlength]
    exact (List.getElem?_eq_some_iff.1 hg).1
  obtain ⟨f, hf⟩ : ∃ f, batch[i]? = some f := ⟨batch[i], List.getElem?_eq_getElem hi⟩
  obtain ⟨g', hg', happly⟩ := hget i f hf
  rw [hg] at hg'
  obtain rfl := Option.some.inj hg'
  exact ⟨f, hf, happly⟩

/-- A run that plans nothing changes nothing. -/
theorem changeFiles_eq_nil {plan : Nat → SourceFile → EditSet} {batch : Batch}
    (h : ∀ (i : Nat) (f : SourceFile), batch[i]? = some f → (plan i f).edits = []) :
    changeFiles plan batch = .ok [] := by
  have hfrom : ∀ (files : Batch) (index : Nat),
      (∀ (i : Nat) (f : SourceFile), files[i]? = some f → (plan (index + i) f).edits = []) →
      changeFilesFrom plan index files = .ok [] := by
    intro files
    induction files with
    | nil => exact fun _ _ => rfl
    | cons f files ih =>
      intro index hfiles
      have hfile : (plan index f).edits = [] := hfiles 0 f rfl
      have hrest := ih (index + 1) fun i g hg => by
        have := hfiles (i + 1) g (by simpa using hg)
        rwa [Nat.add_assoc, Nat.add_comm 1 i]
      simp [changeFilesFrom, changeFile, EditSet.isEmpty, hfile, hrest]
  exact hfrom batch 0 fun i f hf => by simpa using h i f hf

end JavaRecipes
