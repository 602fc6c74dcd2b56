import JavaRecipes.Command.FileSystem

/-!
What making directories and writing files does to a file system: directories stay, and a file is as
it was or has a text that was written to it (`FileSystem.Advance`). So paths lead where they led,
and a path gives the text that was written last to its place (`Advance.read?`).
-/

namespace JavaRecipes

namespace FileSystem

/-- `after` comes from `before` by making directories and writing these texts. -/
structure Advance (before after : FileSystem) (writes : List (Location × String)) : Prop where
  base : after.base = before.base
  directory : ∀ {l}, before.entry? l = some .directory → after.entry? l = some .directory
  file : ∀ l, after.files.lookup l = before.files.lookup l ∨
    ∃ text, (l, text) ∈ writes ∧ after.files.lookup l = some (some text)

/-! ## Entries -/

theorem entry?_eq_file_iff {fs : FileSystem} {l : Location} {text : Option String} :
    fs.entry? l = some (.file text) ↔ fs.files.lookup l = some text := by
  unfold entry?
  split
  · rename_i found hfound
    simp [hfound]
  · rename_i hnone
    split <;> simp [hnone]

theorem entry?_eq_directory_iff {fs : FileSystem} {l : Location} :
    fs.entry? l = some .directory ↔ fs.files.lookup l = none ∧
      (l.isPrefixOf fs.base = true ∨ fs.dirs.any l.isPrefixOf = true ∨
        fs.files.any (l.isPrefixOf ·.1) = true) := by
  unfold entry?
  split
  · rename_i found hfound
    simp [hfound]
  · rename_i hnone
    rw [hnone, ← Bool.or_eq_true, ← Bool.or_eq_true, ← Bool.or_assoc]
    split
    · rename_i hheld
      simp [hheld]
    · rename_i hheld
      simp [hheld]

theorem any_put (p : Location → Bool) (l : Location) (text : Option String)
    (files : List (Location × Option String)) (h : files.any (p ·.1) = true) :
    (put l text files).any (p ·.1) = true := by
  induction files with
  | nil => cases h
  | cons f files ih =>
    obtain ⟨k, old⟩ := f
    by_cases hk : k = l
    · simpa [put, hk] using h
    · simp only [put, if_neg hk, List.any_cons, Bool.or_eq_true] at h ⊢
      exact h.imp_right ih

/-! ## Advances -/

theorem place_congr {fs fs' : FileSystem} (h : fs'.base = fs.base) (p : String) :
    fs'.place p = fs.place p := by
  simp only [place, origin, h]

namespace Advance

variable {fs fs' fs'' : FileSystem} {writes writes' : List (Location × String)}

theorem refl (fs : FileSystem) : fs.Advance fs [] := ⟨rfl, id, fun _ => .inl rfl⟩

theorem trans (h : fs.Advance fs' writes) (h' : fs'.Advance fs'' writes') :
    fs.Advance fs'' (writes ++ writes') where
  base := h'.base.trans h.base
  directory hl := h'.directory (h.directory hl)
  file l := by
    rcases h'.file l with heq | ⟨text, hmem, hnew⟩
    · rw [heq]
      exact (h.file l).imp_right fun ⟨text, hmem, hnew⟩ => ⟨text, List.mem_append_left _ hmem, hnew⟩
    · exact .inr ⟨text, List.mem_append_right _ hmem, hnew⟩

theorem subset (h : fs.Advance fs' writes) (hsub : writes ⊆ writes') : fs.Advance fs' writes' :=
  ⟨h.base, h.directory,
    fun l => (h.file l).imp_right fun ⟨text, hmem, hnew⟩ => ⟨text, hsub hmem, hnew⟩⟩

theorem place (h : fs.Advance fs' writes) (p : String) : fs'.place p = fs.place p :=
  place_congr h.base p

theorem follow {l l' : Location} {names : List String} (h : fs.Advance fs' writes)
    (hl : fs.follow l names = some l') : fs'.follow l names = some l' := by
  induction names generalizing l with
  | nil => exact hl
  | cons name names ih =>
    simp only [FileSystem.follow] at hl ⊢
    split at hl
    · rename_i hdir
      rw [if_pos (h.directory hdir)]
      exact ih hl
    · cases hl

theorem locate? {p : String} {l : Location} (h : fs.Advance fs' writes)
    (hl : fs.locate? p = some l) :
    fs'.locate? p = some l := by
  have horigin : fs'.origin p = fs.origin p := by rw [origin, h.base]; rfl
  rw [FileSystem.locate?, horigin]
  exact h.follow hl

end Advance

/-- What is read is the text of the file at the place. -/
theorem read?_eq_some_iff {fs : FileSystem} {p text : String} :
    fs.read? p = some text ↔ fs.locate? p = some (fs.place p) ∧ Path.namesDirectory p = false ∧
      fs.files.lookup (fs.place p) = some (some text) := by
  unfold read? at?
  cases hl : fs.locate? p with
  | none => simp
  | some l =>
    obtain rfl := locate?_eq_some hl
    cases he : fs.entry? (fs.place p) with
    | none =>
      have hne : ∀ found, fs.files.lookup (fs.place p) ≠ some found := fun found hfound => by
        rw [← entry?_eq_file_iff, he] at hfound
        cases hfound
      simp [he, hne]
    | some e =>
      cases e with
      | directory => simp [he, (entry?_eq_directory_iff.1 he).1]
      | file found =>
        rw [entry?_eq_file_iff] at he
        cases Path.namesDirectory p <;> simp [entry?_eq_file_iff.2 he, he]

/-- A text stays where it is read, unless another one is written there. -/
theorem Advance.read? {fs fs' : FileSystem} {writes : List (Location × String)} {p text : String}
    (h : fs.Advance fs' writes) (hread : fs.read? p = some text)
    (hsame : ∀ text', (fs.place p, text') ∈ writes → text' = text) : fs'.read? p = some text := by
  obtain ⟨hlocate, hfile, htext⟩ := read?_eq_some_iff.1 hread
  refine read?_eq_some_iff.2 ⟨?_, hfile, ?_⟩
  · rw [h.place]
    exact h.locate? hlocate
  · rw [h.place]
    rcases h.file (fs.place p) with heq | ⟨text', hmem, hnew⟩
    · rw [heq, htext]
    · rw [hnew, hsame text' hmem]

/-! ## Making directories, writing files -/

theorem advance_addDirectory (fs : FileSystem) (l : Location) :
    fs.Advance { fs with dirs := fs.dirs ++ [l] } [] where
  base := rfl
  directory := by
    intro l' hl'
    rw [entry?_eq_directory_iff] at hl' ⊢
    refine hl'.imp_right (Or.imp_right (Or.imp_left fun hdirs => ?_))
    simp [hdirs]
  file _ := .inl rfl

theorem advance_makeSteps {fs fs' : FileSystem} {l : Location} {names : List String}
    (h : fs.makeSteps l names = some fs') : fs.Advance fs' [] := by
  induction names generalizing fs l with
  | nil =>
    obtain rfl := Option.some.inj h
    exact .refl fs
  | cons name names ih =>
    simp only [makeSteps] at h
    split at h
    · exact ih h
    · cases h
    · exact (advance_addDirectory fs _).trans (ih h)

theorem advance_makeDirectory {fs fs' : FileSystem} {p : String}
    (h : fs.makeDirectory p = some fs') :
    fs.Advance fs' [] := advance_makeSteps h

/-- A file that is written has the text, and nothing else changes. -/
theorem write_spec {fs fs' : FileSystem} {p text : String} (h : fs.write p text = some fs') :
    fs.Advance fs' [(fs.place p, text)] ∧ fs'.read? p = some text := by
  unfold write at h
  split at h
  · cases h
  · rename_i hnames
    split at h
    · cases h
    · rename_i l hl
      obtain rfl := locate?_eq_some hl
      split at h
      · cases h
      · rename_i hentry
        obtain rfl := Option.some.inj h
        have hadvance : fs.Advance { fs with files := put (fs.place p) (some text) fs.files }
            [(fs.place p, text)] := by
          refine ⟨rfl, fun {l} hdir => ?_, fun l => ?_⟩
          · have hne : l ≠ fs.place p := by
              rintro rfl
              exact hentry hdir
            rw [entry?_eq_directory_iff] at hdir ⊢
            refine ⟨by rw [lookup_put, if_neg hne, hdir.1],
              hdir.2.imp_right (Or.imp_right fun hfiles => ?_)⟩
            exact any_put _ _ _ _ hfiles
          · rw [lookup_put]
            split
            · rename_i heq
              exact .inr ⟨text, by simp [heq], rfl⟩
            · exact .inl rfl
        refine ⟨hadvance, read?_eq_some_iff.2 ⟨?_, by simpa using hnames, ?_⟩⟩
        · rw [hadvance.place]
          exact hadvance.locate? hl
        · rw [hadvance.place, lookup_put, if_pos rfl]

end FileSystem

end JavaRecipes
