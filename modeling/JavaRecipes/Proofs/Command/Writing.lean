import JavaRecipes.Command.Run
import JavaRecipes.Proofs.Command.FileSystem
import JavaRecipes.Proofs.Recipe.BatchOrder
import JavaRecipes.Proofs.Recipe.History
import JavaRecipes.Proofs.Tree.Stored

/-!
What a run of the program writes. Until all recipes have gone through, and in a dry run, it writes
nothing. After that it writes the changed trees one after another, so that it leaves nothing else
even if it fails; and if it does not, each of them is where it is reported to be
(`runProgram_wrote`).

Arguments may lead to one tree more than once. The recipes make the same of it each time
(`Runs.getElem?_eq`), so in place it does not matter which of its copies is written last.
-/

namespace JavaRecipes

/-! ## Equal files -/

/-- A recipe plans the same for a file wherever that stands. -/
theorem Recipe.editSet_eq (recipe : Recipe) {batch : Batch} {i j : Nat} {f : SourceFile}
    (hi : batch[i]? = some f) (hj : batch[j]? = some f) :
    recipe.editSet batch i f = recipe.editSet batch j f := by
  cases recipe with
  | renameBean r =>
    change EditSet.ofList _ = EditSet.ofList _
    rw [RenameBean.fileEdits, RenameBean.fileEdits, RenameBean.beanEdits_eq hi,
      RenameBean.beanEdits_eq hj]
  | _ => rfl

/-- Recipes make the same of equal files. -/
theorem Runs.getElem?_eq {batch last : Batch} {recipes : List Recipe} {log : Log}
    (h : Runs batch recipes log last) {i j : Nat} (hij : batch[i]? = batch[j]?) :
    last[i]? = last[j]? := by
  -- On the recipes: what one of them makes of a file depends on nothing but the file.
  induction h with
  | done => exact hij
  | @next batch last recipe recipes changes log hrun hrest ih =>
    refine ih ?_
    rw [Recipe.run_eq] at hrun
    rw [← merge_eq_overlay hrun]
    obtain ⟨hlength, hget⟩ := merge_changeFiles hrun
    cases hi : batch[i]? with
    | none =>
      have hj : batch[j]? = none := hij ▸ hi
      rw [List.getElem?_eq_none_iff] at hi hj
      rw [List.getElem?_eq_none (hlength ▸ hi), List.getElem?_eq_none (hlength ▸ hj)]
    | some f =>
      have hj : batch[j]? = some f := hij ▸ hi
      obtain ⟨g, hg, happly⟩ := hget i f hi
      obtain ⟨g', hg', happly'⟩ := hget j f hj
      rw [recipe.editSet_eq hi hj] at happly
      obtain rfl := Except.ok.inj (happly.symm.trans happly')
      rw [hg, hg']

/-! ## Before writing -/

/-- All that comes before writing has gone through: recipes are chosen, trees are found and read,
and the recipes make these files of them. -/
structure Prepared (a : Arguments) (fs : FileSystem) (recipes : List Recipe)
    (outcomes : List Outcome) : Prop where
  chosen : ∃ specs, chooseRecipes fs a = .ok specs ∧ RecipeSpec.buildAll specs = .ok recipes
  found : discover fs a.paths = .ok (outcomes.map (·.input))
  found_ne : outcomes ≠ []
  rewritten : ∃ batch, loadTrees fs (outcomes.map (·.input)) = .ok batch ∧
    applyRecipes recipes batch = .ok ⟨outcomes.map (·.file), outcomes.map (·.changedBy)⟩

theorem loadTree_eq_ok {fs : FileSystem} {path : String} {f : SourceFile}
    (h : loadTree fs path = .ok f) :
    ∃ text, fs.read? path = some text ∧ SourceFile.decode? text = some f := by
  unfold loadTree at h
  split at h
  · cases h
  · rename_i text hread
    split at h
    · cases h
    · rename_i file hdecode
      obtain rfl := Except.ok.inj h
      exact ⟨text, hread, hdecode⟩

theorem loadTrees_eq_ok_iff {fs : FileSystem} {inputs : List TreeInput} {batch : Batch} :
    loadTrees fs inputs = .ok batch ↔
      List.Forall₂ (fun input f => loadTree fs input.path = .ok f) inputs batch := by
  induction inputs generalizing batch with
  | nil => simp [loadTrees, eq_comm]
  | cons input inputs ih =>
    rw [List.forall₂_cons_left_iff]
    constructor
    · intro h
      simp only [loadTrees] at h
      cases hload : loadTree fs input.path with
      | error e => simp [hload] at h
      | ok f =>
        simp only [hload] at h
        cases hrest : loadTrees fs inputs with
        | error e => simp [hrest] at h
        | ok files =>
          simp only [hrest] at h
          exact ⟨f, files, rfl, ih.1 hrest, (Except.ok.inj h).symm⟩
    · rintro ⟨f, files, hload, hrest, rfl⟩
      simp [loadTrees, hload, ih.2 hrest]

section

variable {ε ε' α β : Type}

private theorem bind_eq_ok_iff {x : Except ε α} {f : α → Except ε β} {b : β} :
    (x >>= f) = .ok b ↔ ∃ a, x = .ok a ∧ f a = .ok b := by
  cases x <;> simp [bind, Except.bind]

private theorem mapError_eq_ok_iff {x : Except ε α} {f : ε → ε'} {a : α} :
    x.mapError f = .ok a ↔ x = .ok a := by
  cases x <;> simp [Except.mapError]

end

theorem prepare_eq_ok_iff {a : Arguments} {fs : FileSystem} {recipes : List Recipe}
    {outcomes : List Outcome} :
    prepare a fs = .ok (recipes, outcomes) ↔ Prepared a fs recipes outcomes := by
  simp only [prepare, bind_eq_ok_iff, mapError_eq_ok_iff]
  constructor
  · rintro ⟨specs, hspecs, recipes', hbuild, inputs, hfound, h⟩
    split at h
    · obtain ⟨_, hnone, -⟩ := bind_eq_ok_iff.1 h
      cases hnone
    · rename_i hne
      simp only [bind_eq_ok_iff, mapError_eq_ok_iff] at h
      obtain ⟨batch, hload, run, hrun, hresult⟩ := h
      obtain ⟨rfl, houtcomes⟩ := Prod.mk.inj (Except.ok.inj hresult)
      obtain ⟨log, hruns, hchangedBy⟩ := applyRecipes_eq_ok_iff.1 hrun
      have hlength := (loadTrees_eq_ok_iff.1 hload).length_eq
      have hfiles := hruns.length_eq
      have hnames : run.changedBy.length = batch.length := by simp [hchangedBy]
      have hinputs : outcomes.map (·.input) = inputs := by
        rw [← houtcomes]
        exact List.ext_getElem (by simp [hfiles, hnames, hlength]) (by simp)
      refine ⟨⟨specs, hspecs, hbuild⟩, hinputs.symm ▸ hfound, ?_, batch, hinputs.symm ▸ hload, ?_⟩
      · rintro hnil
        rw [hnil] at hinputs
        exact hne (by simp [← hinputs])
      · rw [← houtcomes]
        refine hrun.trans (congrArg Except.ok (congrArg₂ BatchRun.mk ?_ ?_))
        · exact List.ext_getElem (by simp [hfiles, hnames, hlength]) (by simp)
        · exact List.ext_getElem (by simp [hfiles, hnames, hlength]) (by simp)
  · rintro ⟨⟨specs, hspecs, hbuild⟩, hfound, hne, batch, hload, hrun⟩
    refine ⟨specs, hspecs, recipes, hbuild, _, hfound, ?_⟩
    rw [if_neg (by simpa using hne)]
    simp only [bind_eq_ok_iff, mapError_eq_ok_iff]
    refine ⟨batch, hload, _, hrun, ?_⟩
    simp [List.zip_map', Function.comp_def]

/-- Outcomes of one place in the file system are one file. -/
theorem Prepared.file_eq {a : Arguments} {fs : FileSystem} {recipes : List Recipe}
    {outcomes : List Outcome} (h : Prepared a fs recipes outcomes) {o o' : Outcome}
    (ho : o ∈ outcomes) (ho' : o' ∈ outcomes)
    (hplace : fs.place o'.input.path = fs.place o.input.path) : o'.file = o.file := by
  obtain ⟨batch, hload, hrun⟩ := h.rewritten
  obtain ⟨log, hruns, -⟩ := applyRecipes_eq_ok_iff.1 hrun
  have hloaded : ∀ o ∈ outcomes, ∃ (i : Nat) (f : SourceFile) (text : String),
      outcomes[i]? = some o ∧
      batch[i]? = some f ∧ fs.read? o.input.path = some text ∧
          SourceFile.decode? text = some f := by
    intro o ho
    obtain ⟨i, hi, rfl⟩ := List.mem_iff_getElem.1 ho
    obtain ⟨hlength, hget⟩ := List.forall₂_iff_get.1 (loadTrees_eq_ok_iff.1 hload)
    have hi' : i < batch.length := by simpa [← hlength] using hi
    obtain ⟨text, hread, hdecode⟩ := loadTree_eq_ok (hget i (by simpa using hi) hi')
    exact ⟨i, batch[i], text, by simp, by simp, by simpa using hread, hdecode⟩
  obtain ⟨i, f, text, hi, hf, hread, hdecode⟩ := hloaded o ho
  obtain ⟨j, f', text', hj, hf', hread', hdecode'⟩ := hloaded o' ho'
  -- Both were read from one text, so they started out equal, and the recipes keep them so.
  have htext : text' = text := by
    have hlookup := (FileSystem.read?_eq_some_iff.1 hread).2.2
    have hlookup' := (FileSystem.read?_eq_some_iff.1 hread').2.2
    rw [hplace, hlookup] at hlookup'
    exact (Option.some.inj (Option.some.inj hlookup')).symm
  obtain rfl : f' = f := by
    rw [htext, hdecode] at hdecode'
    exact (Option.some.inj hdecode').symm
  have hlast := hruns.getElem?_eq (hf'.trans hf.symm)
  simpa [hi, hj] using hlast

/-! ## Writing -/

namespace Outcome

/-- Some recipe changed the file. -/
def changed (o : Outcome) : Bool := !o.changedBy.isEmpty

/-- What a list of outcomes writes, and to which places. -/
def writes (a : Arguments) (fs : FileSystem) (os : List Outcome) : List (Location × String) :=
  (os.filter (·.changed)).map fun o => (fs.place (destination a o.input), o.file.encode)

variable {a : Arguments} {fs : FileSystem}

theorem mem_writes {os : List Outcome} {l : Location} {text : String} :
    (l, text) ∈ writes a fs os ↔
      ∃ o ∈ os, o.changed ∧ fs.place (destination a o.input) = l ∧ o.file.encode = text := by
  simp [writes, and_assoc]

theorem writes_cons_of_changed {o : Outcome} (ho : o.changed) (os : List Outcome) :
    writes a fs (o :: os) =
      (fs.place (destination a o.input), o.file.encode) :: writes a fs os := by
  simp [writes, ho]

theorem writes_cons_of_not_changed {o : Outcome} (ho : ¬ o.changed) (os : List Outcome) :
    writes a fs (o :: os) = writes a fs os := by
  simp [writes, ho]

theorem writes_congr {fs' : FileSystem} (h : fs'.base = fs.base) (os : List Outcome) :
    writes a fs' os = writes a fs os := by
  simp only [writes, FileSystem.place_congr h]

end Outcome

open FileSystem (Advance)

theorem advance_makeParent {fs fs' : FileSystem} {path : String}
    (h : makeParent fs path = .ok fs') :
    fs.Advance fs' [] := by
  unfold makeParent at h
  split at h
  · obtain rfl := Except.ok.inj h
    exact .refl fs
  · split at h
    · cases h
    · rename_i hmade
      obtain rfl := Except.ok.inj h
      exact FileSystem.advance_makeDirectory hmade

theorem writeTree_spec {fs fs' : FileSystem} {file : SourceFile} {path : String}
    {result : Except RunError Unit} (h : writeTree fs file path = (result, fs')) :
    fs.Advance fs' [(fs.place path, file.encode)] ∧
    (result = .ok () → fs'.read? path = some file.encode) := by
  unfold writeTree at h
  split at h
  · obtain ⟨rfl, rfl⟩ := Prod.mk.inj h
    exact ⟨(Advance.refl fs).subset (List.nil_subset _), by simp⟩
  · rename_i fs₁ hmake
    have hadvance := advance_makeParent hmake
    split at h
    · obtain ⟨rfl, rfl⟩ := Prod.mk.inj h
      exact ⟨hadvance.subset (List.nil_subset _), by simp⟩
    · rename_i fs₂ hwrite
      obtain ⟨rfl, rfl⟩ := Prod.mk.inj h
      obtain ⟨hwritten, hread⟩ := FileSystem.write_spec hwrite
      rw [hadvance.place] at hwritten
      exact ⟨hadvance.trans hwritten, fun _ => hread⟩

section

variable {a : Arguments}

theorem writeOutcomes_cons_of_not_changed {o : Outcome} (ho : ¬ o.changed) (fs : FileSystem)
    (os : List Outcome) :
    writeOutcomes a fs (o :: os) = writeOutcomes a fs os := by
  have hempty : o.changedBy.isEmpty = true := by simpa [Outcome.changed] using ho
  rw [writeOutcomes, if_pos hempty]

/-- A dry run writes nothing and reports the changed files all the same. -/
theorem writeOutcomes_of_dryRun (hdry : a.dryRun = true) (fs : FileSystem) (os : List Outcome) :
    writeOutcomes a fs os = (.ok ((os.filter (·.changed)).map (·.report a)), fs) := by
  induction os with
  | nil => rfl
  | cons o os ih =>
    by_cases ho : o.changed
    · have hsome : o.changedBy.isEmpty = false := by simpa [Outcome.changed] using ho
      simp [writeOutcomes, ho, hsome, hdry, ih, Except.map]
    · rw [writeOutcomes_cons_of_not_changed ho, ih, List.filter_cons_of_neg (by simpa using ho)]

/-- Writing changed outcomes goes on while it succeeds. -/
theorem writeOutcomes_cons_cases (hdry : a.dryRun = false) {o : Outcome} (ho : o.changed)
    (fs : FileSystem) (os : List Outcome) :
    ∃ result fs', writeTree fs o.file (destination a o.input) = (result, fs') ∧
      match result with
      | .error e => writeOutcomes a fs (o :: os) = (.error e, fs')
      | .ok _ => writeOutcomes a fs (o :: os) =
          ((writeOutcomes a fs' os).1.map (o.report a :: ·), (writeOutcomes a fs' os).2) := by
  have hsome : o.changedBy.isEmpty = false := by simpa [Outcome.changed] using ho
  obtain ⟨result, fs', hwrite⟩ : ∃ result fs', writeTree fs o.file (destination a o.input) =
      (result, fs') :=
    ⟨_, _, rfl⟩
  refine ⟨result, fs', hwrite, ?_⟩
  cases result <;> simp [writeOutcomes, hsome, hdry, hwrite]

/-- What is written is changed outcomes, also up to a failure. -/
theorem advance_writeOutcomes (hdry : a.dryRun = false) (fs : FileSystem) (os : List Outcome) :
    fs.Advance (writeOutcomes a fs os).2 (Outcome.writes a fs os) := by
  induction os generalizing fs with
  | nil => exact .refl fs
  | cons o os ih =>
    by_cases ho : o.changed
    · obtain ⟨result, fs', hwrite, hcons⟩ := writeOutcomes_cons_cases hdry ho fs os
      obtain ⟨hwritten, -⟩ := writeTree_spec hwrite
      rw [Outcome.writes_cons_of_changed ho]
      cases result with
      | error e =>
        rw [hcons]
        exact hwritten.subset (by simp)
      | ok _ =>
        rw [hcons, ← Outcome.writes_congr hwritten.base]
        exact hwritten.trans (ih fs')
    · rw [writeOutcomes_cons_of_not_changed ho, Outcome.writes_cons_of_not_changed ho]
      exact ih fs

/-- If nothing fails, a changed outcome is written and reported before the others. -/
theorem writeOutcomes_cons_ok (hdry : a.dryRun = false) {o : Outcome} (ho : o.changed)
    {fs : FileSystem} {os : List Outcome} {changed : List ChangedFile}
    (h : (writeOutcomes a fs (o :: os)).1 = .ok changed) :
    ∃ fs' rest, writeTree fs o.file (destination a o.input) = (.ok (), fs') ∧
      (writeOutcomes a fs' os).1 = .ok rest ∧ changed = o.report a :: rest ∧
      (writeOutcomes a fs (o :: os)).2 = (writeOutcomes a fs' os).2 := by
  obtain ⟨result, fs', hwrite, hcons⟩ := writeOutcomes_cons_cases hdry ho fs os
  cases result with
  | error e =>
    rw [hcons] at h
    cases h
  | ok _ =>
    rw [hcons] at h ⊢
    cases hrest : (writeOutcomes a fs' os).1 with
    | error e =>
      rw [hrest] at h
      cases h
    | ok rest =>
      rw [hrest] at h
      exact ⟨fs', rest, hwrite, hrest, (Except.ok.inj h).symm, rfl⟩

theorem writeOutcomes_reports (hdry : a.dryRun = false) {fs : FileSystem} {os : List Outcome}
    {changed : List ChangedFile} (h : (writeOutcomes a fs os).1 = .ok changed) :
    changed = (os.filter (·.changed)).map (·.report a) := by
  induction os generalizing fs changed with
  | nil => exact (Except.ok.inj h).symm
  | cons o os ih =>
    by_cases ho : o.changed
    · obtain ⟨fs', rest, -, hrest, rfl, -⟩ := writeOutcomes_cons_ok hdry ho h
      rw [ih hrest, List.filter_cons_of_pos ho, List.map_cons]
    · rw [writeOutcomes_cons_of_not_changed ho] at h
      rw [ih h, List.filter_cons_of_neg ho]

/-- Between the outcomes before it and those after it, each changed one has just been written. -/
theorem writeOutcomes_split (hdry : a.dryRun = false) {fs : FileSystem}
    {before later : List Outcome} {o : Outcome} {changed : List ChangedFile} (ho : o.changed)
    (h : (writeOutcomes a fs (before ++ o :: later)).1 = .ok changed) :
    ∃ fs' : FileSystem, fs'.base = fs.base ∧
      fs'.read? (destination a o.input) = some o.file.encode ∧
      fs'.Advance (writeOutcomes a fs (before ++ o :: later)).2 (Outcome.writes a fs later) := by
  induction before generalizing fs changed with
  | nil =>
    obtain ⟨fs', rest, hwrite, -, -, hafter⟩ := writeOutcomes_cons_ok hdry ho h
    obtain ⟨hwritten, hread⟩ := writeTree_spec hwrite
    refine ⟨fs', hwritten.base, hread rfl, ?_⟩
    rw [List.nil_append, hafter, ← Outcome.writes_congr hwritten.base]
    exact advance_writeOutcomes hdry fs' later
  | cons x before ih =>
    rw [List.cons_append] at h ⊢
    by_cases hx : x.changed
    · obtain ⟨fs₁, rest, hwrite, hrest, -, hafter⟩ := writeOutcomes_cons_ok hdry hx h
      have hbase := (writeTree_spec hwrite).1.base
      obtain ⟨fs', hbase', hread, hadvance⟩ := ih hrest
      rw [hafter, ← Outcome.writes_congr hbase]
      exact ⟨fs', hbase'.trans hbase, hread, hadvance⟩
    · rw [writeOutcomes_cons_of_not_changed hx] at h ⊢
      exact ih h

end

/-! ## Runs -/

/-- What a run does once all is prepared: only destinations of changed files get another text, and
if the run succeeds, each changed file is reported and its destination has the text of the file,
unless a later one that was read from another place goes there too. -/
structure Wrote (a : Arguments) (fs : FileSystem) (outcomes : List Outcome)
    (result : Except RunError RunResult) (after : FileSystem) : Prop where
  only : ∀ l, after.files.lookup l ≠ fs.files.lookup l →
    ∃ o ∈ outcomes, o.changed ∧ l = fs.place (destination a o.input) ∧
      after.files.lookup l = some (some o.file.encode)
  reported : ∀ r, result = .ok r → r.changed = (outcomes.filter (·.changed)).map (·.report a)
  holds : ∀ r, result = .ok r → a.dryRun = false →
    ∀ before o later, outcomes = before ++ o :: later → o.changed →
    (∀ o' ∈ later, o'.changed →
      fs.place (destination a o'.input) = fs.place (destination a o.input) →
      fs.place o'.input.path = fs.place o.input.path) →
    (o.report a).written = some (destination a o.input) ∧
      after.read? (destination a o.input) = some o.file.encode

namespace Prepared

variable {a : Arguments} {fs : FileSystem} {recipes : List Recipe} {outcomes : List Outcome}

theorem of_runProgram {r : RunResult} (h : (runProgram a fs).1 = .ok r) :
    ∃ recipes outcomes, Prepared a fs recipes outcomes := by
  cases hprepare : prepare a fs with
  | error e => simp [runProgram, hprepare] at h
  | ok prepared => exact ⟨prepared.1, prepared.2, prepare_eq_ok_iff.1 hprepare⟩

theorem runProgram_eq (h : Prepared a fs recipes outcomes) : runProgram a fs =
    ((writeOutcomes a fs outcomes).1.map fun changed =>
      { filesRead := outcomes.length, recipes := recipes.map Recipe.name, changed },
      (writeOutcomes a fs outcomes).2) := by
  simp [runProgram, prepare_eq_ok_iff.2 h]

theorem runProgram_eq_ok_iff (h : Prepared a fs recipes outcomes) {r : RunResult} :
    (runProgram a fs).1 = .ok r ↔
    r.filesRead = outcomes.length ∧ r.recipes = recipes.map Recipe.name ∧
      (writeOutcomes a fs outcomes).1 = .ok r.changed := by
  obtain ⟨filesRead, names, changed⟩ := r
  rw [h.runProgram_eq]
  cases (writeOutcomes a fs outcomes).1 with
  | error e => simp [Except.map]
  | ok reports => simp [Except.map, eq_comm]

theorem exists_runProgram_eq_ok (h : Prepared a fs recipes outcomes)
    (hok : (writeOutcomes a fs outcomes).1.isOk = true) : ∃ r, (runProgram a fs).1 = .ok r := by
  cases hwritten : (writeOutcomes a fs outcomes).1 with
  | error e =>
    rw [hwritten] at hok
    cases hok
  | ok changed => exact ⟨⟨_, _, changed⟩, h.runProgram_eq_ok_iff.2 ⟨rfl, rfl, hwritten⟩⟩

theorem wrote (h : Prepared a fs recipes outcomes) :
    Wrote a fs outcomes (runProgram a fs).1 (runProgram a fs).2 := by
  have hsuccess : ∀ {r}, (runProgram a fs).1 = .ok r →
      (writeOutcomes a fs outcomes).1 = .ok r.changed :=
    fun hr => (h.runProgram_eq_ok_iff.1 hr).2.2
  rw [show (runProgram a fs).2 = (writeOutcomes a fs outcomes).2 by rw [h.runProgram_eq]]
  refine ⟨fun l hl => ?_, fun r hr => ?_, fun r hr hdry before o later hsplit ho hlast => ⟨?_, ?_⟩⟩
  · cases hdry : a.dryRun with
    | true =>
      rw [writeOutcomes_of_dryRun hdry] at hl
      exact absurd rfl hl
    | false =>
      obtain ⟨text, hmem, htext⟩ :=
        ((advance_writeOutcomes hdry fs outcomes).file l).resolve_left hl
      obtain ⟨o, ho, hchanged, hplace, rfl⟩ := Outcome.mem_writes.1 hmem
      exact ⟨o, ho, hchanged, hplace.symm, htext⟩
  · cases hdry : a.dryRun with
    | true =>
      have hreports := hsuccess hr
      rw [writeOutcomes_of_dryRun hdry] at hreports
      exact (Except.ok.inj hreports).symm
    | false => exact writeOutcomes_reports hdry (hsuccess hr)
  · simp [Outcome.report, hdry]
  · subst hsplit
    obtain ⟨fs', hbase, hread, hadvance⟩ := writeOutcomes_split hdry ho (hsuccess hr)
    refine hadvance.read? hread fun text hmem => ?_
    rw [FileSystem.place_congr hbase] at hmem
    obtain ⟨o', ho', hchanged, hplace, rfl⟩ := Outcome.mem_writes.1 hmem
    rw [h.file_eq (by simp) (by simp [ho']) (hlast o' ho' hchanged hplace)]

end Prepared

/-- A run writes nothing unless all that comes before writing goes through, and in a dry run; then
it writes the changed files and nothing else. -/
theorem runProgram_wrote (a : Arguments) (fs : FileSystem) :
    ((∀ recipes outcomes, ¬ Prepared a fs recipes outcomes) →
      ∃ e, runProgram a fs = (.error e, fs)) ∧
    (a.dryRun = true → (runProgram a fs).2 = fs) ∧
    ∀ recipes outcomes, Prepared a fs recipes outcomes →
      Wrote a fs outcomes (runProgram a fs).1 (runProgram a fs).2 := by
  refine ⟨fun h => ?_, fun hdry => ?_, fun recipes outcomes h => h.wrote⟩
  · cases hprepare : prepare a fs with
    | error e => exact ⟨e, by simp [runProgram, hprepare]⟩
    | ok prepared => exact absurd (prepare_eq_ok_iff.1 hprepare) (h prepared.1 prepared.2)
  · cases hprepare : prepare a fs with
    | error e => simp [runProgram, hprepare]
    | ok prepared => simp [runProgram, hprepare, writeOutcomes_of_dryRun hdry]

/-- Two trees; one has a public bean method. -/
def configTrees : FileSystem where
  files :=
    [(["a.json"], some (configFile true).encode), (["b.json"], some (configFile false).encode)]

/-- One of the trees is given twice. -/
def configRun : Arguments where
  paths := ["a.json", "b.json", "./a.json"]
  recipes := [.beanVisibility]

theorem load_configFile (isBean : Bool) :
    SourceFile.decode? (configFile isBean).encode = some (configFile isBean) := by
  have hfits : (configFile isBean).Fits := by
    cases isBean <;>
      exact SourceFile.fits_of_forall_mem (by decide +kernel) (by decide +kernel)
        (by decide +kernel)
  have hfresh : (configFile isBean).refresh = configFile isBean := by
    cases isBean <;> decide +kernel
  rw [SourceFile.decode?_encode hfits, hfresh]

/-- The tree that the run leaves. -/
def configResult : SourceFile :=
  ((applyRecipes [.beanVisibility] [configFile true]).toOption.bind (·.files.head?)).getD
    (configFile true)

/-- The files after the recipes. -/
def configOutcomes : List Outcome :=
  [⟨configResult, ⟨"a.json", "a.json"⟩, [BeanVisibility.label]⟩,
    ⟨configFile false, ⟨"b.json", "b.json"⟩, []⟩,
    ⟨configResult, ⟨"./a.json", "a.json"⟩, [BeanVisibility.label]⟩]

theorem prepared_configRun : Prepared configRun configTrees [.beanVisibility] configOutcomes where
  chosen := ⟨_, rfl, rfl⟩
  found := by decide +kernel
  found_ne := by simp [configOutcomes]
  rewritten := by
    have hload : ∀ p b, configTrees.read? p = some (configFile b).encode →
        loadTree configTrees p = .ok (configFile b) := by
      intro p b hread
      simp only [loadTree, hread, load_configFile]
    have hfirst := hload "a.json" true rfl
    have hsecond := hload "b.json" false rfl
    have hagain := hload "./a.json" true rfl
    refine ⟨[configFile true, configFile false, configFile true], loadTrees_eq_ok_iff.2 ?_,
      by decide +kernel⟩
    exact .cons hfirst (.cons hsecond (.cons hagain .nil))

/-- The tree is written under both of its paths, and holds the same text under each; the other one
stays. -/
theorem runProgram_wrote_configRun : ∃ r, (runProgram configRun configTrees).1 = .ok r ∧
    r.changed.map (·.written) = [some "a.json", some "./a.json"] ∧
    (runProgram configRun configTrees).2.read? "a.json" = some configResult.encode ∧
    (runProgram configRun configTrees).2.files.lookup ["b.json"] =
      some (some (configFile false).encode) := by
  have hprepared := prepared_configRun
  have hwrote := (runProgram_wrote configRun configTrees).2.2 _ _ hprepared
  obtain ⟨r, hr⟩ := hprepared.exists_runProgram_eq_ok (by decide +kernel)
  refine ⟨r, hr, ?_, ?_, ?_⟩
  · rw [hwrote.reported r hr]
    decide +kernel
  · exact (hwrote.holds r hr rfl [] _ _ rfl rfl fun _ _ _ hplace => hplace).2
  · by_contra hne
    obtain ⟨o, ho, hchanged, hplace, -⟩ := hwrote.only _ hne
    simp only [configOutcomes, List.mem_cons, List.not_mem_nil, or_false] at ho
    rcases ho with rfl | rfl | rfl
    · exact absurd hplace (by decide +kernel)
    · cases hchanged
    · exact absurd hplace (by decide +kernel)

end JavaRecipes
