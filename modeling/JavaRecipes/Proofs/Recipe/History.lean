import JavaRecipes.Proofs.Recipe.Grafting
import JavaRecipes.Proofs.Recipe.Reports

/-!
Recipes in a row, and the names kept for each file. A row of recipes is told by its log, which has
for each recipe what it reported about the batch that the recipes before it left (`Runs`). The batch
and the lists of a run are read off the log (`BatchRun.steps_eq_ok_iff`), position by position, so
it does not matter which paths the files have; and logs are put together end to end, as rows of
recipes are (`Runs.append_iff`).
-/

namespace JavaRecipes

/-- The batch with the changed files in their places. -/
def overlay (batch : Batch) (changes : List FileChange) : Batch :=
  batch.mapIdx fun i f => ((changeAt? changes i).map (·.after)).getD f

/-- What the recipes of a row reported, each with its name. -/
abbrev Log := List (String × List FileChange)

/-- The recipes that reported a change at a position, in order. -/
def Log.reporters (log : Log) (i : Nat) : List String :=
  (log.filter fun entry => (changeAt? entry.2 i).isSome).map (·.1)

/-- Recipes that go through one after another, each over the batch that the one before left. -/
inductive Runs : Batch → List Recipe → Log → Batch → Prop
  | done (batch : Batch) : Runs batch [] [] batch
  | next {batch last : Batch} {recipe : Recipe} {recipes : List Recipe}
    {changes : List FileChange} {log : Log} :
      recipe.run batch = .ok changes → Runs (overlay batch changes) recipes log last →
      Runs batch (recipe :: recipes) ((recipe.name, changes) :: log) last

/-! ## One recipe -/

/-- Merging puts every change into its place. -/
theorem merge_eq_overlay {plan : Nat → SourceFile → EditSet} {batch : Batch}
    {changes : List FileChange} (h : changeFiles plan batch = .ok changes) :
    merge batch changes = overlay batch changes := by
  obtain ⟨hlength, hget⟩ := merge_changeFiles h
  refine List.ext_getElem? fun i => ?_
  cases hi : batch[i]? with
  | none =>
    have hle : batch.length ≤ i := List.getElem?_eq_none_iff.1 hi
    rw [List.getElem?_eq_none (hlength ▸ hle), List.getElem?_eq_none (by simpa [overlay] using hle)]
  | some f =>
    obtain ⟨g, hg, happly⟩ := hget i f hi
    rw [hg, overlay, List.getElem?_mapIdx, hi]
    obtain ⟨hempty, hnone⟩ | ⟨g', -, happly', hsome⟩ := changeAt?_changeFiles h hi
    · have hself : (plan i f).apply f = .ok f := by
        simp [EditSet.apply, EditSet.fault?, EditSet.faultAfter?, hempty, Draft.applyEdits]
      obtain rfl := Except.ok.inj (happly.symm.trans hself)
      simp [hnone]
    · obtain rfl := Except.ok.inj (happly.symm.trans happly')
      simp [hsome]

private theorem mapIdx_same (changedBy : List (List String)) :
    (changedBy.mapIdx fun _ names => names) = changedBy :=
  List.ext_getElem? fun i => by simp

/-- The name of a recipe is added to the lists of the files that it changed, once each. -/
theorem markChanged_eq {changes : List FileChange} (hsorted : changes.Pairwise (·.index < ·.index))
    (changedBy : List (List String)) (name : String) :
    markChanged changedBy name changes =
      changedBy.mapIdx fun i names => if (changeAt? changes i).isSome then names ++ [name]
      else names := by
  induction changes generalizing changedBy with
  | nil => simp [markChanged, changeAt?, mapIdx_same]
  | cons c changes ih =>
    obtain ⟨hfirst, hrest⟩ := List.pairwise_cons.1 hsorted
    have hlater : changeAt? changes c.index = none := by
      refine List.find?_eq_none.2 fun c' hc' => ?_
      have hlt := hfirst c' hc'
      simp only [decide_eq_true_eq]
      omega
    change markChanged (changedBy.modify c.index (· ++ [name])) name changes = _
    rw [ih hrest]
    refine List.ext_getElem? fun i => ?_
    rw [List.getElem?_mapIdx, List.getElem?_mapIdx, List.getElem?_modify]
    by_cases hi : c.index = i
    · subst hi
      have hhere : changeAt? (c :: changes) c.index = some c := by simp [changeAt?]
      cases changedBy[c.index]? <;> simp [hlater, hhere]
    · have hskip : changeAt? (c :: changes) i = changeAt? changes i := by simp [changeAt?, hi]
      cases changedBy[i]? <;> simp [hi, hskip]

theorem BatchRun.step_eq_ok_iff {b b' : BatchRun} {recipe : Recipe} :
    b.step recipe = .ok b' ↔ ∃ changes, recipe.run b.files = .ok changes ∧
      b'.files = overlay b.files changes ∧
      b'.changedBy = b.changedBy.mapIdx fun i names =>
        if (changeAt? changes i).isSome then names ++ [recipe.name] else names := by
  unfold step
  cases hrun : recipe.run b.files with
  | error cause => simp
  | ok changes =>
    have hchange := hrun
    rw [Recipe.run_eq] at hchange
    obtain ⟨files, changedBy⟩ := b'
    simp only [merge_eq_overlay hchange, markChanged_eq (pairwise_changeFiles hchange)]
    constructor
    · intro h
      obtain ⟨rfl, rfl⟩ := BatchRun.mk.inj (Except.ok.inj h)
      exact ⟨changes, rfl, rfl, rfl⟩
    · rintro ⟨changes', hchanges, hfiles, hnames⟩
      obtain rfl := Except.ok.inj hchanges
      exact congrArg Except.ok (congrArg₂ BatchRun.mk hfiles.symm hnames.symm)

/-! ## Rows of recipes -/

/-- A run is what its log says: the last batch, and for each file the recipes that reported it. -/
theorem BatchRun.steps_eq_ok_iff {b b' : BatchRun} {recipes : List Recipe} :
    b.steps recipes = .ok b' ↔ ∃ log, Runs b.files recipes log b'.files ∧
      b'.changedBy = b.changedBy.mapIdx fun i names => names ++ Log.reporters log i := by
  induction recipes generalizing b with
  | nil =>
    constructor
    · intro h
      obtain rfl := Except.ok.inj h
      exact ⟨[], .done _, by simp [Log.reporters, mapIdx_same]⟩
    · rintro ⟨log, hruns, hchangedBy⟩
      obtain ⟨files, changedBy⟩ := b
      obtain ⟨files', changedBy'⟩ := b'
      cases hruns
      obtain rfl : changedBy' = changedBy := by simpa [Log.reporters, mapIdx_same] using hchangedBy
      rfl
  | cons recipe recipes ih =>
    -- The names that the first recipe adds stand before those of the others.
    have hnames : ∀ (changes : List FileChange) (log : Log) (changedBy : List (List String)),
        (changedBy.mapIdx fun i names =>
            if (changeAt? changes i).isSome then names ++ [recipe.name] else names).mapIdx
          (fun i names => names ++ Log.reporters log i) =
        changedBy.mapIdx fun i names =>
            names ++ Log.reporters ((recipe.name, changes) :: log) i := by
      intro changes log changedBy
      rw [List.mapIdx_mapIdx]
      congr 1
      funext i names
      by_cases hi : (changeAt? changes i).isSome <;> simp [Log.reporters, hi]
    constructor
    · intro h
      rw [steps] at h
      cases hstep : b.step recipe with
      | error e => simp [hstep] at h
      | ok mid =>
        rw [hstep] at h
        obtain ⟨log, hruns, hchangedBy⟩ := ih.1 h
        obtain ⟨changes, hrun, hfiles, hmid⟩ := step_eq_ok_iff.1 hstep
        rw [hfiles] at hruns
        exact ⟨_, .next hrun hruns, by rw [hchangedBy, hmid, hnames]⟩
    · rintro ⟨log, hruns, hchangedBy⟩
      cases hruns with
      | next hrun hrest =>
        rename_i changes log
        have hstep : b.step recipe = .ok ⟨overlay b.files changes, b.changedBy.mapIdx fun i names =>
            if (changeAt? changes i).isSome then names ++ [recipe.name] else names⟩ :=
          step_eq_ok_iff.2 ⟨changes, hrun, rfl, rfl⟩
        rw [steps, hstep]
        exact ih.2 ⟨log, hrest, by rw [hchangedBy, hnames]⟩

namespace Runs

theorem append_iff {batch last : Batch} {recipes recipes' : List Recipe} {log : Log} :
    Runs batch (recipes ++ recipes') log last ↔
      ∃ log₁ mid log₂, log = log₁ ++ log₂ ∧ Runs batch recipes log₁ mid ∧
        Runs mid recipes' log₂ last := by
  induction recipes generalizing batch log with
  | nil =>
    constructor
    · exact fun h => ⟨[], batch, log, rfl, .done batch, h⟩
    · rintro ⟨log₁, mid, log₂, rfl, hdone, h⟩
      cases hdone
      exact h
  | cons recipe recipes ih =>
    constructor
    · intro h
      cases h with
      | next hrun hrest =>
        obtain ⟨log₁, mid, log₂, rfl, h₁, h₂⟩ := ih.1 hrest
        exact ⟨_ :: log₁, mid, log₂, rfl, .next hrun h₁, h₂⟩
    · rintro ⟨log₁, mid, log₂, rfl, h₁, h₂⟩
      cases h₁ with
      | next hrun hrest => exact .next hrun (ih.2 ⟨_, mid, log₂, rfl, hrest, h₂⟩)

theorem length_eq {batch last : Batch} {recipes : List Recipe} {log : Log}
    (h : Runs batch recipes log last) :
    last.length = batch.length := by
  induction h with
  | done => rfl
  | next _ _ ih => simpa [overlay] using ih

/-- Each file keeps its path and its root, and stays as it is when nothing is reported about it. -/
theorem kept {batch last : Batch} {recipes : List Recipe} {log : Log}
    (h : Runs batch recipes log last) {i : Nat} {f g : SourceFile} (hf : batch[i]? = some f)
    (hg : last[i]? = some g) :
    g.path = f.path ∧ g.root = f.root ∧ (log.reporters i = [] → g = f) := by
  induction h generalizing f with
  | done =>
    obtain rfl := Option.some.inj (hf.symm.trans hg)
    exact ⟨rfl, rfl, fun _ => rfl⟩
  | @next batch last recipe recipes changes log hrun hrest ih =>
    rw [Recipe.run_eq] at hrun
    have hplace :
        (overlay batch changes)[i]? = some (((changeAt? changes i).map (·.after)).getD f) := by
      rw [overlay, List.getElem?_mapIdx, hf]
      rfl
    obtain ⟨hpath, hroot, hsame⟩ := ih hplace hg
    obtain ⟨-, hnone⟩ | ⟨after, -, happly, hsome⟩ := changeAt?_changeFiles hrun hf
    · simp only [hnone, Option.map_none, Option.getD_none] at hpath hroot hsame
      refine ⟨hpath, hroot, fun hno => hsame ?_⟩
      simpa [Log.reporters, hnone] using hno
    · simp only [hsome, Option.map_some, Option.getD_some] at hpath hroot
      obtain ⟨-, d, -, rfl⟩ := EditSet.apply_eq_ok happly
      refine ⟨hpath, hroot, fun hno => ?_⟩
      simp [Log.reporters, hsome] at hno

end Runs

/-! ## Runs over a batch -/

/-- A run that lost nothing and made nothing up: every file is in its place, and the names at a
position are those of the recipes that reported a change there, each over the batch as the recipes
before it left it. -/
structure BatchRun.Faithful (batch : Batch) (recipes : List Recipe) (run : BatchRun) : Prop where
  files_length : run.files.length = batch.length
  changedBy_length : run.changedBy.length = batch.length
  logged : ∃ log, Runs batch recipes log run.files ∧
    ∀ i < batch.length, run.changedBy[i]? = some (Log.reporters log i)
  placed : ∀ (i : Nat) (f g : SourceFile), batch[i]? = some f → run.files[i]? = some g →
    g.path = f.path ∧ g.root = f.root
  untouched : ∀ (i : Nat) (f g : SourceFile), batch[i]? = some f → run.files[i]? = some g →
    run.changedBy[i]? = some [] → g = f

theorem applyRecipes_eq_ok_iff {recipes : List Recipe} {batch : Batch} {run : BatchRun} :
    applyRecipes recipes batch = .ok run ↔ ∃ log, Runs batch recipes log run.files ∧
      run.changedBy = (List.range batch.length).map (Log.reporters log) := by
  have hnames : ∀ log : Log,
      (BatchRun.start batch).changedBy.mapIdx (fun i names => names ++ log.reporters i) =
      (List.range batch.length).map log.reporters := by
    intro log
    refine List.ext_getElem? fun i => ?_
    by_cases hi : i < batch.length <;> simp [BatchRun.start, hi]
  simp only [applyRecipes, BatchRun.steps_eq_ok_iff, hnames]
  rfl

theorem Runs.applyRecipes_eq {batch last : Batch} {recipes : List Recipe} {log : Log}
    (h : Runs batch recipes log last) :
    applyRecipes recipes batch = .ok ⟨last, (List.range batch.length).map log.reporters⟩ :=
  applyRecipes_eq_ok_iff.2 ⟨log, h, rfl⟩

/-- Recipes over a batch lose and invent nothing, and a row of them may be split anywhere: it
succeeds exactly when its parts do one after the other, with the names of both parts at every
position. -/
theorem applyRecipes_faithful (batch : Batch) :
    (∀ (recipes : List Recipe) (run : BatchRun), applyRecipes recipes batch = .ok run →
      run.Faithful batch recipes) ∧
    ∀ (recipes recipes' : List Recipe) (run : BatchRun),
      applyRecipes (recipes ++ recipes') batch = .ok run ↔
        ∃ run₁ run₂, applyRecipes recipes batch = .ok run₁ ∧
          applyRecipes recipes' run₁.files = .ok run₂ ∧
          run.files = run₂.files ∧
          run.changedBy = List.zipWith (· ++ ·) run₁.changedBy run₂.changedBy := by
  constructor
  · intro recipes run h
    obtain ⟨log, hruns, hchangedBy⟩ := applyRecipes_eq_ok_iff.1 h
    refine ⟨hruns.length_eq,
      by simp [hchangedBy], ⟨log, hruns, fun i hi => by simp [hchangedBy, hi]⟩, ?_, ?_⟩
    · intro i f g hf hg
      obtain ⟨hpath, hroot, -⟩ := hruns.kept hf hg
      exact ⟨hpath, hroot⟩
    · intro i f g hf hg hempty
      have hi : i < batch.length := (List.getElem?_eq_some_iff.1 hf).1
      refine (hruns.kept hf hg).2.2 ?_
      simpa [hchangedBy, hi] using hempty
  · intro recipes recipes' run
    have hsplit : ∀ (log log' : Log), (List.range batch.length).map (Log.reporters (log ++ log')) =
        List.zipWith (· ++ ·) ((List.range batch.length).map log.reporters)
          ((List.range batch.length).map log'.reporters) := by
      intro log log'
      simp [List.zipWith_map, List.zipWith_self, Log.reporters]
    constructor
    · intro h
      obtain ⟨log, hruns, hchangedBy⟩ := applyRecipes_eq_ok_iff.1 h
      obtain ⟨log₁, mid, log₂, rfl, h₁, h₂⟩ := Runs.append_iff.1 hruns
      exact ⟨_, _, h₁.applyRecipes_eq, h₂.applyRecipes_eq, rfl,
        by rw [hchangedBy, hsplit, h₁.length_eq]⟩
    · rintro ⟨run₁, run₂, hrun₁, hrun₂, hfiles, hchangedBy⟩
      obtain ⟨log₁, h₁, hchangedBy₁⟩ := applyRecipes_eq_ok_iff.1 hrun₁
      obtain ⟨log₂, h₂, hchangedBy₂⟩ := applyRecipes_eq_ok_iff.1 hrun₂
      refine applyRecipes_eq_ok_iff.2 ⟨log₁ ++ log₂, ?_, ?_⟩
      · rw [hfiles]
        exact Runs.append_iff.2 ⟨log₁, _, log₂, rfl, h₁, h₂⟩
      · rw [hchangedBy, hchangedBy₁, hchangedBy₂, h₁.length_eq, hsplit]

/-- A public method `foo`, which may be the factory of a bean. -/
def configFile (isBean : Bool) : SourceFile :=
  let d : Draft := {}
  let (foo, d) := d.classType "sample.Foo"
  let (mark, d) := d.annotationUse beanMarker []
  let (m, d) := d.method {
    annotations := if isBean then [some mark] else [], modifiers := [{ kind := .isPublic }]
    returns := some foo, name := "foo" }
  d.finish "Config.java" (some "sample") [] [some m]

/-- Two files of one path, told apart by their positions: the second is changed twice, the first is
not. -/
theorem applyRecipes_faithful_configFile :
    ∃ run run₁ run₂ : BatchRun,
      applyRecipes [.beanVisibility, .renameBean ⟨none, "foo", "bar"⟩]
      [configFile false, configFile true] =
        .ok run ∧
      run.changedBy = [[], [BeanVisibility.label, RenameBean.label]] ∧
      run.Faithful [configFile false, configFile true]
      [.beanVisibility, .renameBean ⟨none, "foo", "bar"⟩] ∧
      applyRecipes [.beanVisibility] [configFile false, configFile true] = .ok run₁ ∧
      applyRecipes [.renameBean ⟨none, "foo", "bar"⟩] run₁.files = .ok run₂ ∧
      run.files = run₂.files := by
  obtain ⟨hfaithful, hsplit⟩ := applyRecipes_faithful [configFile false, configFile true]
  have hrun : ∃ run, applyRecipes [.beanVisibility, .renameBean ⟨none, "foo", "bar"⟩]
        [configFile false, configFile true] = .ok run ∧
      run.changedBy = [[], [BeanVisibility.label, RenameBean.label]] :=
    ⟨_, by rfl, by decide +kernel⟩
  obtain ⟨run, hrun, hnames⟩ := hrun
  obtain ⟨run₁, run₂, hrun₁, hrun₂, hfiles, -⟩ :=
    (hsplit [.beanVisibility] [.renameBean ⟨none, "foo", "bar"⟩] run).1 hrun
  exact ⟨run, run₁, run₂, hrun, hnames, hfaithful _ run hrun, hrun₁, hrun₂, hfiles⟩

end JavaRecipes
