import JavaRecipes.Proofs.Command.Paths
import JavaRecipes.Proofs.Command.Writing

/-!
Where the changed trees go in an output directory. A tree keeps its path under the argument that it
was found by, a single file its name. So two trees come to one place exactly when different
arguments led to them, by one path under each (`written_ne_iff`); if no two do, all changed trees
are there in the end (`Prepared.holds_of_not_clash`).
-/

namespace JavaRecipes

/-! ## Finding trees -/

/-- The tree is found by the argument. -/
def FoundBy (fs : FileSystem) (root : String) (x : TreeInput) : Prop :=
  ∃ found, discoverAt fs root = .ok found ∧ x ∈ found

theorem mem_discover {fs : FileSystem} {roots : List String} {inputs : List TreeInput}
    (h : discover fs roots = .ok inputs) {x : TreeInput} :
    x ∈ inputs ↔ ∃ root ∈ roots, FoundBy fs root x := by
  induction roots generalizing inputs with
  | nil =>
    obtain rfl := Except.ok.inj h
    simp
  | cons root roots ih =>
    simp only [discover] at h
    cases hroot : discoverAt fs root with
    | error e => simp [hroot] at h
    | ok found =>
      simp only [hroot] at h
      cases hrest : discover fs roots with
      | error e => simp [hrest] at h
      | ok rest =>
        simp only [hrest] at h
        obtain rfl := Except.ok.inj h
        have hfound : FoundBy fs root x ↔ x ∈ found := by simp [FoundBy, hroot]
        simp [hfound, ih hrest]

/-- A single file has its name for a path, and what is in a directory its path from there. -/
theorem FoundBy.cases {fs : FileSystem} {root : String} {x : TreeInput} (h : FoundBy fs root x) :
    (fs.isFile root = true ∧ x = ⟨root, (Path.fileName? root).getD root⟩) ∨
    fs.isFile root = false ∧ ∃ l, ∃ names ∈ fs.filesUnder l,
      x = ⟨Path.join root (Text.joinWith "/" names), Text.joinWith "/" names⟩ := by
  obtain ⟨found, hfound, hx⟩ := h
  unfold discoverAt at hfound
  split at hfound
  · rename_i hfile
    obtain rfl := Except.ok.inj hfound
    exact .inl ⟨hfile, by simpa using hx⟩
  · rename_i hfile
    split at hfound
    · obtain rfl := Except.ok.inj hfound
      unfold treesUnder at hx
      split at hx
      · cases hx
      · rename_i l _
        obtain ⟨names, hnames, rfl⟩ := List.mem_map.1 hx
        have hmem := (List.mem_filter.1 ((List.mem_mergeSort).1 hnames)).1
        exact .inr ⟨by simpa using hfile, l, names, hmem, rfl⟩
    · cases hfound

/-- One argument finds one tree at a path. -/
theorem FoundBy.path_eq {fs : FileSystem} {root : String} {x y : TreeInput} (hx : FoundBy fs root x)
    (hy : FoundBy fs root y) (h : x.relative = y.relative) : x.path = y.path := by
  rcases hx.cases with ⟨hfile, rfl⟩ | ⟨hdir, l, names, hnames, rfl⟩
  · rcases hy.cases with ⟨-, rfl⟩ | ⟨hdir, -⟩
    · rfl
    · rw [hfile] at hdir
      cases hdir
  · rcases hy.cases with ⟨hfile, -⟩ | ⟨-, l', names', hnames', rfl⟩
    · rw [hdir] at hfile
      cases hfile
    · exact congrArg (Path.join root) h

/-! ## Places -/

namespace FileSystem

/-- Files have names, and there is nothing under them. -/
structure Proper (fs : FileSystem) : Prop where
  names : ∀ f ∈ fs.files, ∀ name ∈ f.1, Path.IsName name
  not_above_base : ∀ f ∈ fs.files, ¬ f.1 <+: fs.base
  not_above_dirs : ∀ f ∈ fs.files, ∀ d ∈ fs.dirs, ¬ f.1 <+: d
  not_above_files : ∀ f ∈ fs.files, ∀ f' ∈ fs.files, f.1 <+: f'.1 → f'.1 = f.1

variable {fs : FileSystem}

theorem mem_of_entry?_file {l : Location} {text : Option String}
    (h : fs.entry? l = some (.file text)) :
    (l, text) ∈ fs.files := by
  obtain ⟨before, after, hfiles, -⟩ := List.lookup_eq_some_iff.1 (entry?_eq_file_iff.1 h)
  simp [hfiles]

theorem Proper.leaf (hfs : fs.Proper) {l l' : Location} {text : Option String}
    (hl : fs.entry? l = some (.file text)) (hl' : fs.entry? l' = some .directory) : ¬ l <+: l' := by
  intro hle
  have hmem := mem_of_entry?_file hl
  obtain ⟨hnone, hbelow⟩ := entry?_eq_directory_iff.1 hl'
  simp only [List.isPrefixOf_iff_prefix, List.any_eq_true] at hbelow
  rcases hbelow with hbase | ⟨d, hd, hle'⟩ | ⟨f, hf, hle'⟩
  · exact hfs.not_above_base _ hmem (hle.trans hbase)
  · exact hfs.not_above_dirs _ hmem d hd (hle.trans hle')
  · have hsame : f.1 = l := hfs.not_above_files _ hmem f hf (hle.trans hle')
    obtain rfl : l' = l :=
      (hsame ▸ hle').eq_of_length (Nat.le_antisymm (hsame ▸ hle').length_le hle.length_le)
    rw [entry?_eq_file_iff.1 hl] at hnone
    cases hnone

theorem Proper.base_directory (hfs : fs.Proper) : fs.entry? fs.base = some .directory := by
  refine entry?_eq_directory_iff.2
    ⟨Option.eq_none_iff_forall_ne_some.2 fun text htext => ?_, by simp⟩
  exact hfs.not_above_base _ (mem_of_entry?_file (entry?_eq_file_iff.2 htext)) List.prefix_rfl

theorem exists_of_isFile {p : String} (h : fs.isFile p = true) :
    ∃ l text, fs.locate? p = some l ∧ fs.entry? l = some (.file text) := by
  unfold isFile at? at h
  cases hl : fs.locate? p with
  | none => simp [hl] at h
  | some l =>
    cases he : fs.entry? l with
    | none => simp [hl, he] at h
    | some e =>
      cases e with
      | directory => simp [hl, he] at h
      | file text => exact ⟨l, text, rfl, he⟩

theorem follow_append_singleton {l l' : Location} {names : List String} {name : String}
    (h : fs.follow l (names ++ [name]) = some l') :
    ∃ above, fs.entry? above = some .directory ∧ l' = step above name := by
  induction names generalizing l with
  | nil =>
    simp only [List.nil_append, follow] at h
    split at h
    · rename_i hdir
      exact ⟨l, hdir, (Option.some.inj h).symm⟩
    · cases h
  | cons first names ih =>
    simp only [List.cons_append, follow] at h
    split at h
    · exact ih h
    · cases h

/-- A file has a name. -/
theorem Proper.exists_fileName? (hfs : fs.Proper) {p : String} (h : fs.isFile p = true) :
    ∃ name, Path.fileName? p = some name := by
  obtain ⟨l, text, hlocate, hfile⟩ := exists_of_isFile h
  unfold locate? at hlocate
  unfold Path.fileName?
  -- Without a last step, or with one that goes up, the path would lead to a directory.
  cases hlast : (Path.steps p).getLast? with
  | none =>
    rw [List.getLast?_eq_none_iff.1 hlast] at hlocate
    obtain rfl := Option.some.inj hlocate
    have hprefix : fs.origin p <+: fs.base := by
      unfold origin
      split
      · exact List.nil_prefix
      · exact List.prefix_rfl
    exact absurd hprefix (hfs.leaf hfile hfs.base_directory)
  | some name =>
    by_cases hdots : name = ".."
    · obtain ⟨names, hnames⟩ := List.getLast?_eq_some_iff.1 hlast
      rw [hnames] at hlocate
      obtain ⟨above, hdir, rfl⟩ := follow_append_singleton hlocate
      rw [step, if_pos hdots] at hfile
      exact absurd (List.dropLast_prefix above) (hfs.leaf hfile hdir)
    · exact ⟨name, by simp [hdots]⟩

theorem mem_filesUnder {l names : Location} (h : names ∈ fs.filesUnder l) :
    ∃ f ∈ fs.files, names = f.1.drop l.length := by
  obtain ⟨⟨location, text⟩, hf, hnames⟩ := List.mem_filterMap.1 h
  simp only at hnames
  split at hnames
  · exact ⟨(location, text), hf, (Option.some.inj hnames).symm⟩
  · cases hnames

theorem foldl_step (l : Location) {names : List String} (h : ∀ name ∈ names, Path.IsName name) :
    names.foldl step l = l ++ names := by
  induction names generalizing l with
  | nil => simp
  | cons name names ih =>
    have hstep : step l name = l ++ [name] := if_neg (h name List.mem_cons_self).inside
    rw [List.foldl_cons, hstep, ih _ fun name hmem => h name (List.mem_cons_of_mem _ hmem),
      List.append_assoc]
    rfl

/-- Names under a path lead on from its place. -/
theorem place_join (fs : FileSystem) (dir : String) {names : List String}
    (h : ∀ name ∈ names, Path.IsName name) :
    fs.place (Path.join dir (Text.joinWith "/" names)) = fs.place dir ++ names := by
  have horigin : fs.origin (Path.join dir (Text.joinWith "/" names)) = fs.origin dir := by
    simp only [origin, Path.isAbsolute_join dir (Path.isAbsolute_joinWith h)]
  rw [place, Path.steps_join, List.foldl_append, Path.steps_joinWith h, horigin, foldl_step _ h]
  rfl

end FileSystem

/-- The path of a tree under its argument is one of names. -/
theorem FoundBy.exists_names {fs : FileSystem} (hfs : fs.Proper) {root : String} {x : TreeInput}
    (h : FoundBy fs root x) : ∃ names, (∀ name ∈ names, Path.IsName name) ∧
      x.relative = Text.joinWith "/" names := by
  rcases h.cases with ⟨hfile, rfl⟩ | ⟨-, l, names, hnames, rfl⟩
  · obtain ⟨name, hname⟩ := hfs.exists_fileName? hfile
    exact ⟨[name], by simpa using Path.fileName?_eq_some hname, by simp [hname, Text.joinWith]⟩
  · obtain ⟨f, hf, rfl⟩ := FileSystem.mem_filesUnder hnames
    exact ⟨_, fun name hmem => hfs.names f hf name (List.mem_of_mem_drop hmem), rfl⟩

/-- Trees have one place in the output directory when they have one path under their arguments. -/
theorem place_relative_iff {fs : FileSystem} (hfs : fs.Proper) (dir : String) {root root' : String}
    {x y : TreeInput} (hx : FoundBy fs root x) (hy : FoundBy fs root' y) :
    fs.place (Path.join dir x.relative) = fs.place (Path.join dir y.relative) ↔
      x.relative = y.relative := by
  obtain ⟨names, hnames, hrelative⟩ := hx.exists_names hfs
  obtain ⟨names', hnames', hrelative'⟩ := hy.exists_names hfs
  rw [hrelative, hrelative']
  constructor
  · intro hplace
    rw [fs.place_join dir hnames, fs.place_join dir hnames'] at hplace
    rw [List.append_cancel_left hplace]
  · intro h
    rw [h]

/-! ## Runs -/

/-- Two arguments lead to different trees that have one path under them, and both are changed. -/
def Clash (a : Arguments) (fs : FileSystem) (outcomes : List Outcome) : Prop :=
  ∃ root ∈ a.paths, ∃ root' ∈ a.paths, root ≠ root' ∧
    ∃ o ∈ outcomes, ∃ o' ∈ outcomes, o.changed ∧ o'.changed ∧ FoundBy fs root o.input ∧
      FoundBy fs root' o'.input ∧ o.input.path ≠ o'.input.path ∧
      o.input.relative = o'.input.relative

section

variable {a : Arguments} {fs : FileSystem} {recipes : List Recipe} {outcomes : List Outcome}
  {dir : String}

theorem Prepared.exists_foundBy (h : Prepared a fs recipes outcomes) {o : Outcome}
    (ho : o ∈ outcomes) :
    ∃ root ∈ a.paths, FoundBy fs root o.input :=
  (mem_discover h.found).1 (List.mem_map_of_mem ho)

theorem Prepared.place_iff (h : Prepared a fs recipes outcomes) (hfs : fs.Proper) (dir : String)
    {o o' : Outcome} (ho : o ∈ outcomes) (ho' : o' ∈ outcomes) :
    fs.place (Path.join dir o.input.relative) = fs.place (Path.join dir o'.input.relative) ↔
      o.input.relative = o'.input.relative := by
  obtain ⟨root, -, hx⟩ := h.exists_foundBy ho
  obtain ⟨root', -, hy⟩ := h.exists_foundBy ho'
  exact place_relative_iff hfs dir hx hy

/-- Different trees clash when they have one path under their arguments. -/
theorem Prepared.clash_iff (h : Prepared a fs recipes outcomes) : Clash a fs outcomes ↔
    ∃ o ∈ outcomes, ∃ o' ∈ outcomes, o.changed ∧ o'.changed ∧ o.input.path ≠ o'.input.path ∧
      o.input.relative = o'.input.relative := by
  constructor
  · rintro ⟨_, -, _, -, -, o, ho, o', ho', hchanged, hchanged', -, -, hne, hsame⟩
    exact ⟨o, ho, o', ho', hchanged, hchanged', hne, hsame⟩
  · rintro ⟨o, ho, o', ho', hchanged, hchanged', hne, hsame⟩
    obtain ⟨root, hroot, hx⟩ := h.exists_foundBy ho
    obtain ⟨root', hroot', hy⟩ := h.exists_foundBy ho'
    refine ⟨root, hroot, root', hroot', ?_, o, ho, o', ho', hchanged, hchanged', hx, hy, hne, hsame⟩
    rintro rfl
    exact hne (hx.path_eq hy hsame)

theorem Prepared.mem_changed (h : Prepared a fs recipes outcomes) {r : RunResult}
    (hr : (runProgram a fs).1 = .ok r) {c : ChangedFile} :
    c ∈ r.changed ↔ ∃ o ∈ outcomes, o.changed ∧ o.report a = c := by
  rw [h.wrote.reported r hr]
  simp [and_assoc]

theorem report_written (hdir : a.outDir = some dir) (hdry : a.dryRun = false) (o : Outcome) :
    (o.report a).written = some (Path.join dir o.input.relative) := by
  simp [Outcome.report, destination, hdir, hdry]

/-- A property that tells different paths under arguments apart tells all changed trees apart if
none of them clash. -/
theorem Prepared.apart_iff (h : Prepared a fs recipes outcomes) {r : RunResult}
    (hr : (runProgram a fs).1 = .ok r) {p : ChangedFile → ChangedFile → Prop}
    (hp : ∀ o ∈ outcomes, ∀ o' ∈ outcomes,
      (p (o.report a) (o'.report a) ↔ o.input.relative ≠ o'.input.relative)) :
    (∀ c ∈ r.changed, ∀ c' ∈ r.changed, c.treePath ≠ c'.treePath → p c c') ↔
      ¬ Clash a fs outcomes := by
  rw [h.clash_iff]
  constructor
  · rintro hall ⟨o, ho, o', ho', hchanged, hchanged', hne, hsame⟩
    have hc := (h.mem_changed hr).2 ⟨o, ho, hchanged, rfl⟩
    have hc' := (h.mem_changed hr).2 ⟨o', ho', hchanged', rfl⟩
    exact (hp o ho o' ho').1 (hall _ hc _ hc' hne) hsame
  · intro hnone c hc c' hc' hne
    obtain ⟨o, ho, hchanged, rfl⟩ := (h.mem_changed hr).1 hc
    obtain ⟨o', ho', hchanged', rfl⟩ := (h.mem_changed hr).1 hc'
    exact (hp o ho o' ho').2 fun hsame => hnone ⟨o, ho, o', ho', hchanged, hchanged', hne, hsame⟩

/-- Changed trees that differ have different destinations in an output directory, as paths and as
places, exactly when none of them clash. -/
theorem written_ne_iff (hdir : a.outDir = some dir) (hdry : a.dryRun = false) {r : RunResult}
    (hr : (runProgram a fs).1 = .ok r) : ∃ recipes outcomes, Prepared a fs recipes outcomes ∧
      ((∀ c ∈ r.changed, ∀ c' ∈ r.changed, c.treePath ≠ c'.treePath → c.written ≠ c'.written) ↔
        ¬ Clash a fs outcomes) ∧
      (fs.Proper → ((∀ c ∈ r.changed, ∀ c' ∈ r.changed, c.treePath ≠ c'.treePath →
        c.written.map fs.place ≠ c'.written.map fs.place) ↔ ¬ Clash a fs outcomes)) := by
  obtain ⟨recipes, outcomes, h⟩ := Prepared.of_runProgram hr
  refine ⟨recipes, outcomes, h, h.apart_iff hr fun o _ o' _ => ?_,
    fun hfs => h.apart_iff hr fun o ho o' ho' => ?_⟩
  · rw [report_written hdir hdry, report_written hdir hdry, not_iff_not, Option.some_inj]
    exact ⟨Path.join_right_injective dir, congrArg _⟩
  · rw [report_written hdir hdry, report_written hdir hdry, not_iff_not, Option.map_some,
      Option.map_some, Option.some_inj]
    exact h.place_iff hfs dir ho ho'

/-- Then all of them are there in the end. -/
theorem Prepared.holds_of_not_clash (h : Prepared a fs recipes outcomes) (hfs : fs.Proper)
    (hdir : a.outDir = some dir) (hdry : a.dryRun = false) {r : RunResult}
    (hr : (runProgram a fs).1 = .ok r) (hnone : ¬ Clash a fs outcomes) {o : Outcome}
    (ho : o ∈ outcomes) (hchanged : o.changed) :
    (runProgram a fs).2.read? (Path.join dir o.input.relative) = some o.file.encode := by
  have hdestination : ∀ o : Outcome, destination a o.input = Path.join dir o.input.relative := by
    simp [destination, hdir]
  obtain ⟨before, later, hsplit⟩ := List.append_of_mem ho
  rw [← hdestination]
  refine (h.wrote.holds r hr hdry before o later hsplit hchanged
    fun o' hmem hchanged' hplace => ?_).2
  have ho' : o' ∈ outcomes := by simp [hsplit, hmem]
  rw [hdestination, hdestination, h.place_iff hfs dir ho' ho] at hplace
  rw [h.clash_iff] at hnone
  by_contra hne
  exact hnone ⟨o', ho', o, ho, hchanged', hchanged, fun hpath => hne (by rw [hpath]), hplace⟩

end

/-- Two trees of one name in two directories. -/
def twinSource (second : Bool) : SourceFile :=
  { configFile true with path := if second then "B.java" else "A.java" }

def twinTrees : FileSystem where
  files := [(["trees", "a", "x.json"], some (twinSource false).encode),
    (["trees", "b", "x.json"], some (twinSource true).encode)]

def twinRun (paths : List String) : Arguments where
  paths
  recipes := [.beanVisibility]
  outDir := some "out"

/-- What the run makes of the trees. -/
def twinResult (second : Bool) : SourceFile :=
  ((applyRecipes [.beanVisibility] [twinSource second]).toOption.bind (·.files.head?)).getD
    (twinSource second)

def twinOutcomes (first second : String) : List Outcome :=
  [⟨twinResult false, ⟨"trees/a/x.json", first⟩, [BeanVisibility.label]⟩,
    ⟨twinResult true, ⟨"trees/b/x.json", second⟩, [BeanVisibility.label]⟩]

theorem prepared_twinRun {paths : List String} {first second : String}
    (hfound :
      discover twinTrees paths = .ok [⟨"trees/a/x.json", first⟩, ⟨"trees/b/x.json", second⟩]) :
    Prepared (twinRun paths) twinTrees [.beanVisibility] (twinOutcomes first second) where
  chosen := ⟨_, rfl, rfl⟩
  found := hfound
  found_ne := by simp [twinOutcomes]
  rewritten := by
    have hload : ∀ p b, twinTrees.read? p = some (twinSource b).encode →
        loadTree twinTrees p = .ok (twinSource b) := by
      intro p b hread
      have hfits : (twinSource b).Fits := by
        cases b <;> exact SourceFile.fits_of_forall_mem (by decide +kernel) (by decide +kernel)
          (by decide +kernel)
      have hfresh : (twinSource b).refresh = twinSource b := by
        cases b <;> decide +kernel
      simp only [loadTree, hread, SourceFile.decode?_encode hfits, hfresh]
    have hfirst := hload "trees/a/x.json" false rfl
    have hsecond := hload "trees/b/x.json" true rfl
    have hrun : applyRecipes [.beanVisibility] [twinSource false, twinSource true] =
        .ok ⟨[twinResult false, twinResult true],
          [[BeanVisibility.label], [BeanVisibility.label]]⟩ := by
      decide +kernel
    exact ⟨_, loadTrees_eq_ok_iff.2 (.cons hfirst (.cons hsecond .nil)), hrun⟩

theorem discover_twinTrees : discover twinTrees ["trees"] =
    .ok [⟨"trees/a/x.json", "a/x.json"⟩, ⟨"trees/b/x.json", "b/x.json"⟩] := by
  have hlocate : twinTrees.locate? "trees" = some ["trees"] := by decide +kernel
  have hfound : ((twinTrees.filesUnder ["trees"]).filter fun names =>
      (names.getLast?.bind Path.extension?) = some "json") = [["a", "x.json"],
          ["b", "x.json"]] := by
    decide +kernel
  have hunder : treesUnder twinTrees "trees" =
      [⟨"trees/a/x.json", "a/x.json"⟩, ⟨"trees/b/x.json", "b/x.json"⟩] := by
    simp only [treesUnder, hlocate, hfound]
    rw [List.mergeSort_of_pairwise (by decide)]
    decide +kernel
  have hfile : twinTrees.isFile "trees" = false := by decide +kernel
  have hdir : twinTrees.isDirectory "trees" = true := by decide +kernel
  simp [discover, discoverAt, hfile, hdir, hunder]

/-- Found by their directory, they go to different places. -/
theorem written_ne_iff_twinTrees : ∃ r, (runProgram (twinRun ["trees"]) twinTrees).1 = .ok r ∧
    r.changed.map (·.written) = [some "out/a/x.json", some "out/b/x.json"] ∧
    ∀ c ∈ r.changed, ∀ c' ∈ r.changed, c.treePath ≠ c'.treePath →
      c.written.map twinTrees.place ≠ c'.written.map twinTrees.place := by
  have hprepared := prepared_twinRun discover_twinTrees
  have hproper : twinTrees.Proper := ⟨by decide +kernel, by decide, by decide, by decide⟩
  obtain ⟨r, hr⟩ : ∃ r, (runProgram (twinRun ["trees"]) twinTrees).1 = .ok r :=
    hprepared.exists_runProgram_eq_ok (by decide +kernel)
  obtain ⟨_, outcomes, -, -, hplaces⟩ := written_ne_iff rfl rfl hr
  refine ⟨r, hr, ?_, (hplaces hproper).2 ?_⟩
  · rw [hprepared.wrote.reported r hr]
    decide +kernel
  · rintro ⟨root, hroot, root', hroot', hne, -⟩
    simp only [twinRun, List.mem_singleton] at hroot hroot'
    exact hne (hroot.trans hroot'.symm)

/-- Found as single files, they go to one place, where the second is left. -/
theorem written_eq_twinTrees : ∃ r,
    (runProgram (twinRun ["trees/a/x.json", "trees/b/x.json"]) twinTrees).1 = .ok r ∧
    (∃ c ∈ r.changed, ∃ c' ∈ r.changed, c.treePath ≠ c'.treePath ∧ c.written = c'.written) ∧
    (runProgram (twinRun ["trees/a/x.json", "trees/b/x.json"]) twinTrees).2.read? "out/x.json" =
      some (twinResult true).encode := by
  have hprepared : Prepared (twinRun ["trees/a/x.json", "trees/b/x.json"]) twinTrees
      [.beanVisibility] (twinOutcomes "x.json" "x.json") := prepared_twinRun (by decide +kernel)
  obtain ⟨r, hr⟩ := hprepared.exists_runProgram_eq_ok (by decide +kernel)
  have hfirst := (hprepared.mem_changed hr).2 ⟨_, List.mem_cons_self, rfl, rfl⟩
  have hsecond :=
    (hprepared.mem_changed hr).2 ⟨_, List.mem_cons_of_mem _ List.mem_cons_self, rfl, rfl⟩
  have hlast := (hprepared.wrote.holds r hr rfl [_] _ [] rfl rfl (by simp)).2
  exact ⟨r, hr, ⟨_, hfirst, _, hsecond, by decide +kernel, by decide +kernel⟩, hlast⟩

end JavaRecipes
