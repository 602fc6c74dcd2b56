import JavaRecipes.Proofs.Edit.Indexes
import JavaRecipes.Proofs.Recipe.Grafting
import JavaRecipes.Proofs.Tree.Reload

/-!
Recipes in a row. Every file that was a linked tree is one after the run, and when it is stored and
loaded its nodes get the links back that they had, except for new nodes at positions that a slot
named before (`linked_of_applyRecipes`).
-/

namespace JavaRecipes

/-- A run of recipes keeps what each recipe keeps, file by file. -/
theorem BatchRun.steps_invariant {b b' : BatchRun} {recipes : List Recipe}
    (h : b.steps recipes = .ok b') (inv : Nat → SourceFile → Prop)
    (hstart : ∀ i f, b.files[i]? = some f → inv i f)
    (hstep : ∀ (recipe : Recipe) (batch : Batch) (changes : List FileChange),
      recipe.run batch = .ok changes → ∀ i f g, batch[i]? = some f →
      (merge batch changes)[i]? = some g →
        inv i f → inv i g) :
    b'.files.length = b.files.length ∧ ∀ i g, b'.files[i]? = some g → inv i g := by
  induction recipes generalizing b with
  | nil =>
    obtain rfl := Except.ok.inj h
    exact ⟨rfl, hstart⟩
  | cons recipe recipes ih =>
    simp only [steps, step] at h
    cases hrun : recipe.run b.files with
    | error cause => simp [hrun] at h
    | ok changes =>
      simp only [hrun] at h
      have hchange := hrun
      rw [Recipe.run_eq] at hchange
      obtain ⟨hlength, hfiles⟩ := ih h fun i g hg => by
        obtain ⟨f, hf, -⟩ := exists_of_getElem?_merge hchange hg
        exact hstep recipe b.files changes hrun i f g hf hg (hstart i f hf)
      exact ⟨hlength.trans (merge_changeFiles hchange).1, hfiles⟩

/-- What a file keeps of the file that was loaded: a tree that is tidy but for the positions that
slots named before there was a node, and indexes that are in range. -/
structure SourceFile.Kept (f g : SourceFile) : Prop where
  tidy : g.store.Tidy g.root f.store.missing
  contained : Draft.Contained { store := g.store, types := g.types }
  root : Ref.Fits g.root

namespace SourceFile.Kept

theorem start {f : SourceFile} {text : String} (hload : decode? text = some f) (hf : f.Linked) :
    f.Kept f := by
  have hfresh := (of_decode? hload).1
  have hrelink : f.store.relink = f.store := congrArg SourceFile.store hfresh
  obtain ⟨v, -, hv⟩ := Option.bind_eq_some_iff.1 hload
  obtain ⟨g, hg, rfl⟩ := Option.map_eq_some_iff.1 hv
  have hfits := fits_of_ofJson? hg
  refine ⟨hf.tidy hrelink, ⟨?_, ?_, ?_, ?_, ?_⟩, hfits.root⟩
  · intro m k hk
    have hm := Store.lt_size_of_parent hk
    exact .inr (Store.holds_lt_size ((Store.relink_eq_self_iff.1 hrelink m hm k).1 hk).1)
  · intro n m hh
    obtain ⟨x, hx⟩ := Store.exists_data? (Store.holds_lt_size hh)
    obtain ⟨field, hfield, hm⟩ := List.mem_flatMap.1 ((Store.holds_iff hx).1 hh)
    have hx' : g.store.data? (some n) = some x :=
      (Store.data?_relink g.store (some n)).symm.trans hx
    exact .inl ((hfits.payloads hx').fields field hfield _ hm m rfl)
  · intro r x hx i hi
    have hx' : g.store.data? r = some x := (Store.data?_relink g.store r).symm.trans hx
    exact .inl ((hfits.payloads hx').types i hi)
  · exact fun id e he i hi => .inl (hfits.entries he i hi)
  · exact (TypeTable.indexed_reindex g.types).sound

theorem step {f g g' : SourceFile} (h : f.Kept g) {recipe : Recipe} {batch : Batch}
    {changes : List FileChange} (hrun : recipe.run batch = .ok changes) {i : Nat}
    (hg : batch[i]? = some g) (hg' : (merge batch changes)[i]? = some g') : f.Kept g' := by
  have hlinked : g.Linked := h.tidy.linked g.path g.types
  have htidy := Recipe.tidy_of_run hrun hg hg' h.tidy
  rw [Recipe.run_eq] at hrun
  obtain ⟨g'', hg'', happly⟩ := exists_of_getElem?_merge hrun hg'
  obtain rfl := Option.some.inj (hg.symm.trans hg'')
  obtain ⟨hfault, d, hd, rfl⟩ := EditSet.apply_eq_ok happly
  have hes := (Recipe.grafts hg hlinked hfault).each
  exact ⟨htidy, h.contained.run (Nat.le_refl _) hes hd, h.root⟩

/-- The links come back. -/
theorem reload {f g : SourceFile} (h : f.Kept g) (hsize : g.store.size ≤ Ref.vacant)
    (htypes : g.types.size ≤ 4294967296) :
    ∃ g', decode? g.encode = some g' ∧
      ∀ n, g.Reaches n → n ∉ f.store.missing → g'.store.parent (some n) = g.store.parent (some n) :=
  ⟨g.refresh, decode?_encode (h.contained.fits h.root hsize htypes),
    fun _ hn hnot => h.tidy.parent_relink hn hnot⟩

end SourceFile.Kept

/-- Recipes keep loaded trees linked. Each node in reach of a result gets its link back when the
result is stored and loaded again, unless a slot of the loaded file named its position before there
was a node. (A result that is not too large: nodes and types are counted by numbers of 32 bits.) -/
theorem linked_of_applyRecipes {recipes : List Recipe} {batch : Batch} {run : BatchRun}
    (hload : ∀ f ∈ batch, ∃ text, SourceFile.decode? text = some f)
    (hlinked : ∀ f ∈ batch, f.Linked) (h : applyRecipes recipes batch = .ok run) :
    run.files.length = batch.length ∧
      ∀ (i : Nat) (f g : SourceFile), batch[i]? = some f → run.files[i]? = some g →
        g.Linked ∧
        (g.store.size ≤ Ref.vacant → g.types.size ≤ 4294967296 →
          ∃ g', SourceFile.decode? g.encode = some g' ∧
            ∀ n, g.Reaches n → n ∉ f.store.missing →
              g'.store.parent (some n) = g.store.parent (some n)) := by
  obtain ⟨hlength, hkept⟩ :=
    BatchRun.steps_invariant h (fun i g => ∀ f, batch[i]? = some f → f.Kept g)
    (by
      intro i f hf f' hf'
      obtain rfl := Option.some.inj (hf'.symm.trans hf)
      have hmem := List.mem_of_getElem? hf
      obtain ⟨text, htext⟩ := hload f' hmem
      exact .start htext (hlinked f' hmem))
    (fun recipe batch changes hrun i g g' hg hg' hinv f hf => (hinv f hf).step hrun hg hg')
  refine ⟨hlength, fun i f g hf hg => ?_⟩
  have hfg := hkept i g hg f hf
  exact ⟨hfg.tidy.linked g.path g.types, hfg.reload⟩

/-! ## A stray block -/

/-- A file with a call `setMaxFileSize(5)`. Beside the tree stands a block, which may have a
statement that is not there. -/
def strayFile (awaits : Bool) : SourceFile where
  path := "A.java"
  store := { nodes := #[
    ⟨some 2, .identifier { name := "setMaxFileSize", type := none, variableType := none }⟩,
    ⟨some 2, .literal { value := .long 5, type := some 1 }⟩,
    ⟨some 3,
      .methodInvocation { select := none, name := some 0, arguments := [some 1], type := some 2 }⟩,
    ⟨none, .compilationUnit { packageName := none, imports := [], classes := [some 2] }⟩,
    ⟨none, .block { statements := if awaits then [some 7] else [] }⟩] }
  types := {
    entries := #[.classType ⟨MultipartSizes.factoryClass, none⟩, .primitive .long,
      .method { declaring := 0, name := "setMaxFileSize", returns := none, params := [1] }]
    classes := [(MultipartSizes.factoryClass, 0)] }
  root := some 3

theorem linked_strayFile (awaits : Bool) : (strayFile awaits).Linked := by
  cases awaits <;> exact SourceFile.linked_of_closed [0, 1, 2, 3] (by decide) (by decide) rfl

theorem load_strayFile (awaits : Bool) :
    SourceFile.decode? (strayFile awaits).encode = some (strayFile awaits) := by
  have hfits : (strayFile awaits).Fits := by
    cases awaits <;> exact SourceFile.fits_of_forall_mem (by decide) (by decide) (by decide)
  have hfresh : (strayFile awaits).refresh = strayFile awaits := by
    cases awaits <;> decide +kernel
  rw [SourceFile.decode?_encode hfits, hfresh]

/-- What two recipes make of the file. -/
def strayRun (awaits : Bool) : Except BatchError BatchRun :=
  applyRecipes [.multipartSizes, .beanVisibility] [strayFile awaits]

/-- The file that the run leaves. -/
def strayResult (awaits : Bool) : SourceFile :=
  ((strayRun awaits).toOption.bind (·.files.head?)).getD (strayFile awaits)

/-- The size is wrapped, and all links come back. -/
theorem linked_of_applyRecipes_strayFile :
    strayRun false = .ok ⟨[strayResult false], [[MultipartSizes.label]]⟩ ∧
    (strayResult false).Linked ∧
      ∃ g', SourceFile.decode? (strayResult false).encode = some g' ∧
        ∀ n, (strayResult false).Reaches n →
          g'.store.parent (some n) = (strayResult false).store.parent (some n) := by
  have hrun : applyRecipes [.multipartSizes, .beanVisibility] [strayFile false] =
      .ok ⟨[strayResult false], [[MultipartSizes.label]]⟩ := by decide +kernel
  have hinside : ∀ k < 5, ∀ r ∈ (strayFile false).store.children (some k), ∀ m ∈ r, m < 5 := by
    decide
  obtain ⟨hlinked, hreload⟩ := (linked_of_applyRecipes
    (by simpa using ⟨_, load_strayFile false⟩) (by simpa using linked_strayFile false) hrun).2 0
    (strayFile false) (strayResult false) rfl rfl
  obtain ⟨g', hload, hparent⟩ := hreload (by decide +kernel) (by decide +kernel)
  refine ⟨hrun, hlinked, g', hload, fun n hn => hparent n hn ?_⟩
  rintro ⟨hle, k, hk⟩
  exact absurd (hinside k (Store.holds_lt_size hk) _ hk n rfl) (Nat.not_lt.2 hle)

/-- The block gets the new call when the file is loaded again, as it comes after the true holder. -/
theorem reload_strayFile :
    SourceFile.decode? (strayFile true).encode = some (strayFile true) ∧ (strayFile true).Linked ∧
      strayRun true = .ok ⟨[strayResult true], [[MultipartSizes.label]]⟩ ∧
      ∃ g', SourceFile.decode? (strayResult true).encode = some g' ∧ (strayResult true).Reaches 7 ∧
        (strayResult true).store.parent (some 7) = some 2 ∧ g'.store.parent (some 7) = some 4 := by
  have hfits : (strayResult true).Fits :=
    SourceFile.fits_of_forall_mem (by decide +kernel) (by decide +kernel) (by decide +kernel)
  refine ⟨load_strayFile true, linked_strayFile true, by decide +kernel, _,
    SourceFile.decode?_encode hfits, ?_, by decide +kernel, by decide +kernel⟩
  have hroot : (strayResult true).Reaches 3 := .start (by decide +kernel) (by decide +kernel)
  have hcall : (strayResult true).Reaches 2 := .step hroot (by decide +kernel) (by decide +kernel)
  exact .step hcall (by decide +kernel) (by decide +kernel)

end JavaRecipes
