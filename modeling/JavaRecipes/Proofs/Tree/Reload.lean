import JavaRecipes.Proofs.Tree.Built
import JavaRecipes.Proofs.Tree.Stored

/-!
Storing a file and loading it again. What is stored comes back as it was, what is not stored is
drawn afresh; so a file that was loaded or built comes back unchanged (`decode?_encode_restores`).
-/

namespace JavaRecipes

namespace SourceFile

/-- Links that are drawn afresh stay in the store. -/
theorem fits_refresh {f : SourceFile} (h : f.Fits) (hsize : f.store.size ≤ Ref.vacant) :
    f.refresh.Fits := by
  refine ⟨?_, fun {r x} hx => h.payloads (r := r) ?_, h.entries, h.root⟩
  · intro r n hn
    cases r with
    | none => cases hn
    | some m =>
      have hm : m < f.store.size := by
        obtain ⟨node, hnode, -⟩ := Option.bind_eq_some_iff.1 hn
        have hget : f.store.relink.get? (some m) = some node := hnode
        rw [← Store.size_relink]
        exact (Store.data?_isSome_iff _ m).1 (by simp [Store.data?, hget])
      exact (Store.holds_lt_size ((Store.parent_relink_eq_some_iff hm).1 hn).1).trans_le hsize
  · rw [← Store.data?_relink]
    exact hx

theorem refresh_refresh (f : SourceFile) : f.refresh.refresh = f.refresh := by
  simp [refresh, Store.relink_relink, TypeTable.reindex]

/-- What was loaded has its links and its index drawn, and indexes of 32 bits. -/
theorem of_decode? {text : String} {f : SourceFile} (h : decode? text = some f) :
    f.refresh = f ∧ (f.store.size ≤ Ref.vacant → f.Fits) := by
  obtain ⟨v, -, hv⟩ := Option.bind_eq_some_iff.1 h
  obtain ⟨g, hg, rfl⟩ := Option.map_eq_some_iff.1 hv
  refine ⟨refresh_refresh g, fun hsize => fits_refresh (fits_of_ofJson? hg) ?_⟩
  simpa [refresh] using hsize

/-- Loading undoes storing. Path, root, payloads and type entries come back, links and class index
as they are drawn from these; so a file that was loaded, or built with each child before its holder,
comes back as it is. -/
theorem decode?_encode_restores :
    (∀ f : SourceFile, f.Fits → ∃ g, decode? f.encode = some g ∧ g.path = f.path ∧ g.root = f.root ∧
      g.store.size = f.store.size ∧ (∀ r, g.store.data? r = f.store.data? r) ∧
      g.types.entries = f.types.entries ∧ g.store = f.store.relink ∧ g.types = f.types.reindex) ∧
    (∀ text f, decode? text = some f → f.store.size ≤ Ref.vacant → decode? f.encode = some f) ∧
    ∀ d : Draft, d.Built → ∀ path packageName imports classes, d.Has classes →
      (d.finish path packageName imports classes).Fits →
      decode? (d.finish path packageName imports classes).encode =
        some (d.finish path packageName imports classes) := by
  refine ⟨fun f hf => ?_, fun text f hf hsize => ?_,
    fun d hd path packageName imports classes hclasses hf => ?_⟩
  · exact ⟨f.refresh, decode?_encode hf, rfl, rfl, Store.size_relink f.store,
      Store.data?_relink f.store, rfl,
      rfl, rfl⟩
  · obtain ⟨hfresh, hfits⟩ := of_decode? hf
    rw [decode?_encode (hfits hsize), hfresh]
  · rw [decode?_encode hf, hd.refresh_finish path packageName imports hclasses]

/-- A block that holds a literal twice, with links to nowhere and no index. -/
def staleBlock : SourceFile where
  path := "Ä.java"
  store := { nodes := #[⟨some 7, .block { statements := [some 1, none, some 1] }⟩,
    ⟨some 1, .literal { value := .long (-9223372036854775808), type := some 0 }⟩] }
  types := { entries := #[.classType ⟨"a.A$B", some 3⟩, .unknown] }
  root := some 0

/-- A class with one literal, built from nothing. -/
def builtClass : Draft :=
  let typed := Draft.classType {} "a.A" none
  let valued := typed.2.literal (.string "\n")
  let returned := valued.2.returnStatement (some valued.1)
  (returned.2.classDeclaration {
    name := "A", members := [some returned.1], type := some typed.1 }).2

theorem fits_staleBlock : staleBlock.Fits := fits_of_forall_mem (by decide) (by decide) (by decide)

theorem built_builtClass : builtClass.Built :=
  (((Draft.Built.empty.classType "a.A" none).literal (.string "\n")).returnStatement
    (Draft.has_fst_add _ _)).classDeclaration (Draft.has_nil _) (Draft.has_fst_add _ _)

/-- A file with links to nowhere, the file that is loaded from its text, and a file that was
built. -/
theorem decode?_encode_restores_staleBlock :
    (∃ g, decode? staleBlock.encode = some g ∧ g.path = "Ä.java" ∧ g.root = some 0 ∧
      g.store.size = 2 ∧ (∀ r, g.store.data? r = staleBlock.store.data? r) ∧
      g.types.entries = staleBlock.types.entries ∧ g.store = staleBlock.store.relink ∧
      g.types = staleBlock.types.reindex) ∧
    decode? staleBlock.refresh.encode = some staleBlock.refresh ∧
    decode? (builtClass.finish "A.java" (some "a") [] [some 4]).encode =
      some (builtClass.finish "A.java" (some "a") [] [some 4]) := by
  refine ⟨decode?_encode_restores.1 staleBlock fits_staleBlock,
    decode?_encode_restores.2.1 staleBlock.encode staleBlock.refresh
      (decode?_encode fits_staleBlock) ((Store.size_relink _).trans_le (by decide)),
    decode?_encode_restores.2.2 builtClass built_builtClass _ _ _ _ ?_
      (fits_of_forall_mem ?_ ?_ ?_)⟩
  · intro n hn
    obtain rfl : n = 4 := by simpa using hn
    decide
  · decide
  · decide
  · decide

end SourceFile

end JavaRecipes
