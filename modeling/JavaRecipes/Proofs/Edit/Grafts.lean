import JavaRecipes.Edit.Apply
import JavaRecipes.Proofs.Tree.Growth

/-!
What building a snippet does to a file: new nodes over those of the file that the snippet uses. What
is closed under the steps of building holds of every snippet (`Draft.BuildClosed.materialize`).
-/

namespace JavaRecipes

namespace Snippet

/-- A snippet can be built over a file: the nodes that it uses are there, and it uses none twice. -/
structure Usable (size : Nat) (used : List Ref) : Prop where
  lt_size : ∀ {m}, some m ∈ used → m < size
  once : ∀ m, used.count (some m) ≤ 1

namespace Usable

theorem mono {size size' : Nat} {used : List Ref} (h : Usable size used) (hle : size ≤ size') :
    Usable size' used :=
  ⟨fun hm => (h.lt_size hm).trans_le hle, h.once⟩

theorem left {size : Nat} {used used' : List Ref} (h : Usable size (used ++ used')) :
    Usable size used where
  lt_size hm := h.lt_size (List.mem_append_left _ hm)
  once m := by
    have := h.once m
    rw [List.count_append] at this
    omega

theorem right {size : Nat} {used used' : List Ref} (h : Usable size (used ++ used')) :
    Usable size used' where
  lt_size hm := h.lt_size (List.mem_append_right _ hm)
  once m := by
    have := h.once m
    rw [List.count_append] at this
    omega

theorem disjoint {size : Nat} {used used' : List Ref} (h : Usable size (used ++ used')) (m : NodeId)
    (hm : some m ∈ used) : some m ∉ used' := by
  intro hm'
  have hcount := h.once m
  rw [List.count_append] at hcount
  have := List.count_pos_iff.2 hm
  have := List.count_pos_iff.2 hm'
  omega

end Usable

end Snippet

namespace Draft

open Snippet (Usable)

@[simp]
theorem store_classType (d : Draft) (name : String) (owner : Option TypeId) :
    (d.classType name owner).2.store = d.store := rfl

@[simp]
theorem store_variableType (d : Draft) (v : VariableType) : (d.variableType v).2.store = d.store :=
  rfl

@[simp]
theorem store_add (d : Draft) (data : NodeData) : (d.add data).2.store = (d.store.add data).2 := rfl

@[simp]
theorem fst_add (d : Draft) (data : NodeData) : (d.add data).1 = d.store.size := rfl

@[simp]
theorem store_typeNamed? (d : Draft) (name : Option String) :
    (d.typeNamed? name).2.store = d.store := by
  cases name <;> rfl

/-! ## Building -/

/-- Closed under what building does: a node stands for itself, parts are built one after the other,
and a new node is empty or stands over a new name and all that was built. -/
structure BuildClosed (P : Store → List Ref → Store → List Ref → Prop) : Prop where
  existing : ∀ s r, P s [r] s [r]
  absent : ∀ s, P s [] s [none]
  nil : ∀ s, P s [] s []
  leaf : ∀ s {data : NodeData}, data.children = [] → P s [] (s.add data).2 [some s.size]
  append : ∀ {s t u used used' loose loose'}, P s used t loose → P t used' u loose' →
    P s (used ++ used') u (loose ++ loose')
  addNamed : ∀ {s t used loose} (name : Identifier) {data : NodeData}, P s used t loose →
    (∀ m, data.children.count (some m) = (loose ++ [some t.size]).count (some m)) →
    P s used ((t.add (.identifier name)).2.add data).2 [some (t.add (.identifier name)).2.size]

namespace BuildClosed

variable {P : Store → List Ref → Store → List Ref → Prop}

mutual

theorem materialize (h : BuildClosed P) : ∀ (snippet : Snippet) (d : Draft),
    P d.store snippet.existingNodes (d.materialize snippet).2.store [(d.materialize snippet).1]
  | .existing r, d => h.existing d.store r
  | .stringLiteral _, d => h.leaf d.store rfl
  | .typeName _, d => h.leaf d.store rfl
  | .staticField target owner name fieldType, d => by
    have htarget := h.materialize target d
    simp only [Draft.materialize, store_add, fst_add, store_variableType, store_typeNamed?,
      store_classType]
    refine h.addNamed _ htarget fun m => ?_
    simp only [NodeData.children, NodeData.childFields, List.flatMap_cons, List.flatMap_nil,
      List.append_nil, List.count_append, Store.count_children_one]
  | .invocation select signature arguments, d => by
    have hselect := h.materializeOption select d
    have harguments := h.materializeList arguments (d.materializeOption select).2
    simp only [Draft.materialize, identifier, store_add, fst_add]
    refine h.addNamed _ (h.append hselect harguments) fun m => ?_
    simp only [NodeData.children, NodeData.childFields, List.flatMap_cons, List.flatMap_nil,
      List.append_nil, List.count_append, Store.count_children_one]
    simp only [ChildField.children]
    omega

theorem materializeOption (h : BuildClosed P) : ∀ (snippet : Option Snippet) (d : Draft),
    P d.store (Snippet.existingNodesOption snippet) (d.materializeOption snippet).2.store
      [(d.materializeOption snippet).1]
  | none, d => h.absent d.store
  | some snippet, d => h.materialize snippet d

theorem materializeList (h : BuildClosed P) : ∀ (snippets : List Snippet) (d : Draft),
    P d.store (Snippet.existingNodesList snippets)
    (d.materializeList snippets).2.store (d.materializeList snippets).1
  | [], d => h.nil d.store
  | snippet :: snippets, d =>
    h.append (h.materialize snippet d) (h.materializeList snippets (d.materialize snippet).2)

end

end BuildClosed

theorem some_mem_iff_of_count {rs rs' : List Ref} (h : ∀ m, rs.count (some m) = rs'.count (some m))
    (m : NodeId) :
    some m ∈ rs ↔ some m ∈ rs' := by
  rw [← List.count_pos_iff, h, List.count_pos_iff]

theorem buildClosed_grows : BuildClosed fun s used t loose =>
    Usable s.size used → s.Grows used t loose where
  existing _ r h := .existing fun n hn => h.lt_size (hn ▸ List.mem_cons_self)
  absent s _ :=
    (Store.Grows.existing (by simp) : s.Grows [none] s [none]).congr_mem (by simp)
      fun _ => Nat.le_refl _
  nil s _ := .nil s
  leaf s _ hleaf _ := .leaf s hleaf
  append h h' hu := by
    have hgrows := h hu.left
    exact hgrows.append (h' (hu.right.mono hgrows.size_le)) (fun _ => hu.right.lt_size) hu.disjoint
  addNamed name _ h hcount hu := (h hu).addNamed name fun m => (hcount m).le

/-- A snippet is built as new nodes over those that it uses. -/
theorem grows_materialize (snippet : Snippet) (d : Draft)
    (hu : Usable d.store.size snippet.existingNodes) :
    d.store.Grows snippet.existingNodes
      (d.materialize snippet).2.store [(d.materialize snippet).1] :=
  buildClosed_grows.materialize snippet d hu

end Draft

end JavaRecipes
