import JavaRecipes.Proofs.Scope.Innermost
import JavaRecipes.Proofs.Tree.Preorder
import JavaRecipes.Tree.Draft

/-!
Declaration before use. In a tree, a name that stands for a statement of a block is used inside the
block, and after the statement (`findBinding_after`).
-/

namespace JavaRecipes

theorem NodeData.mem_children_of_many {x : NodeData} {rs : List Ref} {c : Ref}
    (h : .many rs ∈ x.childFields) (hc : c ∈ rs) : c ∈ x.children :=
  List.mem_flatMap.2 ⟨.many rs, h, hc⟩

theorem NodeData.children_block (d : Block) : (NodeData.block d).children = d.statements := by
  simp [children, childFields, ChildField.children]

namespace Store

variable {s : Store} {r prior c : Ref} {f : ScopeFrame}

/-- What a frame shows is in a slot of the node that makes it, or is that node. -/
theorem FrameOf.mem_children (h : s.FrameOf r prior f) (hc : c ∈ f.candidates) :
    c ∈ s.children r ∨ c = r := by
  have hmany : ∀ {x rs}, s.data? r = some x → .many rs ∈ x.childFields → c ∈ rs →
      c ∈ s.children r ∨ c = r := by
    intro x rs hx hfield hmem
    rw [children_eq_of_data? hx]
    exact .inl (NodeData.mem_children_of_many hfield hmem)
  cases h with
  | method hd => exact hmany hd (by simp [NodeData.childFields]) hc
  | members hd _ => exact hmany hd (by simp [NodeData.childFields]) hc
  | @earlier d before after hd _ hsplit _ =>
    have hstatement : c ∈ d.statements := by simp [hsplit, show c ∈ before from hc]
    exact hmany hd (by simp [NodeData.childFields]) hstatement
  | statements hd _ _ => exact hmany hd (by simp [NodeData.childFields]) hc
  | loop hd => exact hmany hd (by simp [NodeData.childFields]) hc
  | resources hd _ => exact hmany hd (by simp [NodeData.childFields]) hc
  | lambda hd => exact hmany hd (by simp [NodeData.childFields]) hc
  | declaration _ => exact .inr (List.mem_singleton.1 hc)

/-- A block that is no class body shows the statements before `prior`, if that is one. -/
theorem FrameOf.of_block {d : Block} (h : s.FrameOf r prior f) (hd : s.data? r = some (.block d))
    (hbody : ¬ s.isClassBody r) (hprior : prior ∈ d.statements) :
    ∃ after, d.statements = f.candidates ++ prior :: after ∧ prior ∉ f.candidates := by
  cases h with
  | members _ hbody' => exact absurd hbody' hbody
  | @earlier d' before after hd' _ hsplit hnot =>
    obtain rfl : d' = d := by simpa [hd] using hd'.symm
    exact ⟨after, hsplit, hnot⟩
  | statements hd' _ hnot =>
    rw [hd] at hd'
    cases hd'
    exact absurd hprior hnot
  | method hd' => rw [hd] at hd'; cases hd'
  | loop hd' => rw [hd] at hd'; cases hd'
  | resources hd' _ => rw [hd] at hd'; cases hd'
  | lambda hd' => rw [hd] at hd'; cases hd'
  | declaration hd' => rw [hd] at hd'; cases hd'

theorem Declares.exists_node {name : String} (h : s.Declares name c) :
    ∃ n, c = some n ∧ n < s.size := by
  obtain ⟨d, hd, -⟩ := h
  obtain ⟨x, hx, -⟩ := Option.bind_eq_some_iff.1 hd
  obtain ⟨n, rfl⟩ := exists_of_data? hx
  exact ⟨n, rfl, lt_size_of_data? hx⟩

end Store

namespace SourceFile

variable {f : SourceFile} {n m position : NodeId}

/-- What is above a reachable node is reachable, and precedes it. -/
theorem Rooted.above (hf : f.Rooted) (hposition : f.Reaches position) {k : Nat}
    (h : f.store.parent^[k] (some position) = some n) :
    f.Reaches n ∧ Relation.ReflTransGen f.store.Holds n position ∧
    (n = position ∨ f.Precedes n position) := by
  induction k generalizing n with
  | zero =>
    obtain rfl := Option.some.inj h
    exact ⟨hposition, .refl, .inl rfl⟩
  | succ k ih =>
    rw [Function.iterate_succ_apply'] at h
    cases hm : f.store.parent^[k] (some position) with
    | none =>
      rw [hm] at h
      cases h
    | some m =>
      rw [hm] at h
      obtain ⟨hreach, hbelow, hvisit⟩ := ih hm
      obtain ⟨hn, hh⟩ := hf.holds_of_parent hreach h
      have hprecedes := hf.treelike.precedes_of_holds hn hh hreach.lt_size
      refine ⟨hn, .head hh hbelow, .inr ?_⟩
      rcases hvisit with rfl | hvisit
      · exact hprecedes
      · exact hprecedes.trans hvisit

/-- The way up comes to a node from one that it holds. -/
theorem Rooted.exists_entry (hf : f.Rooted) (hposition : f.Reaches position) {k : Nat}
    (h : f.store.parent^[k + 1] (some position) = some n) :
    ∃ p, f.store.parent^[k] (some position) = some p ∧ f.Reaches p ∧ f.store.Holds n p := by
  obtain ⟨x, hx⟩ := Store.exists_data?_iterate h (Nat.lt_succ_self k)
  obtain ⟨p, hp⟩ := Store.exists_of_data? hx
  rw [Function.iterate_succ_apply', hp] at h
  obtain ⟨hreach, -, -⟩ := hf.above hposition hp
  exact ⟨p, hp, hreach, (hf.holds_of_parent hreach h).2⟩

/-- The statements that a block shows to one of its statements precede that one. -/
theorem Treelike.precedes_of_frameOf (h : f.Treelike) {block : NodeId} {d : Block}
    {frame : ScopeFrame} (hblock : f.Reaches block)
    (hd : f.store.data? (some block) = some (.block d)) (hbody : ¬ f.store.isClassBody (some block))
    (hn : f.Reaches n) (hh : f.store.Holds block n)
    (hframe : f.store.FrameOf (some block) (some n) frame) (hm : some m ∈ frame.candidates)
    (hlt : m < f.store.size) : f.Precedes m n := by
  have hchildren : f.store.children (some block) = d.statements := by
    rw [Store.children_eq_of_data? hd, NodeData.children_block]
  obtain ⟨after, hsplit, hnot⟩ := hframe.of_block hd hbody (hchildren ▸ hh)
  exact (h.precedes_of_slots hblock hn.lt_size (hchildren.trans hsplit) hnot).2 m hlt hm

/-- A name that stands for a statement of a block, other than the body of a class, is used inside
the block and after the statement. -/
theorem Rooted.findBinding_after (hf : f.Rooted) {name : String} {block : NodeId}
    {b : Binding} {d : Block} (hposition : f.Reaches position)
    (hb : f.store.findBinding name (some position) = some b) (hblock : f.Reaches block)
    (hd : f.store.data? (some block) = some (.block d)) (hstatement : b.declaration ∈ d.statements)
    (hbody : ¬ f.store.isClassBody (some block)) :
    ∃ n, b.declaration = some n ∧ f.nodes.idxOf n < f.nodes.idxOf position ∧
      Relation.TransGen f.store.Holds block position := by
  obtain ⟨k, -, frame, hscope, hfirst, -⟩ := Store.innermost_of_findBinding hb
  obtain ⟨m, hm, hlt⟩ := hfirst.declares.exists_node
  have hheld : f.store.Holds block m :=
    (Store.holds_iff hd).2 (by rwa [NodeData.children_block, ← hm])
  obtain ⟨x, hx, -⟩ := hscope.inside k (Nat.le_refl k)
  obtain ⟨r, hr⟩ := Store.exists_of_data? hx
  obtain ⟨p, hp, hpreach, hrp⟩ := hf.exists_entry hposition hr
  obtain ⟨hreach, -, -⟩ := hf.above hposition hr
  obtain ⟨-, hbelow, hvisit⟩ := hf.above hposition hp
  have hframe := hscope.frame
  have hmem := hfirst.mem
  rw [hr, hp] at hframe
  rw [hm] at hmem
  -- The declaration precedes the statement that the way up goes through, or that declaration is
  -- itself on the way.
  have hbefore : f.Precedes m p ∧ Relation.TransGen f.store.Holds block p := by
    rcases hframe.mem_children hmem with hchild | hself
    · obtain rfl := hf.treelike.holder_eq hreach hblock hchild hheld hlt
      exact ⟨hf.treelike.precedes_of_frameOf hblock hd hbody hpreach hrp hframe hmem hlt,
        .single hrp⟩
    · obtain rfl := Option.some.inj hself
      exact ⟨hf.treelike.precedes_of_holds hreach hrp hpreach.lt_size, .head hheld (.single hrp)⟩
  have hprecedes : f.Precedes m position := by
    rcases hvisit with rfl | hvisit
    · exact hbefore.1
    · exact hbefore.1.trans hvisit
  exact ⟨m, hm, hprecedes.idxOf_lt ((mem_nodes_iff hf.acyclic position).2 hposition),
    hbefore.2.trans_left hbelow⟩

/-- A method with a constant, and a loop whose body uses the constant in a function literal. -/
def loopFile : SourceFile :=
  let d : Draft := {}
  let (job, d) := d.classType "sample.Job"
  let (string, d) := d.classType stringClass
  let (run, d) := d.methodType { declaring := job, name := "run", returns := none, params := [] }
  let (value, d) := d.stringLiteral "value"
  let (declaration, entries, d) := d.declaration [] [{ kind := .isFinal }] (some string)
    [{ name := "first", owner := some run, initializer := some value }]
  let (use, d) := d.variableRef (entries.headD 0)
  let (function, d) := d.lambda [] (some use) none
  let (repeated, d) := d.block [some function]
  let (loop, d) := d.forLoop {
    initial := [], condition := none, update := [], body := some repeated }
  let (body, d) := d.block [some declaration, some loop]
  let (method, d) := d.method { name := "run", body := some body, type := some run }
  let (c, d) := d.classDeclaration { name := "Job", members := [some method], type := some job }
  d.finish "Job.java" none [] [some c]

/-- The use in the function literal comes after the constant, and is inside the body of the
method. -/
theorem findBinding_after_loopFile :
    let f := loopFile
    let b : Binding := {
      declaration := some 4, named := some 3, isFinal := true, initializer := some 0 }
    f.Rooted ∧ f.Reaches 5 ∧ f.store.findBinding "first" (some 5) = some b ∧ f.Reaches 9 ∧
      f.store.data? (some 9) = some (.block { statements := [some 4, some 8] }) ∧
      ¬ f.store.isClassBody (some 9) ∧
      f.nodes.idxOf 4 < f.nodes.idxOf 5 ∧ Relation.TransGen f.store.Holds 9 5 := by
  have hrooted : loopFile.Rooted :=
    (linked_of_forall (by decide +kernel) (by decide +kernel)).rooted
  have hreaches : ∀ n ∈ loopFile.nodes, loopFile.Reaches n := fun _ => reaches_of_mem_nodes
  have huse : loopFile.Reaches 5 := hreaches 5 (by decide +kernel)
  have hb : loopFile.store.findBinding "first" (some 5) =
      some { declaration := some 4, named := some 3, isFinal := true, initializer := some 0 } := by
        decide +kernel
  have hblock : loopFile.Reaches 9 := hreaches 9 (by decide +kernel)
  have hd : loopFile.store.data? (some 9) = some (.block { statements := [some 4, some 8] }) := by
    decide +kernel
  have hbody : ¬ loopFile.store.isClassBody (some 9) := by decide +kernel
  obtain ⟨n, hn, hbefore, hinside⟩ :=
    hrooted.findBinding_after huse hb hblock hd (by decide) hbody
  obtain rfl := Option.some.inj hn
  exact ⟨hrooted, huse, hb, hblock, hd, hbody, hbefore, hinside⟩

end SourceFile

end JavaRecipes
