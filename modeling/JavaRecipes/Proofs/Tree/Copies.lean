import JavaRecipes.Proofs.Tree.Printing

/-!
The text of a file shows its tree and nothing else. A second file may have the nodes in another
order and share them, have others that are out of reach, link them in any way and attribute them
with the types of another table: as long as each node in reach has a counterpart with the same
payload, whose slots hold the counterparts of what its own slots hold, the two files print alike
(`SourceFile.CopiedTo.print_eq`).
-/

namespace JavaRecipes

/-! ## Types do not show -/

/-- The payload without the types that are attributed to it. -/
def NodeData.untyped : NodeData → NodeData
  | .classDeclaration d => .classDeclaration { d with type := none }
  | .methodDeclaration d => .methodDeclaration { d with type := none }
  | .namedVariable d => .namedVariable { d with type := none }
  | .identifier d => .identifier { d with type := none, variableType := none }
  | .fieldAccess d => .fieldAccess { d with type := none }
  | .methodInvocation d => .methodInvocation { d with type := none }
  | .newClass d => .newClass { d with type := none }
  | .literal d => .literal { d with type := none }
  | .assignment d => .assignment { d with type := none }
  | .newArray d => .newArray { d with type := none }
  | .lambda d => .lambda { d with type := none }
  | .binary d => .binary { d with type := none }
  | d => d

theorem NodeData.children_untyped (x : NodeData) : x.untyped.children = x.children := by
  cases x <;> rfl

namespace Store

def untyped (s : Store) : Store :=
  { nodes := s.nodes.map fun node => { node with data := node.data.untyped } }

theorem data?_untyped (s : Store) (r : Ref) :
    s.untyped.data? r = (s.data? r).map NodeData.untyped := by
  cases r with
  | none => rfl
  | some n => simp [untyped, data?, get?, Function.comp_def]

theorem block?_untyped (s : Store) (r : Ref) : s.untyped.block? r = s.block? r := by
  rw [block?, block?, data?_untyped]
  cases s.data? r with
  | none => rfl
  | some x => cases x <;> rfl

theorem declarations?_untyped (s : Store) (r : Ref) :
    s.untyped.declarations? r = s.declarations? r := by
  rw [declarations?, declarations?, data?_untyped]
  cases s.data? r with
  | none => rfl
  | some x => cases x <;> rfl

section

variable (s : Store) (sub : Place → Ref → Layout)

theorem layoutVariable_untyped (r : Ref) :
    s.untyped.layoutVariable sub r = s.layoutVariable sub r := by
  rw [layoutVariable, layoutVariable, namedVariable?, namedVariable?, data?_untyped]
  cases s.data? r with
  | none => rfl
  | some x => cases x <;> rfl

theorem layoutDeclaration_untyped : s.untyped.layoutDeclaration sub = s.layoutDeclaration sub := by
  funext d
  rw [layoutDeclaration, layoutDeclaration, funext (s.layoutVariable_untyped sub)]

theorem layoutParameter_untyped : s.untyped.layoutParameter sub = s.layoutParameter sub := by
  funext r
  rw [layoutParameter, layoutParameter, declarations?_untyped, layoutDeclaration_untyped]

theorem layoutLambdaParameter_untyped :
    s.untyped.layoutLambdaParameter sub = s.layoutLambdaParameter sub := by
  funext r
  rw [layoutLambdaParameter, layoutLambdaParameter, declarations?_untyped,
    layoutDeclaration_untyped]

theorem layoutInitial_untyped : s.untyped.layoutInitial sub = s.layoutInitial sub := by
  funext r
  rw [layoutInitial, layoutInitial, declarations?_untyped, layoutDeclaration_untyped]

theorem layoutBlock_untyped (r : Ref) : s.untyped.layoutBlock sub r = s.layoutBlock sub r := by
  rw [layoutBlock, layoutBlock, block?_untyped]

theorem layoutExpression_untyped (x : NodeData) :
    s.untyped.layoutExpression sub x.untyped = s.layoutExpression sub x := by
  cases x <;> simp only [NodeData.untyped, layoutExpression, layoutClass, layoutMethod, layoutTry,
    layoutDeclaration_untyped, layoutParameter_untyped, layoutLambdaParameter_untyped,
    layoutInitial_untyped,
    layoutBlock_untyped, block?_untyped]

theorem layoutStatement_untyped (x : NodeData) :
    s.untyped.layoutStatement sub x.untyped = s.layoutStatement sub x := by
  cases x with
  | variableDeclarations d =>
    simp only [NodeData.untyped, layoutStatement, layoutDeclaration_untyped]
  | _ => exact congrArg (· ++ _) (s.layoutExpression_untyped sub _)

theorem layoutMember_untyped (x : NodeData) :
    s.untyped.layoutMember sub x.untyped = s.layoutMember sub x := by
  cases x with
  | variableDeclarations d => simp only [NodeData.untyped, layoutMember, layoutDeclaration_untyped]
  | _ =>
    rw [layoutMember_of_kind _ _ (by simp [NodeData.untyped, NodeData.kind]),
      layoutMember_of_kind _ _ (by simp [NodeData.kind]), layoutStatement_untyped]

/-- Types do not show in a layout. -/
theorem layoutAt_untyped (place : Place) (x : NodeData) :
    s.untyped.layoutAt sub place x.untyped = s.layoutAt sub place x := by
  cases place with
  | expression => exact s.layoutExpression_untyped sub x
  | statement => exact s.layoutStatement_untyped sub x
  | member => exact s.layoutMember_untyped sub x

end

theorem Shallow.mono {s : Store} {depth depth' : Nat} {r : Ref} (h : s.Shallow depth r)
    (hle : depth ≤ depth') :
    s.Shallow depth' r := by
  induction hle with
  | refl => exact h
  | step _ ih => exact ih.succ

/-- There is no cycle where each node has a higher rank than the nodes in it. -/
theorem acyclic_of_rank {s : Store} (rank : NodeId → Nat)
    (h : ∀ n < s.size, ∀ m < s.size, some m ∈ s.children (some n) → rank m < rank n) (r : Ref) :
    s.Acyclic r := by
  have hdown : ∀ {n m}, Relation.TransGen s.Holds n m → m < s.size → rank m < rank n := by
    intro n m hnm
    induction hnm with
    | single hh => exact fun hm => h _ (holds_lt_size hh) _ hm hh
    | tail _ hh ih => exact fun hm => (h _ (holds_lt_size hh) _ hm hh).trans (ih (holds_lt_size hh))
  exact fun n hn hcycle => Nat.lt_irrefl _ (hdown hcycle hn.lt_size)

end Store

/-! ## Counterparts -/

namespace Store

/-- What a slot of the copy holds: nothing for nothing, the counterpart of a node, and a position
that is not taken for another one. -/
inductive Counterpart (s t : Store) (σ : NodeId → NodeId) : Ref → Ref → Prop
  | vacant : Counterpart s t σ none none
  | node {n : NodeId} (h : n < s.size) : Counterpart s t σ (some n) (some (σ n))
  | dangling {n m : NodeId} (hn : s.size ≤ n) (hm : t.size ≤ m) :
    Counterpart s t σ (some n) (some m)

/-- The nodes that `root` reaches have counterparts in `t`, alike but for types. -/
def CopiedTo (s : Store) (root : Ref) (σ : NodeId → NodeId) (t : Store) : Prop :=
  ∀ n x, s.Reaches root n → s.data? (some n) = some x →
    ∃ y, t.data? (some (σ n)) = some y ∧ x.untyped.Slotwise (s.Counterpart t σ) y.untyped

/-- The counterpart of what is in reach. -/
def Matched (s : Store) (root : Ref) (σ : NodeId → NodeId) (t : Store) (a b : Ref) : Prop :=
  s.Counterpart t σ a b ∧ ∀ n, a = some n → n < s.size → s.Reaches root n

namespace CopiedTo

variable {s t : Store} {root a b : Ref} {σ : NodeId → NodeId} {n : NodeId}
  {x : NodeData} {depth : Nat}

theorem matched_of_slot (hn : s.Reaches root n) (ha : ChildField.Among a (s.children (some n)))
    (hab : s.Counterpart t σ a b) : s.Matched root σ t a b := by
  refine ⟨hab, ?_⟩
  rintro m rfl hm
  exact .step hn (ha.resolve_left (by simp)) hm

/-- A slot and its counterpart are both without a node, or hold nodes that are alike. -/
theorem data_cases (h : s.CopiedTo root σ t) (hab : s.Matched root σ t a b) :
    (s.data? a = none ∧ t.data? b = none) ∨
      ∃ x y, s.data? a = some x ∧ t.data? b = some y ∧
        x.untyped.Slotwise (s.Matched root σ t) y.untyped := by
  obtain ⟨hab, hreach⟩ := hab
  have hfree : ∀ {s : Store} {n}, s.size ≤ n → s.data? (some n) = none := fun {s n} hn =>
    Option.not_isSome_iff_eq_none.1 fun hsome => Nat.not_lt.2 hn ((s.data?_isSome_iff n).1 hsome)
  cases hab with
  | vacant => exact .inl ⟨rfl, rfl⟩
  | dangling hn hm => exact .inl ⟨hfree hn, hfree hm⟩
  | @node n hn =>
    obtain ⟨x, hx⟩ := exists_data? hn
    have hn := hreach n rfl hn
    obtain ⟨y, hy, hxy⟩ := h n x hn hx
    refine .inr ⟨x, y, hx, hy, hxy.imp_of_mem fun a b ha _ hab => matched_of_slot hn ?_ hab⟩
    rwa [children_eq_of_data? hx, ← NodeData.children_untyped]

theorem none_iff (hab : s.Matched root σ t a b) : a = none ↔ b = none := by
  cases hab.1 <;> simp

/-- Down to any depth, a slot is laid out as its counterpart. -/
theorem layoutDepth_eq (h : s.CopiedTo root σ t) (hab : s.Matched root σ t a b) (depth : Nat)
    (place : Place) :
    s.layoutDepth depth place a = t.layoutDepth depth place b := by
  induction depth generalizing a b place with
  | zero => rfl
  | succ depth ih =>
    have halike : Alike s.untyped t.untyped (s.layoutDepth depth) (t.layoutDepth depth)
        (s.Matched root σ t) := by
      refine ⟨none_iff, fun hab place => ih hab place, fun hab => ?_⟩
      rw [data?_untyped, data?_untyped]
      rcases h.data_cases hab with ⟨ha, hb⟩ | ⟨x, y, hx, hy, hxy⟩
      · exact .inl ⟨by rw [ha]; rfl, by rw [hb]; rfl⟩
      · exact .inr ⟨_, _, by rw [hx]; rfl, by rw [hy]; rfl, .inl hxy⟩
    rcases h.data_cases hab with ⟨ha, hb⟩ | ⟨x, y, hx, hy, hxy⟩
    · simp only [layoutDepth, ha, hb]
    · simp only [layoutDepth, hx, hy]
      rw [← layoutAt_untyped s, ← layoutAt_untyped t, halike.layoutAt_eq hxy]

/-- The copy goes down no further than the tree. -/
theorem acyclic_of_shallow (h : s.CopiedTo root σ t) (hab : s.Matched root σ t a b)
    (ha : s.Shallow depth a) :
    t.Acyclic b := by
  induction depth generalizing a b with
  | zero =>
    have hb : t.data? b = none := by
      rcases h.data_cases hab with ⟨-, hb⟩ | ⟨x, _, hx, -⟩
      · exact hb
      · rw [Shallow, hx] at ha
        cases ha
    exact acyclic_of_children (by simp [children_eq_nil_of_data? hb])
  | succ depth ih =>
    refine acyclic_of_children fun c hc => ?_
    rcases h.data_cases hab with ⟨-, hb⟩ | ⟨x, y, hx, hy, hxy⟩
    · simp [children_eq_nil_of_data? hb] at hc
    · have hchildren := hxy.children fun _ _ => none_iff
      rw [NodeData.children_untyped, NodeData.children_untyped] at hchildren
      rw [children_eq_of_data? hy] at hc
      obtain ⟨i, hi, rfl⟩ := List.mem_iff_getElem.1 hc
      have hi' : i < x.children.length := hchildren.length_eq ▸ hi
      refine ih (hchildren.get hi' hi) (ha _ ?_)
      rw [children_eq_of_data? hx]
      exact List.getElem_mem hi'

theorem acyclic (h : s.CopiedTo root σ t) (hab : s.Matched root σ t a b) (ha : s.Acyclic a) :
    t.Acyclic b :=
  h.acyclic_of_shallow hab (shallow_of_acyclic ha)

/-- A tree is laid out as its copy. -/
theorem layout_eq (h : s.CopiedTo root σ t) (hab : s.Matched root σ t a b) (ha : s.Acyclic a)
    (place : Place) :
    s.layout place a = t.layout place b := by
  have hshallow := shallow_of_acyclic ha
  have hshallow' := shallow_of_acyclic (h.acyclic hab ha)
  let depth := s.size + t.size + 1
  calc s.layout place a
      = s.layoutDepth depth place a :=
        Store.layoutDepth_eq hshallow (Shallow.mono hshallow (by omega)) place
    _ = t.layoutDepth depth place b := h.layoutDepth_eq hab depth place
    _ = t.layout place b := Store.layoutDepth_eq (Shallow.mono hshallow' (by omega)) hshallow' place

end CopiedTo

end Store

namespace SourceFile

/-- The tree of `f` has a copy in `g`. -/
structure CopiedTo (f : SourceFile) (σ : NodeId → NodeId) (g : SourceFile) : Prop where
  root : g.root = f.root.map σ
  nodes : f.store.CopiedTo f.root σ g.store

/-- The file has a finite tree with a compilation unit at its root and no other one below. -/
structure Plain (f : SourceFile) : Prop where
  acyclic : f.Acyclic
  root : ∃ unit, f.store.data? f.root = some (.compilationUnit unit)
  only : ∀ {n unit}, f.Reaches n → f.store.data? (some n) = some (.compilationUnit unit) →
    f.root = some n

namespace CopiedTo

variable {f g : SourceFile} {σ : NodeId → NodeId}

/-- Files whose trees are alike but for types have the same text. -/
theorem print_eq (h : f.CopiedTo σ g) (hf : f.Plain) (hg : g.Plain) : g.print = f.print := by
  obtain ⟨unit, hunit⟩ := hf.root
  obtain ⟨n, hroot⟩ := Store.exists_of_data? hunit
  have hgroot : g.root = some (σ n) := by rw [h.root, hroot]; rfl
  have hn : f.Reaches n := .start hroot (Store.lt_size_of_data? (hroot ▸ hunit))
  rw [hroot] at hunit
  obtain ⟨y, hy, hslots⟩ := h.nodes n _ hn hunit
  obtain ⟨unit', rfl⟩ : ∃ unit', y = .compilationUnit unit' := by
    obtain ⟨unit', hunit'⟩ := hg.root
    exact ⟨unit', Option.some.inj (hy.symm.trans (hgroot ▸ hunit'))⟩
  obtain ⟨fs, hfs, heq⟩ := hslots
  simp only [NodeData.untyped, NodeData.childFields, List.forall₂_cons_left_iff,
    List.forall₂_nil_left_iff, ChildField.rel_many_iff] at hfs
  obtain ⟨_, _, ⟨classes, hclasses, rfl⟩, rfl, rfl⟩ := hfs
  obtain rfl : unit' = { unit with classes } := NodeData.compilationUnit.inj heq
  have hmembers : unit.classes.map (f.store.layout .member) =
      classes.map (g.store.layout .member) := by
    refine Store.Alike.map_eq
      (ChildField.forall₂_imp_of_mem hclasses fun a b ha _ hab => And.intro ha hab) ?_
    rintro a b ⟨ha, hab⟩
    have hchild : a ∈ f.store.children (some n) := by
      rw [Store.children_eq_of_data? hunit]
      simpa [NodeData.children, NodeData.childFields, ChildField.children] using ha
    have hmatched : f.store.Matched f.root σ g.store a b :=
      Store.CopiedTo.matched_of_slot hn (.inr hchild) hab
    exact h.nodes.layout_eq hmatched
      (fun _ hm => hf.acyclic _ (hn.trans (.of_child hchild hm))) .member
  rw [print_of_unit (hgroot ▸ hy), print_of_unit (hroot ▸ hunit), hmembers]
  rfl

/-- A class with one assignment in it; the last statement is at a position that no node has. -/
def orderedFile : SourceFile where
  path := "Cup.java"
  types := ⟨#[.classType ⟨"sample.Cup", none⟩, .primitive .int], []⟩
  root := some 6
  store := ⟨#[
    ⟨some 5, .identifier ⟨"Cup", some 0, none⟩⟩,
    ⟨some 3, .identifier ⟨"x", some 1, none⟩⟩,
    ⟨some 3, .identifier ⟨"x", none, some 1⟩⟩,
    ⟨some 4, .assignment ⟨some 1, some 2, some 1⟩⟩,
    ⟨some 5, .block ⟨[some 3, none, some 50]⟩⟩,
    ⟨some 6, .classDeclaration ⟨[], [], .ordinary, some 0, some 4, some 0⟩⟩,
    ⟨none, .compilationUnit ⟨none, [], [some 5]⟩⟩]⟩

/-- The same from the root down, without types and links. Both sides of the assignment are one node,
and a literal stands apart. -/
def scatteredFile : SourceFile where
  path := "Mug.java"
  types := .empty
  root := some 0
  store := ⟨#[
    ⟨none, .compilationUnit ⟨none, [], [some 2]⟩⟩,
    ⟨some 0, .literal ⟨.null, none⟩⟩,
    ⟨none, .classDeclaration ⟨[], [], .ordinary, some 5, some 3, none⟩⟩,
    ⟨none, .block ⟨[some 4, none, some 7]⟩⟩,
    ⟨none, .assignment ⟨some 6, some 6, none⟩⟩,
    ⟨none, .identifier ⟨"Cup", none, none⟩⟩,
    ⟨none, .identifier ⟨"x", none, none⟩⟩]⟩

theorem print_eq_scatteredFile : orderedFile.Plain ∧ scatteredFile.Plain ∧
    scatteredFile.print = orderedFile.print ∧
    orderedFile.print = "class Cup \x7b\n    x = x;\n\n\n\x7d\n" := by
  have hordered : orderedFile.Plain := by
    refine ⟨Store.acyclic_of_rank id (by decide) _, ⟨_, rfl⟩, fun {n unit} hn hunit => ?_⟩
    have honly : ∀ n < 7, (orderedFile.store.data? (some n)).map NodeData.kind =
        some .compilationUnit →
        orderedFile.root = some n := by decide
    exact honly n hn.lt_size (by rw [hunit]; rfl)
  have hscattered : scatteredFile.Plain := by
    refine ⟨Store.acyclic_of_rank (7 - ·) (by decide) _, ⟨_, rfl⟩, fun {n unit} hn hunit => ?_⟩
    have honly : ∀ n < 7, (scatteredFile.store.data? (some n)).map NodeData.kind =
        some .compilationUnit →
        scatteredFile.root = some n := by decide
    exact honly n hn.lt_size (by rw [hunit]; rfl)
  have hcopied : orderedFile.CopiedTo (fun n => [5, 6, 6, 4, 3, 2, 0].getD n 0) scatteredFile := by
    refine ⟨rfl, fun n x hn hx => ?_⟩
    have hlt : n < 7 := hn.lt_size
    have hcases : ∀ n < 7, n = 0 ∨ n = 1 ∨ n = 2 ∨ n = 3 ∨ n = 4 ∨ n = 5 ∨ n = 6 := by omega
    rcases hcases n hlt with rfl | rfl | rfl | rfl | rfl | rfl | rfl <;>
      obtain rfl := Option.some.inj hx.symm
    · exact ⟨_, rfl, [], .nil, rfl⟩
    · exact ⟨_, rfl, [], .nil, rfl⟩
    · exact ⟨_, rfl, [], .nil, rfl⟩
    · exact ⟨_, rfl, [.one (some 6), .one (some 6)],
        .cons (.one (.node (by decide))) (.cons (.one (.node (by decide))) .nil), rfl⟩
    · exact ⟨_, rfl, [.many [some 4, none, some 7]],
        .cons (.many (.cons (.node (by decide)) (.cons .vacant
          (.cons (.dangling (by decide) (by decide)) .nil)))) .nil, rfl⟩
    · exact ⟨_, rfl, [.many [], .one (some 5), .one (some 3)],
        .cons (.many .nil)
          (.cons (.one (.node (by decide))) (.cons (.one (.node (by decide))) .nil)), rfl⟩
    · exact ⟨_, rfl, [.many [some 2]], .cons (.many (.cons (.node (by decide)) .nil)) .nil, rfl⟩
  exact ⟨hordered, hscattered, hcopied.print_eq hordered hscattered, by decide +kernel⟩

end CopiedTo

end SourceFile

end JavaRecipes
