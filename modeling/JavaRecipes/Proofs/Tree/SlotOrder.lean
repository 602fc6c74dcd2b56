import JavaRecipes.Proofs.Tree.Slots

/-!
Replacing a child slot by slot. Each kind of payload has its slots written out in one order, and
`new` is put over the first of them that is `old` (`NodeData.overwrite`). The children are shown in
the same order, so the first occurrence among them is the one that is replaced, and nothing else in
the payload changes (`NodeData.overwrite_first_occurrence`).
-/

namespace JavaRecipes

namespace ChildField

variable {old new : Ref}

/-! ## One slot after the other -/

/-- `new` put over a slot that is `old`, unless it was put somewhere before: whether it is in place
now, and what is in the slot. -/
def overSlot (old new : Ref) (done : Bool) (r : Ref) : Bool × Ref :=
  if done = false ∧ r = old then (true, new) else (done, r)

def overList (old new : Ref) (done : Bool) : List Ref → Bool × List Ref
  | [] => (done, [])
  | r :: rs =>
    let (done, r) := overSlot old new done r
    let (done, rs) := overList old new done rs
    (done, r :: rs)

def overField (old new : Ref) (done : Bool) : ChildField → Bool × ChildField
  | .one r => (overSlot old new done r).map id .one
  | .many rs => (overList old new done rs).map id .many

def overFields (old new : Ref) (done : Bool) : List ChildField → Bool × List ChildField
  | [] => (done, [])
  | f :: fs =>
    let (done, f) := f.overField old new done
    let (done, fs) := overFields old new done fs
    (done, f :: fs)

@[simp]
theorem overSlot_done (old new r : Ref) : overSlot old new true r = (true, r) := rfl

@[simp]
theorem overList_done (old new : Ref) (rs : List Ref) : overList old new true rs = (true, rs) := by
  induction rs with
  | nil => rfl
  | cons r rs ih => simp [overList, ih]

@[simp]
theorem overField_done (old new : Ref) (f : ChildField) : f.overField old new true = (true, f) := by
  cases f <;> simp [overField]

@[simp]
theorem overFields_done (old new : Ref) (fs : List ChildField) :
    overFields old new true fs = (true, fs) := by
  induction fs with
  | nil => rfl
  | cons f fs ih => simp [overFields, ih]

/-- What a replacement that may fail leaves: what it gives, or what was there. -/
def settle {α : Type} (x : α) : Option α → Bool × α
  | some y => (true, y)
  | none => (false, x)

theorem overList_eq_settle (old new : Ref) (rs : List Ref) :
    overList old new false rs = settle rs (replaceFirst old new rs) := by
  induction rs with
  | nil => rfl
  | cons r rs ih =>
    by_cases hr : r = old
    · simp [overList, overSlot, replaceFirst, settle, hr]
    · cases hrs : replaceFirst old new rs <;>
        simp [overList, overSlot, replaceFirst, settle, hr, hrs, ih]

theorem overField_eq_settle (old new : Ref) (f : ChildField) :
    f.overField old new false = settle f (f.replace? old new) := by
  cases f with
  | one r => by_cases hr : r = old <;> simp [overField, overSlot, replace?, settle, hr]
  | many rs =>
    rw [overField, overList_eq_settle]
    cases hrs : replaceFirst old new rs <;> simp [replace?, settle, hrs]

/-- Going through all slots is looking for the first field that has one. -/
theorem overFields_eq_settle (old new : Ref) (fs : List ChildField) :
    overFields old new false fs = settle fs (replaceIn? old new fs) := by
  induction fs with
  | nil => rfl
  | cons f fs ih =>
    rw [overFields, overField_eq_settle]
    cases hf : f.replace? old new with
    | some g => simp [replaceIn?, settle, hf]
    | none => cases hfs : replaceIn? old new fs <;> simp [replaceIn?, settle, hf, hfs, ih]

/-! ## What is replaced -/

theorem replaceFirst_eq (old new : Ref) (rs : List Ref) :
    replaceFirst old new rs = if old ∈ rs then some (rs.replace old new) else none := by
  induction rs with
  | nil => rfl
  | cons r rs ih =>
    by_cases hr : r = old
    · simp [replaceFirst, hr]
    · have hne : (old == r) = false := by simpa using Ne.symm hr
      rw [replaceFirst, if_neg hr, ih, List.replace_cons, hne]
      by_cases hmem : old ∈ rs <;> simp [hmem, Ne.symm hr]

/-- The slots of a field, filled or not. -/
def slots : ChildField → List Ref
  | .one r => [r]
  | .many rs => rs

theorem mem_slots_iff {f : ChildField} :
    old ∈ f.slots ↔ old ∈ f.children ∨ old = none ∧ f = .one none := by
  cases f with
  | one r => cases r <;> cases old <;> simp [slots, children]
  | many rs => simp [slots, children]

theorem isSome_replace?_iff (new : Ref) {f : ChildField} :
    (f.replace? old new).isSome ↔ old ∈ f.slots := by
  cases f with
  | one r => by_cases hr : r = old <;> simp [replace?, slots, hr, eq_comm (a := old)]
  | many rs => by_cases hmem : old ∈ rs <;> simp [replace?, slots, replaceFirst_eq, hmem]

theorem isSome_replaceIn?_iff {fs : List ChildField} :
    (replaceIn? old new fs).isSome ↔ ∃ f ∈ fs, old ∈ f.slots := by
  induction fs with
  | nil => simp [replaceIn?]
  | cons f fs ih =>
    rw [List.exists_mem_cons_iff, ← ih, ← isSome_replace?_iff new, replaceIn?]
    cases f.replace? old new <;> simp

variable {m n : NodeId}

theorem map_children_replace? (f : ChildField) :
    (f.replace? (some m) (some n)).map children =
      if some m ∈ f.children then some (f.children.replace (some m) (some n)) else none := by
  cases f with
  | one r =>
    cases r with
    | none => simp [replace?, children]
    | some k =>
      by_cases hk : k = m
      · simp [replace?, children, hk]
      · simp [replace?, children, hk, Ne.symm hk]
  | many rs => by_cases hmem : some m ∈ rs <;> simp [replace?, children, replaceFirst_eq, hmem]

/-- A field without the old child is passed over in both orders, that of the slots and that of the
children. -/
theorem map_childrenOf_replaceIn? (fs : List ChildField) :
    (replaceIn? (some m) (some n) fs).map childrenOf =
      if some m ∈ childrenOf fs then some ((childrenOf fs).replace (some m) (some n))
      else none := by
  induction fs with
  | nil => rfl
  | cons f fs ih =>
    have hf := map_children_replace? (m := m) (n := n) f
    have hcons : childrenOf (f :: fs) = f.children ++ childrenOf fs := List.flatMap_cons
    rw [hcons, List.replace_append, replaceIn?]
    by_cases hmem : some m ∈ f.children
    · obtain ⟨g, hg, hchildren⟩ := Option.map_eq_some_iff.1 (hf.trans (if_pos hmem))
      have hcons' : childrenOf (g :: fs) = g.children ++ childrenOf fs := List.flatMap_cons
      simp [hg, hcons', hchildren, hmem]
    · have hnone := Option.map_eq_none_iff.1 (hf.trans (if_neg hmem))
      have hrest : childrenOf ∘ (f :: ·) = (f.children ++ ·) ∘ childrenOf :=
        funext fun _ => List.flatMap_cons
      rw [hnone, Option.map_map, hrest, ← Option.map_map, ih]
      by_cases hmem' : some m ∈ childrenOf fs <;> simp [hmem, hmem']

end ChildField

namespace NodeData

open ChildField (overSlot overList overFields settle)

/-- Put `new` over the first slot that is `old`, the slots of each payload taken in turn: whether
there was such a slot, and the payload afterwards. -/
def overwrite (old new : Ref) : NodeData → Bool × NodeData
  | .compilationUnit d =>
    let (done, classes) := overList old new false d.classes
    (done, .compilationUnit { d with classes })
  | .classDeclaration d =>
    let (done, annotations) := overList old new false d.annotations
    let (done, name) := overSlot old new done d.name
    let (done, body) := overSlot old new done d.body
    (done, .classDeclaration { d with annotations, name, body })
  | .methodDeclaration d =>
    let (done, annotations) := overList old new false d.annotations
    let (done, returnType) := overSlot old new done d.returnType
    let (done, name) := overSlot old new done d.name
    let (done, parameters) := overList old new done d.parameters
    let (done, body) := overSlot old new done d.body
    (done, .methodDeclaration { d with annotations, returnType, name, parameters, body })
  | .block d =>
    let (done, statements) := overList old new false d.statements
    (done, .block { d with statements })
  | .variableDeclarations d =>
    let (done, annotations) := overList old new false d.annotations
    let (done, typeExpr) := overSlot old new done d.typeExpr
    let (done, declared) := overList old new done d.declared
    (done, .variableDeclarations { d with annotations, typeExpr, declared })
  | .namedVariable d =>
    let (done, name) := overSlot old new false d.name
    let (done, initializer) := overSlot old new done d.initializer
    (done, .namedVariable { d with name, initializer })
  | .identifier d => (false, .identifier d)
  | .fieldAccess d =>
    let (done, target) := overSlot old new false d.target
    let (done, name) := overSlot old new done d.name
    (done, .fieldAccess { d with target, name })
  | .methodInvocation d =>
    let (done, select) := overSlot old new false d.select
    let (done, name) := overSlot old new done d.name
    let (done, arguments) := overList old new done d.arguments
    (done, .methodInvocation { d with select, name, arguments })
  | .newClass d =>
    let (done, classExpr) := overSlot old new false d.classExpr
    let (done, arguments) := overList old new done d.arguments
    (done, .newClass { d with classExpr, arguments })
  | .literal d => (false, .literal d)
  | .annotationUse d =>
    let (done, annotationType) := overSlot old new false d.annotationType
    let (done, arguments) := overList old new done d.arguments
    (done, .annotationUse { d with annotationType, arguments })
  | .assignment d =>
    let (done, target) := overSlot old new false d.target
    let (done, value) := overSlot old new done d.value
    (done, .assignment { d with target, value })
  | .newArray d =>
    let (done, elements) := overList old new false d.elements
    (done, .newArray { d with elements })
  | .returnStatement d =>
    let (done, expression) := overSlot old new false d.expression
    (done, .returnStatement { d with expression })
  | .forLoop d =>
    let (done, initial) := overList old new false d.initial
    let (done, condition) := overSlot old new done d.condition
    let (done, update) := overList old new done d.update
    let (done, body) := overSlot old new done d.body
    (done, .forLoop { d with initial, condition, update, body })
  | .tryStatement d =>
    let (done, resources) := overList old new false d.resources
    let (done, body) := overSlot old new done d.body
    let (done, cleanup) := overSlot old new done d.cleanup
    (done, .tryStatement { d with resources, body, cleanup })
  | .lambda d =>
    let (done, parameters) := overList old new false d.parameters
    let (done, body) := overSlot old new done d.body
    (done, .lambda { d with parameters, body })
  | .binary d =>
    let (done, left) := overSlot old new false d.left
    let (done, right) := overSlot old new done d.right
    (done, .binary { d with left, right })

/-- The payload with nothing in its child slots. -/
def hollow : NodeData → NodeData
  | .compilationUnit d => .compilationUnit { d with classes := [] }
  | .classDeclaration d =>
    .classDeclaration { d with annotations := [], name := none, body := none }
  | .methodDeclaration d =>
    .methodDeclaration { d with
      annotations := [], returnType := none, name := none, parameters := [], body := none }
  | .block d => .block { d with statements := [] }
  | .variableDeclarations d =>
    .variableDeclarations { d with annotations := [], typeExpr := none, declared := [] }
  | .namedVariable d => .namedVariable { d with name := none, initializer := none }
  | .identifier d => .identifier d
  | .fieldAccess d => .fieldAccess { d with target := none, name := none }
  | .methodInvocation d =>
    .methodInvocation { d with select := none, name := none, arguments := [] }
  | .newClass d => .newClass { d with classExpr := none, arguments := [] }
  | .literal d => .literal d
  | .annotationUse d => .annotationUse { d with annotationType := none, arguments := [] }
  | .assignment d => .assignment { d with target := none, value := none }
  | .newArray d => .newArray { d with elements := [] }
  | .returnStatement d => .returnStatement { d with expression := none }
  | .forLoop d => .forLoop { d with initial := [], condition := none, update := [], body := none }
  | .tryStatement d => .tryStatement { d with resources := [], body := none, cleanup := none }
  | .lambda d => .lambda { d with parameters := [], body := none }
  | .binary d => .binary { d with left := none, right := none }

variable {old new : Ref}

/-- The slots of every kind of payload are taken in the order of its child fields. -/
theorem overwrite_eq_overFields (old new : Ref) (d : NodeData) :
    d.overwrite old new =
      ((overFields old new false d.childFields).1,
        d.withChildFields (overFields old new false d.childFields).2) := by
  cases d <;> rfl

theorem overwrite_eq_settle (old new : Ref) (d : NodeData) :
    d.overwrite old new = settle d (d.replaceChild old new) := by
  rw [overwrite_eq_overFields, ChildField.overFields_eq_settle, replaceChild]
  cases ChildField.replaceIn? old new d.childFields <;> simp [settle]

theorem hollow_withChildFields (d : NodeData) (fs : List ChildField) :
    (d.withChildFields fs).hollow = d.hollow := by
  unfold withChildFields
  split <;> rfl

/-- Replacing changes nothing but slots. -/
theorem hollow_replaceChild {d e : NodeData} (h : d.replaceChild old new = some e) :
    e.hollow = d.hollow := by
  obtain ⟨fs, -, rfl⟩ := Option.map_eq_some_iff.1 h
  exact d.hollow_withChildFields fs

/-- There is something to replace exactly if the old child is there; looking for nothing finds an
empty slot too. -/
theorem isSome_replaceChild_iff {d : NodeData} :
    (d.replaceChild old new).isSome ↔
      old ∈ d.children ∨ old = none ∧ ChildField.one none ∈ d.childFields := by
  rw [replaceChild, Option.isSome_map, ChildField.isSome_replaceIn?_iff, children, List.mem_flatMap]
  simp only [ChildField.mem_slots_iff, and_or_left, exists_or]
  refine or_congr Iff.rfl ⟨?_, fun h => ⟨_, h.2, h.1, rfl⟩⟩
  rintro ⟨f, hf, hold, rfl⟩
  exact ⟨hold, hf⟩

theorem map_children_replaceChild (d : NodeData) (m n : NodeId) :
    (d.replaceChild (some m) (some n)).map children =
      if some m ∈ d.children then some (d.children.replace (some m) (some n)) else none := by
  have hfields := ChildField.map_childrenOf_replaceIn? (m := m) (n := n) d.childFields
  rw [replaceChild]
  cases hfs : ChildField.replaceIn? (some m) (some n) d.childFields with
  | none =>
    rw [hfs] at hfields
    exact hfields
  | some fs =>
    have hread : (d.withChildFields fs).children = ChildField.childrenOf fs := by
      rw [children, childFields_withChildFields (ChildField.replaceIn?_rel hfs),
        ChildField.childrenOf]
    rw [hfs, Option.map_some] at hfields
    rw [Option.map_some, Option.map_some, hread, hfields]
    rfl

/-- The new child stands where the old one stood. -/
theorem children_replaceChild {d e : NodeData} {m n : NodeId}
    (h : d.replaceChild (some m) (some n) = some e) :
    ∃ before after, d.children = before ++ some m :: after ∧
      e.children = before ++ some n :: after := by
  have hchildren := map_children_replaceChild d m n
  rw [h] at hchildren
  by_cases hmem : some m ∈ d.children
  · rw [if_pos hmem, Option.map_some] at hchildren
    obtain ⟨before, after, hd, hnot⟩ := List.eq_append_cons_of_mem hmem
    refine ⟨before, after, hd, (Option.some.inj hchildren).trans ?_⟩
    rw [hd, List.replace_append_right hnot, List.replace_cons_self]
  · simp [hmem] at hchildren

/-- Replacing takes away one occurrence of the old child. -/
theorem count_replaceChild {d e : NodeData} {m n : NodeId} (hne : m ≠ n)
    (h : d.replaceChild (some m) (some n) = some e) :
    d.children.count (some m) = e.children.count (some m) + 1 := by
  obtain ⟨before, after, hd, he⟩ := children_replaceChild h
  have hne' : (some n : Ref) ≠ some m := by simpa using hne.symm
  rw [hd, he, List.count_append, List.count_append, List.count_cons_self,
    List.count_cons_of_ne hne']
  omega

/-- Going through the slots of a payload in turn is replacing the first occurrence of the old child
among its children: there is something to replace exactly if the child is there, then its first
occurrence gives way and all that is no child stays, and else the payload stays as it is. -/
theorem overwrite_first_occurrence (d : NodeData) (m n : NodeId) :
    d.overwrite (some m) (some n) =
        ((d.replaceChild (some m) (some n)).isSome, (d.replaceChild (some m) (some n)).getD d) ∧
      ((d.overwrite (some m) (some n)).1 = true ↔ some m ∈ d.children) ∧
      ((d.overwrite (some m) (some n)).1 = true →
        (d.overwrite (some m) (some n)).2.children = d.children.replace (some m) (some n) ∧
          (d.overwrite (some m) (some n)).2.hollow = d.hollow) ∧
      ((d.overwrite (some m) (some n)).1 = false → (d.overwrite (some m) (some n)).2 = d) := by
  have hchildren := map_children_replaceChild d m n
  rw [overwrite_eq_settle]
  cases he : d.replaceChild (some m) (some n) with
  | none =>
    have hmem : some m ∉ d.children := fun hmem => by simp [he, hmem] at hchildren
    exact ⟨rfl, by simp [settle, hmem], by simp [settle], fun _ => rfl⟩
  | some e =>
    have hmem : some m ∈ d.children := by
      by_contra hmem
      simp [he, hmem] at hchildren
    rw [he, if_pos hmem] at hchildren
    exact ⟨rfl, by simp [settle, hmem],
      fun _ => ⟨Option.some.inj hchildren, hollow_replaceChild he⟩, by simp [settle]⟩

/-- A loop that has one node as a start, as condition and among its updates, and a literal. -/
theorem overwrite_first_occurrence_loop :
    let loop : ForLoop := {
      initial := [some 2, some 1], condition := some 1, update := [none, some 1], body := none }
    let leaf : Literal := { value := .null, type := none }
    (NodeData.forLoop loop).overwrite (some 1) (some 9) =
      (true, .forLoop { loop with initial := [some 2, some 9] }) ∧
      (NodeData.forLoop loop).children.replace (some 1) (some 9) =
        [some 2, some 9, some 1, none, some 1] ∧
      ((NodeData.forLoop loop).overwrite (some 1) (some 9)).2.hollow =
        (NodeData.forLoop loop).hollow ∧
      ((NodeData.literal leaf).overwrite (some 1) (some 9)).2 = .literal leaf := by
  intro loop leaf
  obtain ⟨-, hfound, hreplaced, -⟩ := overwrite_first_occurrence (.forLoop loop) 1 9
  obtain ⟨-, -, -, hkept⟩ := overwrite_first_occurrence (.literal leaf) 1 9
  exact ⟨by decide, by decide, (hreplaced (hfound.2 (by decide))).2, hkept (by decide)⟩

end NodeData

end JavaRecipes
