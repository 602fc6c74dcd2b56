import JavaRecipes.Proofs.Tree.Reach
import JavaRecipes.Proofs.Tree.Slots
import JavaRecipes.Tree.Layout

/-!
Layouts of trees that have been rewritten. A layout shows a payload and what is in its slots, at
places through the slots of a child, and nothing else: payloads that differ in their slots only are
laid out alike when the slots are (`Alike.layoutAt_eq`). So a layout does not depend on how far down
it may go, once that is to the leaves (`layout_eq_layoutAt`), and a tree whose nodes have moved,
with some calls made anew, prints as the tree that was there with these calls spelled in another way
(`Rewrites.layout_eq`).
-/

namespace JavaRecipes

namespace Layout

/-- A call, on a receiver if there is one. -/
def call (select : Option Layout) (name : Layout) (arguments : List Layout) : Layout :=
  (select.map (· ++ [.text "."])).getD [] ++ name ++ [.text "("] ++
    separated ", " arguments ++ [.text ")"]

end Layout

/-- What closes an expression. -/
def Place.closing : Place → Layout
  | .expression => []
  | _ => [.text ";", .newline]

namespace Store

theorem layoutExpression_methodInvocation (s : Store) (sub : Place → Ref → Layout)
    (d : MethodInvocation) :
    s.layoutExpression sub (.methodInvocation d) =
      Layout.call (d.select.map fun n => sub .expression (some n))
        (sub .expression d.name) (d.arguments.map (sub .expression)) := by
  cases hselect : d.select <;> simp [layoutExpression, Layout.call, layoutArguments, hselect]

theorem layoutAt_methodInvocation (s : Store) (sub : Place → Ref → Layout) (place : Place)
    (d : MethodInvocation) :
    s.layoutAt sub place (.methodInvocation d) =
      s.layoutExpression sub (.methodInvocation d) ++ place.closing := by
  cases place <;>
    simp [layoutAt, layoutMember, layoutStatement, NodeData.isStatement, Place.closing]

/-! ## Payloads that look alike -/

/-- References in the relation are laid out alike and lead to payloads that are related slot by
slot, unless these are calls: no layout looks into the slots of a call. -/
structure Alike (s t : Store) (sub sub' : Place → Ref → Layout) (R : Ref → Ref → Prop) : Prop where
  none_iff : ∀ {a b}, R a b → (a = none ↔ b = none)
  layout : ∀ {a b}, R a b → ∀ place, sub place a = sub' place b
  data : ∀ {a b}, R a b → (s.data? a = none ∧ t.data? b = none) ∨
    ∃ x y, s.data? a = some x ∧ t.data? b = some y ∧
      (x.Slotwise R y ∨ x.kind = .methodInvocation ∧ y.kind = .methodInvocation)

theorem isStatement_of_kind {x y : NodeData} (h : y.kind = x.kind) :
    x.isStatement = y.isStatement := by
  cases x <;> cases y <;> simp_all [NodeData.kind, NodeData.isStatement]

theorem layoutStatement_of_kind (s : Store) (sub : Place → Ref → Layout) {x : NodeData}
    (h : x.kind ≠ .variableDeclarations) : s.layoutStatement sub x =
      s.layoutExpression sub x ++ if x.isStatement then [] else [.text ";", .newline] := by
  cases x <;> simp_all [NodeData.kind, layoutStatement]

theorem layoutMember_of_kind (s : Store) (sub : Place → Ref → Layout) {x : NodeData}
    (h : x.kind ≠ .variableDeclarations) : s.layoutMember sub x = s.layoutStatement sub x := by
  cases x <;> simp_all [NodeData.kind, layoutMember]

namespace Alike

variable {s t : Store} {sub sub' : Place → Ref → Layout} {R : Ref → Ref → Prop} {a b : Ref}
  {as bs : List Ref}

theorem isSome_eq (h : Alike s t sub sub' R) (hab : R a b) : a.isSome = b.isSome := by
  have hnone := h.none_iff hab
  cases a <;> cases b <;> simp_all

theorem map_eq (has : List.Forall₂ R as bs) {p q : Ref → Layout} (hpq : ∀ a b, R a b → p a = q b) :
    as.map p = bs.map q := by
  induction has with
  | nil => rfl
  | cons hab _ ih => rw [List.map_cons, List.map_cons, hpq _ _ hab, ih]

theorem flatMap_eq (has : List.Forall₂ R as bs) {p q : Ref → Layout}
    (hpq : ∀ a b, R a b → p a = q b) :
    as.flatMap p = bs.flatMap q := by
  rw [List.flatMap_def, List.flatMap_def, map_eq has hpq]

theorem layoutArguments_eq (h : Alike s t sub sub' R) (has : List.Forall₂ R as bs) :
    layoutArguments sub as = layoutArguments sub' bs := by
  rw [layoutArguments, layoutArguments, map_eq has fun _ _ hab => h.layout hab .expression]

theorem layoutAnnotationLines_eq (h : Alike s t sub sub' R) (has : List.Forall₂ R as bs) :
    layoutAnnotationLines sub as = layoutAnnotationLines sub' bs :=
  flatMap_eq has fun _ _ hab => by rw [h.layout hab]

theorem layoutInlineAnnotations_eq (h : Alike s t sub sub' R) (has : List.Forall₂ R as bs) :
    layoutInlineAnnotations sub as = layoutInlineAnnotations sub' bs :=
  flatMap_eq has fun _ _ hab => by rw [h.layout hab]

/-- What is read from the payload of a child, if it is nothing for a call. -/
theorem bind_rel (h : Alike s t sub sub' R) {α : Type} {S : α → α → Prop} {p : NodeData → Option α}
    (hslots : ∀ x y, x.Slotwise R y → Option.Rel S (p x) (p y))
    (hcall : ∀ d, p (.methodInvocation d) = none) (hab : R a b) :
    Option.Rel S ((s.data? a).bind p) ((t.data? b).bind p) := by
  rcases h.data hab with ⟨hx, hy⟩ | ⟨x, y, hx, hy, hxy | ⟨hxk, hyk⟩⟩
  · rw [hx, hy]
    exact .none
  · rw [hx, hy]
    exact hslots x y hxy
  · obtain ⟨d, rfl⟩ := NodeData.exists_of_kind hxk
    obtain ⟨e, rfl⟩ := NodeData.exists_of_kind hyk
    rw [hx, hy, Option.bind_some, Option.bind_some, hcall, hcall]
    exact .none

theorem namedVariable?_rel (h : Alike s t sub sub' R) (hab : R a b) :
    Option.Rel (fun v w : NamedVariable => R v.name w.name ∧ R v.initializer w.initializer)
      (s.namedVariable? a) (t.namedVariable? b) :=
  h.bind_rel (fun _ _ => NodeData.Slotwise.namedVariable?_rel) (fun _ => rfl) hab

theorem declarations?_rel (h : Alike s t sub sub' R) (hab : R a b) :
    Option.Rel (fun d e : VariableDeclarations =>
        e.modifiers = d.modifiers ∧ List.Forall₂ R d.annotations e.annotations ∧
        R d.typeExpr e.typeExpr ∧
          List.Forall₂ R d.declared e.declared)
      (s.declarations? a) (t.declarations? b) :=
  h.bind_rel (fun _ _ => NodeData.Slotwise.declarations?_rel) (fun _ => rfl) hab

theorem block?_rel (h : Alike s t sub sub' R) (hab : R a b) :
    Option.Rel (fun d e : Block => List.Forall₂ R d.statements e.statements)
      (s.block? a) (t.block? b) :=
  h.bind_rel (fun _ _ => NodeData.Slotwise.block?_rel) (fun _ => rfl) hab

theorem layoutVariable_eq (h : Alike s t sub sub' R) (hab : R a b) :
    s.layoutVariable sub a = t.layoutVariable sub' b := by
  have hrel := h.namedVariable?_rel hab
  unfold layoutVariable
  generalize s.namedVariable? a = v at hrel ⊢
  generalize t.namedVariable? b = w at hrel ⊢
  cases hrel with
  | none => rfl
  | some hvw => simp only [h.layout hvw.1, h.isSome_eq hvw.2, h.layout hvw.2]

theorem layoutDeclaration_eq (h : Alike s t sub sub' R) {d e : VariableDeclarations}
    (hmodifiers : e.modifiers = d.modifiers) (htype : R d.typeExpr e.typeExpr)
    (hdeclared : List.Forall₂ R d.declared e.declared) :
    s.layoutDeclaration sub d = t.layoutDeclaration sub' e := by
  simp only [layoutDeclaration, hmodifiers, h.isSome_eq htype, h.layout htype,
    map_eq hdeclared fun _ _ hab => h.layoutVariable_eq hab]

theorem layoutParameter_eq (h : Alike s t sub sub' R) (hab : R a b) :
    s.layoutParameter sub a = t.layoutParameter sub' b := by
  have hrel := h.declarations?_rel hab
  unfold layoutParameter
  generalize s.declarations? a = v at hrel ⊢
  generalize t.declarations? b = w at hrel ⊢
  cases hrel with
  | none => rfl
  | some hde =>
    obtain ⟨hmodifiers, hannotations, htype, hdeclared⟩ := hde
    simp only [h.layoutInlineAnnotations_eq hannotations,
      h.layoutDeclaration_eq hmodifiers htype hdeclared]

theorem layoutLambdaParameter_eq (h : Alike s t sub sub' R) (hab : R a b) :
    s.layoutLambdaParameter sub a = t.layoutLambdaParameter sub' b := by
  have hrel := h.declarations?_rel hab
  unfold layoutLambdaParameter
  generalize s.declarations? a = v at hrel ⊢
  generalize t.declarations? b = w at hrel ⊢
  cases hrel with
  | none => rfl
  | some hde =>
    obtain ⟨hmodifiers, -, htype, hdeclared⟩ := hde
    simp only [h.layoutDeclaration_eq hmodifiers htype hdeclared]

theorem layoutInitial_eq (h : Alike s t sub sub' R) (hab : R a b) :
    s.layoutInitial sub a = t.layoutInitial sub' b := by
  have hrel := h.declarations?_rel hab
  unfold layoutInitial
  generalize s.declarations? a = v at hrel ⊢
  generalize t.declarations? b = w at hrel ⊢
  cases hrel with
  | none => exact h.layout hab _
  | some hde =>
    obtain ⟨hmodifiers, -, htype, hdeclared⟩ := hde
    exact h.layoutDeclaration_eq hmodifiers htype hdeclared

/-- The statements of a block, if there is one. -/
theorem statements_rel (h : Alike s t sub sub' R) (hab : R a b) :
    List.Forall₂ R (((s.block? a).map (·.statements)).getD [])
      (((t.block? b).map (·.statements)).getD []) := by
  have hrel := h.block?_rel hab
  generalize s.block? a = v at hrel ⊢
  generalize t.block? b = w at hrel ⊢
  cases hrel with
  | none => exact .nil
  | some hde => exact hde

theorem layoutBlock_eq (h : Alike s t sub sub' R) (hab : R a b) :
    s.layoutBlock sub a = t.layoutBlock sub' b := by
  simp only [layoutBlock, flatMap_eq (h.statements_rel hab) fun _ _ hcd => h.layout hcd .statement]

theorem isSome_block?_eq (h : Alike s t sub sub' R) (hab : R a b) :
    (s.block? a).isSome = (t.block? b).isSome := by
  have hrel := h.block?_rel hab
  generalize s.block? a = v at hrel ⊢
  generalize t.block? b = w at hrel ⊢
  cases hrel <;> rfl

theorem isEmpty_eq (has : List.Forall₂ R as bs) : as.isEmpty = bs.isEmpty := by
  cases has <;> rfl

theorem layoutExpression_eq (h : Alike s t sub sub' R) {x y : NodeData} (hxy : x.Slotwise R y) :
    s.layoutExpression sub x = t.layoutExpression sub' y := by
  obtain ⟨fs, hfs, rfl⟩ := hxy
  cases x <;>
    simp only [NodeData.childFields, List.forall₂_cons_left_iff, List.forall₂_nil_left_iff,
      ChildField.rel_one_iff, ChildField.rel_many_iff] at hfs
  case identifier d => rw [hfs]; rfl
  case literal d => rw [hfs]; rfl
  case compilationUnit d =>
    obtain ⟨_, _, ⟨classes, -, rfl⟩, rfl, rfl⟩ := hfs
    rfl
  case classDeclaration d =>
    obtain ⟨_, _, ⟨annotations, ha, rfl⟩,
        ⟨_, _, ⟨name, hn, rfl⟩, ⟨_, _, ⟨body, hb, rfl⟩, rfl, rfl⟩, rfl⟩, rfl⟩ := hfs
    have hmembers := map_eq (h.statements_rel hb) fun _ _ hab => h.layout hab .member
    simp only [NodeData.withChildFields, layoutExpression, layoutClass,
      h.layoutAnnotationLines_eq ha, h.layout hn, hmembers]
  case methodDeclaration d =>
    obtain ⟨_, _, ⟨annotations, ha, rfl⟩, ⟨_, _, ⟨type, ht, rfl⟩, ⟨_, _, ⟨name, hn, rfl⟩,
      ⟨_, _, ⟨parameters, hp, rfl⟩, ⟨_, _, ⟨body, hb, rfl⟩, rfl, rfl⟩, rfl⟩, rfl⟩, rfl⟩, rfl⟩ := hfs
    have hparameters := map_eq hp fun _ _ hab => h.layoutParameter_eq hab
    simp only [NodeData.withChildFields, layoutExpression, layoutMethod,
      h.layoutAnnotationLines_eq ha, h.isSome_eq ht, h.layout ht, h.layout hn, hparameters,
      h.isSome_eq hb, h.layoutBlock_eq hb]
  case block d =>
    obtain ⟨_, _, ⟨statements, hs, rfl⟩, rfl, rfl⟩ := hfs
    simp only [NodeData.withChildFields, layoutExpression,
      flatMap_eq hs fun _ _ hab => h.layout hab .statement]
  case variableDeclarations d =>
    obtain ⟨_, _, ⟨annotations, -, rfl⟩,
        ⟨_, _, ⟨type, ht, rfl⟩, ⟨_, _, ⟨declared, hd, rfl⟩, rfl, rfl⟩, rfl⟩, rfl⟩ :=
      hfs
    exact h.layoutDeclaration_eq rfl ht hd
  case namedVariable d =>
    obtain ⟨_, _, ⟨name, hn, rfl⟩, ⟨_, _, ⟨initializer, -, rfl⟩, rfl, rfl⟩, rfl⟩ := hfs
    exact h.layout hn _
  case fieldAccess d =>
    obtain ⟨_, _, ⟨target, ht, rfl⟩, ⟨_, _, ⟨name, hn, rfl⟩, rfl, rfl⟩, rfl⟩ := hfs
    simp only [NodeData.withChildFields, layoutExpression, h.layout ht, h.layout hn]
  case methodInvocation d =>
    obtain ⟨_, _, ⟨select, hs, rfl⟩,
        ⟨_, _, ⟨name, hn, rfl⟩, ⟨_, _, ⟨arguments, ha, rfl⟩, rfl, rfl⟩, rfl⟩, rfl⟩ := hfs
    simp only [NodeData.withChildFields, layoutExpression, h.isSome_eq hs, h.layout hs, h.layout hn,
      h.layoutArguments_eq ha]
  case newClass d =>
    obtain ⟨_, _, ⟨type, ht, rfl⟩, ⟨_, _, ⟨arguments, ha, rfl⟩, rfl, rfl⟩, rfl⟩ := hfs
    simp only [NodeData.withChildFields, layoutExpression, h.layout ht, h.layoutArguments_eq ha]
  case annotationUse d =>
    obtain ⟨_, _, ⟨type, ht, rfl⟩, ⟨_, _, ⟨arguments, ha, rfl⟩, rfl, rfl⟩, rfl⟩ := hfs
    simp only [NodeData.withChildFields, layoutExpression, h.layout ht, isEmpty_eq ha,
      h.layoutArguments_eq ha]
  case assignment d =>
    obtain ⟨_, _, ⟨target, ht, rfl⟩, ⟨_, _, ⟨value, hv, rfl⟩, rfl, rfl⟩, rfl⟩ := hfs
    simp only [NodeData.withChildFields, layoutExpression, h.layout ht, h.layout hv]
  case newArray d =>
    obtain ⟨_, _, ⟨elements, he, rfl⟩, rfl, rfl⟩ := hfs
    simp only [NodeData.withChildFields, layoutExpression, h.layoutArguments_eq he]
  case returnStatement d =>
    obtain ⟨_, _, ⟨expression, he, rfl⟩, rfl, rfl⟩ := hfs
    simp only [NodeData.withChildFields, layoutExpression, h.isSome_eq he, h.layout he]
  case forLoop d =>
    obtain ⟨_, _, ⟨initial, hi, rfl⟩, ⟨_, _, ⟨condition, hc, rfl⟩, ⟨_, _, ⟨update, hu, rfl⟩,
      ⟨_, _, ⟨body, hb, rfl⟩, rfl, rfl⟩, rfl⟩, rfl⟩, rfl⟩ := hfs
    simp only [NodeData.withChildFields, layoutExpression,
      map_eq hi fun _ _ hab => h.layoutInitial_eq hab,
      h.layout hc, h.layoutArguments_eq hu, h.layout hb]
  case tryStatement d =>
    obtain ⟨_, _, ⟨resources, hr, rfl⟩,
        ⟨_, _, ⟨body, hb, rfl⟩, ⟨_, _, ⟨cleanup, hc, rfl⟩, rfl, rfl⟩, rfl⟩, rfl⟩ := hfs
    simp only [NodeData.withChildFields, layoutExpression, layoutTry, isEmpty_eq hr,
      map_eq hr fun _ _ hab => h.layoutParameter_eq hab,
      h.layoutBlock_eq hb, h.isSome_eq hc, h.layoutBlock_eq hc]
  case lambda d =>
    obtain ⟨_, _, ⟨parameters, hp, rfl⟩, ⟨_, _, ⟨body, hb, rfl⟩, rfl, rfl⟩, rfl⟩ := hfs
    simp only [NodeData.withChildFields, layoutExpression,
      map_eq hp fun _ _ hab => h.layoutLambdaParameter_eq hab,
      h.isSome_block?_eq hb, h.layoutBlock_eq hb, h.layout hb]
  case binary d =>
    obtain ⟨_, _, ⟨left, hl, rfl⟩, ⟨_, _, ⟨right, hr, rfl⟩, rfl, rfl⟩, rfl⟩ := hfs
    simp only [NodeData.withChildFields, layoutExpression, h.layout hl, h.layout hr]

theorem layoutStatement_eq (h : Alike s t sub sub' R) {x y : NodeData} (hxy : x.Slotwise R y) :
    s.layoutStatement sub x = t.layoutStatement sub' y := by
  by_cases hkind : x.kind = .variableDeclarations
  · cases x <;> simp [NodeData.kind] at hkind
    obtain ⟨e, rfl, hmodifiers, hannotations, htype, hdeclared⟩ := hxy.of_variableDeclarations
    simp only [layoutStatement, h.layoutInlineAnnotations_eq hannotations,
      h.layoutDeclaration_eq hmodifiers htype hdeclared]
  · rw [layoutStatement_of_kind s sub hkind, layoutStatement_of_kind t sub' (hxy.kind ▸ hkind),
      h.layoutExpression_eq hxy, isStatement_of_kind hxy.kind]

theorem layoutMember_eq (h : Alike s t sub sub' R) {x y : NodeData} (hxy : x.Slotwise R y) :
    s.layoutMember sub x = t.layoutMember sub' y := by
  by_cases hkind : x.kind = .variableDeclarations
  · cases x <;> simp [NodeData.kind] at hkind
    obtain ⟨e, rfl, hmodifiers, hannotations, htype, hdeclared⟩ := hxy.of_variableDeclarations
    simp only [layoutMember, h.layoutAnnotationLines_eq hannotations,
      h.layoutDeclaration_eq hmodifiers htype hdeclared]
  · rw [layoutMember_of_kind s sub hkind, layoutMember_of_kind t sub' (hxy.kind ▸ hkind),
      h.layoutStatement_eq hxy]

/-- Payloads that are related slot by slot are laid out alike. -/
theorem layoutAt_eq (h : Alike s t sub sub' R) {x y : NodeData} (hxy : x.Slotwise R y)
    (place : Place) :
    s.layoutAt sub place x = t.layoutAt sub' place y := by
  cases place with
  | member => exact h.layoutMember_eq hxy
  | statement => exact h.layoutStatement_eq hxy
  | expression => exact h.layoutExpression_eq hxy

/-- In one store it is enough that what is below is laid out alike. -/
theorem of_pred {P : Ref → Prop} (hlayout : ∀ a, P a → ∀ place, sub place a = sub' place a)
    (hslot : ∀ a c x, P a → s.data? a = some x → ChildField.Among c x.children → P c) :
    Alike s s sub sub' fun a b => b = a ∧ P a := by
  refine ⟨fun ⟨hab, _⟩ => hab ▸ Iff.rfl, fun ⟨hab, ha⟩ place => hab ▸ hlayout _ ha place, ?_⟩
  rintro _ a ⟨rfl, ha⟩
  cases hx : s.data? a with
  | none => exact .inl ⟨rfl, rfl⟩
  | some x => exact .inr ⟨x, x, rfl, rfl, .inl (.diag fun c hc => ⟨rfl, hslot a c x ha hx hc⟩)⟩

end Alike

/-! ## How far down -/

theorem Shallow.none (s : Store) (depth : Nat) : s.Shallow depth none := by
  cases depth with
  | zero => rfl
  | succ depth =>
    intro c hc
    simp [children, data?, get?] at hc

/-- The slots of a node lead to leaves in one step less. -/
theorem Shallow.slot {s : Store} {depth : Nat} {r c : Ref} {x : NodeData}
    (h : s.Shallow (depth + 1) r) (hx : s.data? r = some x) (hc : ChildField.Among c x.children) :
    s.Shallow depth c := by
  rcases hc with rfl | hc
  · exact .none s depth
  · exact h c (by rwa [children_eq_of_data? hx])

/-- A layout that goes down to the leaves is the layout, however much further it may go. -/
theorem layoutDepth_eq {s : Store} {depth depth' : Nat} {r : Ref} (h : s.Shallow depth r)
    (h' : s.Shallow depth' r) (place : Place) :
    s.layoutDepth depth place r = s.layoutDepth depth' place r := by
  induction depth generalizing depth' r place with
  | zero => cases depth' <;> simp [layoutDepth, show s.data? r = Option.none from h]
  | succ depth ih =>
    cases depth' with
    | zero => simp [layoutDepth, show s.data? r = Option.none from h']
    | succ depth' =>
      cases hx : s.data? r with
      | none => simp [layoutDepth, hx]
      | some x =>
        have halike : Alike s s (s.layoutDepth depth) (s.layoutDepth depth')
            fun a b => b = a ∧ s.Shallow depth a ∧ s.Shallow depth' a :=
          .of_pred (fun a ha place => ih ha.1 ha.2 place)
            fun a c x ha hx hc => ⟨ha.1.succ.slot hx hc, ha.2.succ.slot hx hc⟩
        simp only [layoutDepth, hx]
        exact halike.layoutAt_eq (.diag fun c hc => ⟨rfl, h.slot hx hc, h'.slot hx hc⟩) place

theorem Reaches.of_reflTransGen {s : Store} {n m : NodeId} (h : Relation.ReflTransGen s.Holds n m)
    (hm : m < s.size) : s.Reaches (some n) m := by
  induction h with
  | refl => exact .start rfl hm
  | tail _ hh ih => exact .step (ih (holds_lt_size hh)) hh hm

/-- No cycle below the children is none below the node. -/
theorem acyclic_of_children {s : Store} {r : Ref} (h : ∀ c ∈ s.children r, s.Acyclic c) :
    s.Acyclic r := by
  intro n hn hcycle
  rcases hn.eq_or_child with rfl | ⟨c, hc, hnc⟩
  · obtain ⟨c, hc, hcn⟩ := Relation.TransGen.head'_iff.1 hcycle
    exact h _ hc n (.of_reflTransGen hcn hn.lt_size) hcycle
  · exact h c hc n hnc hcycle

/-- A node in a store without cycles is laid out from the layouts of what is in it. -/
theorem layout_eq_layoutAt {s : Store} {r : Ref} (hs : s.Acyclic r) {x : NodeData}
    (hx : s.data? r = some x) (place : Place) : s.layout place r = s.layoutAt s.layout place x := by
  have hshallow := shallow_of_acyclic hs
  have halike : Alike s s (s.layoutDepth s.size) s.layout fun a b => b = a ∧ s.Shallow s.size a :=
    .of_pred (fun a ha place => layoutDepth_eq ha ha.succ place)
      fun a c x ha hx hc => ha.succ.slot hx hc
  rw [layout, layoutDepth, hx]
  exact halike.layoutAt_eq (.diag fun c hc => ⟨rfl, hshallow.slot hx hc⟩) place

/-- A call where it stands. -/
theorem layout_methodInvocation {s : Store} {r : Ref} (hs : s.Acyclic r) {d : MethodInvocation}
    (hd : s.data? r = some (.methodInvocation d)) (place : Place) :
    s.layout place r = s.layout .expression r ++ place.closing := by
  rw [layout_eq_layoutAt hs hd, layout_eq_layoutAt hs hd, layoutAt_methodInvocation,
    layoutAt_methodInvocation]
  simp [Place.closing]

/-! ## Nodes that are spelled in another way -/

/-- The layout of a tree in which some nodes are spelled in another way, as expressions made of the
expressions below. -/
def layoutDepthWith (s : Store) (other : NodeId → Option ((Ref → Layout) → Layout)) :
    Nat → Place → Ref → Layout
  | 0, _, _ => []
  | depth + 1, place, r =>
    match r.bind other with
    | some spell => spell (s.layoutDepthWith other depth .expression) ++ place.closing
    | none =>
      match s.data? r with
      | none => []
      | some data => s.layoutAt (s.layoutDepthWith other depth) place data

def layoutWith (s : Store) (other : NodeId → Option ((Ref → Layout) → Layout)) (place : Place)
    (r : Ref) : Layout :=
  s.layoutDepthWith other (s.size + 1) place r

theorem layoutDepthWith_none (s : Store) (depth : Nat) :
    s.layoutDepthWith (fun _ => none) depth = s.layoutDepth depth := by
  induction depth with
  | zero => rfl
  | succ depth ih =>
    funext place r
    have hnone : (r.bind fun _ => none : Option ((Ref → Layout) → Layout)) = none := by
      cases r <;> rfl
    cases hx : s.data? r with
    | none => simp [layoutDepthWith, layoutDepth, hx, hnone]
    | some x => simp [layoutDepthWith, layoutDepth, hx, hnone, ih]

/-- The nodes of one tree have become those of another: a node that is not spelled in another way is
the same but for its slots, and a call that is has become a call that reads so. -/
structure Rewrites (s t : Store) (root : Ref) (σ : NodeId → NodeId)
    (other : NodeId → Option ((Ref → Layout) → Layout)) : Prop where
  filled : ∀ {n m}, s.Reaches root n → s.Holds n m → m < s.size
  kept : ∀ {n x}, s.Reaches root n → s.data? (some n) = some x → other n = none →
    ∃ y, t.data? (some (σ n)) = some y ∧ x.Slotwise (fun a b => b = a.map σ) y
  spelled : ∀ {n spell}, s.Reaches root n → other n = some spell → ∃ d e,
    s.data? (some n) = some (.methodInvocation d) ∧
    t.data? (some (σ n)) = some (.methodInvocation e) ∧
    ((∀ c ∈ (NodeData.methodInvocation d).children, t.Acyclic (c.map σ)) → t.Acyclic (some (σ n)) ∧
      ∀ sub, (∀ c, ChildField.Among c (NodeData.methodInvocation d).children →
        sub c = t.layout .expression (c.map σ)) → t.layout .expression (some (σ n)) = spell sub)

/-- A slot that is empty or leads to a node in reach, from where leaves are at most so many levels
down. -/
def Below (s : Store) (root : Ref) (depth : Nat) (c : Ref) : Prop :=
  ∀ m, c = some m → s.Reaches root m ∧ s.Shallow depth (some m)

namespace Rewrites

variable {s t : Store} {root : Ref} {σ : NodeId → NodeId}
  {other : NodeId → Option ((Ref → Layout) → Layout)}
  {depth : Nat} {n : NodeId} {x : NodeData}

theorem below (h : s.Rewrites t root σ other) (hn : s.Reaches root n)
    (hx : s.data? (some n) = some x) (hshallow : s.Shallow (depth + 1) (some n)) {c : Ref}
    (hc : ChildField.Among c x.children) :
    s.Below root depth c := by
  rintro m rfl
  have hheld := (holds_iff hx).2 (hc.resolve_left (by simp))
  exact ⟨.step hn hheld (h.filled hn hheld), hshallow.slot hx hc⟩

/-- The slots of the two trees look alike if what they lead to is laid out alike. -/
theorem alike (h : s.Rewrites t root σ other)
    (hlayout : ∀ c, s.Below root depth c → ∀ place,
      s.layoutDepthWith other depth place c = t.layout place (c.map σ)) :
    Alike s t (s.layoutDepthWith other depth) t.layout
      (fun a b => b = a.map σ ∧ s.Below root depth a) := by
  refine ⟨fun ⟨hab, _⟩ => by rw [hab, Option.map_eq_none_iff],
    fun ⟨hab, ha⟩ place => hab ▸ hlayout _ ha place, ?_⟩
  rintro a b ⟨rfl, ha⟩
  cases a with
  | none => exact .inl ⟨rfl, rfl⟩
  | some m =>
    obtain ⟨hm, hshallow⟩ := ha m rfl
    refine .inr ?_
    cases hother : other m with
    | some spell =>
      obtain ⟨d, e, hd, he, -⟩ := h.spelled hm hother
      exact ⟨_, _, hd, he, .inr ⟨rfl, rfl⟩⟩
    | none =>
      obtain ⟨x, hx⟩ := exists_data? hm.lt_size
      obtain ⟨y, hy, hxy⟩ := h.kept hm hx hother
      exact ⟨x, y, hx, hy,
        .inl (hxy.imp_of_mem fun a b ha _ hab => ⟨hab, h.below hm hx hshallow.succ ha⟩)⟩

/-- Each node prints as the node it was, with the nodes below spelled as they are to be. -/
theorem layout_eq (h : s.Rewrites t root σ other) (hn : s.Reaches root n)
    (hshallow : s.Shallow depth (some n)) :
    t.Acyclic (some (σ n)) ∧
      ∀ place, t.layout place (some (σ n)) = s.layoutDepthWith other depth place (some n) := by
  induction depth generalizing n with
  | zero =>
    obtain ⟨x, hx⟩ := exists_data? hn.lt_size
    simp [Shallow, hx] at hshallow
  | succ depth ih =>
    obtain ⟨x, hx⟩ := exists_data? hn.lt_size
    have hslot : ∀ c, s.Below root depth c → t.Acyclic (c.map σ) ∧
        ∀ place, s.layoutDepthWith other depth place c = t.layout place (c.map σ) := by
      rintro (_ | m) hc
      · refine ⟨acyclic_of_children fun c hc => ?_, fun place => ?_⟩
        · simp [children, data?, get?] at hc
        · cases depth <;> rfl
      · obtain ⟨hacyclic, hlayout⟩ := ih (hc m rfl).1 (hc m rfl).2
        exact ⟨hacyclic, fun place => (hlayout place).symm⟩
    cases hother : other n with
    | some spell =>
      obtain ⟨d, e, hd, he, hspelled⟩ := h.spelled hn hother
      obtain rfl := Option.some.inj (hx.symm.trans hd)
      obtain ⟨hacyclic, hspell⟩ :=
        hspelled fun c hc => (hslot c (h.below hn hx hshallow (.inr hc))).1
      have hlayout := hspell (s.layoutDepthWith other depth .expression) fun c hc =>
        (hslot c (h.below hn hx hshallow hc)).2 .expression
      refine ⟨hacyclic, fun place => ?_⟩
      rw [layout_methodInvocation hacyclic he, hlayout]
      simp [layoutDepthWith, hother]
    | none =>
      obtain ⟨y, hy, hxy⟩ := h.kept hn hx hother
      have hchildren := List.forall₂_map_left_iff.2
        ((hxy.children fun a b hab => by rw [hab, Option.map_eq_none_iff]).imp
          fun _ _ hab => hab.symm)
      rw [List.forall₂_eq_eq_eq] at hchildren
      have hacyclic : t.Acyclic (some (σ n)) := by
        refine acyclic_of_children fun b hb => ?_
        rw [children_eq_of_data? hy, ← hchildren] at hb
        obtain ⟨a, ha, rfl⟩ := List.mem_map.1 hb
        exact (hslot a (h.below hn hx hshallow (.inr ha))).1
      have halike := h.alike fun c hc => (hslot c hc).2
      have hslots := hxy.imp_of_mem fun a b ha _ hab => And.intro hab (h.below hn hx hshallow ha)
      refine ⟨hacyclic, fun place => ?_⟩
      rw [layout_eq_layoutAt hacyclic hy, ← halike.layoutAt_eq hslots]
      simp [layoutDepthWith, hother, hx]

end Rewrites

end Store

/-! ## Files -/

namespace SourceFile

/-- Package, imports and classes of a compilation unit, given the layouts of the classes. -/
def unitLayout (unit : CompilationUnit) (classes : List Layout) : Layout :=
  let package := match unit.packageName with
    | some name => [[.text ("package " ++ name ++ ";"), .newline]]
    | none => []
  let imports := if unit.imports.isEmpty then []
    else [unit.imports.flatMap fun name => [.text ("import " ++ name ++ ";"), .newline]]
  Layout.paragraphs (package ++ imports ++ classes)

/-- The text of a file in which some nodes are spelled in another way. -/
def printWith (f : SourceFile) (other : NodeId → Option ((Ref → Layout) → Layout)) : String :=
  Layout.render <| match f.store.data? f.root with
  | some (.compilationUnit unit) =>
    unitLayout unit (unit.classes.map (f.store.layoutWith other .member))
  | _ => []

variable {f g : SourceFile} {unit : CompilationUnit}

theorem print_of_unit (h : f.store.data? f.root = some (.compilationUnit unit)) :
    f.print = (unitLayout unit (unit.classes.map (f.store.layout .member))).render := by
  simp only [print, layout, h]
  rfl

/-- Where no node is spelled in another way, the text is that of the file. -/
theorem printWith_none (f : SourceFile) : f.printWith (fun _ => none) = f.print := by
  have hlayout : f.store.layoutWith (fun _ => none) .member = f.store.layout .member := by
    funext r
    rw [Store.layoutWith, Store.layoutDepthWith_none, Store.layout]
  unfold printWith print layout
  rw [hlayout]
  rfl

/-- A compilation unit whose nodes have become others prints as it did, but for the nodes spelled in
another way. -/
theorem print_of_rewrites {σ : NodeId → NodeId} {other : NodeId → Option ((Ref → Layout) → Layout)}
    (hf : f.Acyclic) (hunit : f.store.data? f.root = some (.compilationUnit unit))
    (hroot : g.root = f.root.map σ) (h : f.store.Rewrites g.store f.root σ other) :
    g.print = f.printWith other := by
  obtain ⟨n, hn⟩ := Store.exists_of_data? hunit
  have hreach : f.store.Reaches f.root n := .start hn (Store.lt_size_of_data? (hn ▸ hunit))
  have hshallow := Store.shallow_of_acyclic hf
  rw [hn] at hunit hroot hshallow
  have hother : other n = none := by
    refine Option.eq_none_iff_forall_ne_some.2 fun spell hspell => ?_
    obtain ⟨d, e, hd, -⟩ := h.spelled hreach hspell
    simp [hunit] at hd
  obtain ⟨y, hy, fs, hfs, rfl⟩ := h.kept hreach hunit hother
  simp only [NodeData.childFields, List.forall₂_cons_left_iff, List.forall₂_nil_left_iff,
    ChildField.rel_many_iff] at hfs
  obtain ⟨_, _, ⟨classes, hclasses, rfl⟩, rfl, rfl⟩ := hfs
  have hgunit : g.store.data? g.root = some (.compilationUnit { unit with classes }) := hroot ▸ hy
  have hmembers : unit.classes.map (f.store.layoutWith other .member) =
      classes.map (g.store.layout .member) := by
    refine Store.Alike.map_eq
      (ChildField.forall₂_imp_of_mem hclasses fun a b ha _ hab => And.intro ha hab) ?_
    rintro a b ⟨ha, rfl⟩
    have hbelow :=
      h.below hreach hunit hshallow
        (.inr (by simpa [NodeData.children, NodeData.childFields, ChildField.children] using ha))
    cases a with
    | none => rfl
    | some m =>
      obtain ⟨hm, hmshallow⟩ := hbelow m rfl
      exact ((h.layout_eq hm hmshallow.succ).2 .member).symm
  rw [print_of_unit hgunit, printWith, hn, hunit]
  simp only [hmembers]
  rfl

end SourceFile

end JavaRecipes
