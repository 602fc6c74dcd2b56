import JavaRecipes.Tree.Fields
import Mathlib.Data.List.Forall2

/-!
Payloads that differ only in what their child slots hold. Two of them are compared slot by slot
under a relation; replacing a child is the case where one slot differs.
-/

namespace JavaRecipes

namespace ChildField

theorem mem_children_one {r c : Ref} : c ∈ (one r).children ↔ c = r ∧ c ≠ none := by
  cases r with
  | none => simp [children]
  | some n =>
    simp only [children, List.mem_singleton, iff_self_and]
    rintro rfl
    simp

theorem mem_children_many {rs : List Ref} {c : Ref} : c ∈ (many rs).children ↔ c ∈ rs := Iff.rfl

/-- The slots of two fields stand in the relation, one by one. -/
inductive Rel (R : Ref → Ref → Prop) : ChildField → ChildField → Prop
  | one {a b : Ref} : R a b → Rel R (.one a) (.one b)
  | many {as bs : List Ref} : List.Forall₂ R as bs → Rel R (.many as) (.many bs)

theorem rel_one_iff {R : Ref → Ref → Prop} {a : Ref} {g : ChildField} :
    Rel R (.one a) g ↔ ∃ b, R a b ∧ g = .one b := by
  constructor
  · intro h
    cases h with
    | one hab => exact ⟨_, hab, rfl⟩
  · rintro ⟨b, hab, rfl⟩
    exact .one hab

theorem rel_many_iff {R : Ref → Ref → Prop} {as : List Ref} {g : ChildField} :
    Rel R (.many as) g ↔ ∃ bs, List.Forall₂ R as bs ∧ g = .many bs := by
  constructor
  · intro h
    cases h with
    | many has => exact ⟨_, has, rfl⟩
  · rintro ⟨bs, has, rfl⟩
    exact .many has

theorem Rel.mono {R S : Ref → Ref → Prop} (h : ∀ a b, R a b → S a b) {f g : ChildField}
    (hfg : Rel R f g) : Rel S f g := by
  cases hfg with
  | one hab => exact .one (h _ _ hab)
  | many has => exact .many (has.imp h)

theorem Rel.refl {R : Ref → Ref → Prop} (h : ∀ a, R a a) (f : ChildField) : Rel R f f := by
  cases f with
  | one a => exact .one (h a)
  | many as => exact .many (List.forall₂_same.2 fun a _ => h a)

theorem forall₂_comp {α : Type} {R S T : α → α → Prop} (h : ∀ a b c, R a b → S b c → T a c)
    {as bs cs : List α} (hab : List.Forall₂ R as bs) (hbc : List.Forall₂ S bs cs) :
    List.Forall₂ T as cs := by
  induction hab generalizing cs with
  | nil =>
    cases hbc
    exact .nil
  | cons hr _ ih =>
    cases hbc with
    | cons hs hbc => exact .cons (h _ _ _ hr hs) (ih hbc)

theorem Rel.comp {R S T : Ref → Ref → Prop} {f g k : ChildField} (hfg : Rel R f g)
    (h : ∀ a b c, R a b → S b c → T a c) (hgk : Rel S g k) : Rel T f k := by
  cases hfg with
  | one hab =>
    obtain ⟨c, hbc, rfl⟩ := rel_one_iff.1 hgk
    exact .one (h _ _ _ hab hbc)
  | many has =>
    obtain ⟨cs, hbs, rfl⟩ := rel_many_iff.1 hgk
    exact .many (forall₂_comp h has hbs)

/-- A relation that keeps empty slots empty relates the children of two fields. -/
theorem Rel.children {R : Ref → Ref → Prop} (h : ∀ a b, R a b → (a = none ↔ b = none))
    {f g : ChildField} (hfg : Rel R f g) : List.Forall₂ R f.children g.children := by
  cases hfg with
  | @one a b hab =>
    cases a with
    | none =>
      have hb := (h _ _ hab).1 rfl
      subst hb
      exact .nil
    | some a =>
      cases b with
      | none => exact absurd ((h _ _ hab).2 rfl) (by simp)
      | some b => exact .cons hab .nil
  | many has => exact has

/-- Lists in a relation are in another one that follows from it for what is in them. -/
theorem forall₂_imp_of_mem {α : Type} {R S : α → α → Prop} {as bs : List α}
    (h : List.Forall₂ R as bs) (himp : ∀ a b, a ∈ as → b ∈ bs → R a b → S a b) :
    List.Forall₂ S as bs := by
  induction h with
  | nil => exact .nil
  | @cons a b as bs hab _ ih =>
    refine .cons (himp a b List.mem_cons_self List.mem_cons_self hab) (ih fun a b ha hb => ?_)
    exact himp a b (List.mem_cons_of_mem _ ha) (List.mem_cons_of_mem _ hb)

/-- What comes from itself only in a relation of lists is in the second one at most as often as in
the first one. -/
theorem count_le_of_forall₂ {R : Ref → Ref → Prop} {as bs : List Ref} {c : Ref}
    (h : List.Forall₂ R as bs) (hc : ∀ a b, R a b → b = c → a = c) : bs.count c ≤ as.count c := by
  induction h with
  | nil => exact Nat.le_refl _
  | @cons a b as bs hab _ ih =>
    by_cases hb : b = c
    · rw [hb, hc a b hab hb, List.count_cons_self, List.count_cons_self]
      exact Nat.succ_le_succ ih
    · rw [List.count_cons_of_ne hb]
      exact Nat.le_trans ih List.count_le_count_cons

/-- What a slot can hold, given the children: nothing, or one of them. -/
def Among (r : Ref) (children : List Ref) : Prop := r = none ∨ r ∈ children

theorem Rel.imp_of_mem {R S : Ref → Ref → Prop} {f g : ChildField} (h : Rel R f g)
    (himp : ∀ a b, Among a f.children → Among b g.children → R a b → S a b) : Rel S f g := by
  have hone : ∀ r : Ref, Among r (ChildField.one r).children := by
    intro r
    cases r with
    | none => exact .inl rfl
    | some n => exact .inr (by simp [ChildField.children])
  cases h with
  | @one a b hab => exact .one (himp a b (hone a) (hone b) hab)
  | many has => exact .many (forall₂_imp_of_mem has fun a b ha hb => himp a b (.inr ha) (.inr hb))

/-- One slot changes, from `old` to `new`; the others stay. -/
def Changed (old new a b : Ref) : Prop := b = a ∨ (a = old ∧ b = new)

theorem replaceFirst_rel {old new : Ref} {rs rs' : List Ref}
    (h : replaceFirst old new rs = some rs') : List.Forall₂ (Changed old new) rs rs' := by
  induction rs generalizing rs' with
  | nil => simp [replaceFirst] at h
  | cons r rs ih =>
    simp only [replaceFirst] at h
    split at h
    · rename_i hr
      simp only [Option.some.injEq] at h
      subst h
      exact .cons (.inr ⟨hr, rfl⟩) (List.forall₂_same.2 fun a _ => .inl rfl)
    · simp only [Option.map_eq_some_iff] at h
      obtain ⟨rs'', hrs, rfl⟩ := h
      exact .cons (.inl rfl) (ih hrs)

theorem replace?_rel {old new : Ref} {f g : ChildField} (h : f.replace? old new = some g) :
    Rel (Changed old new) f g := by
  cases f with
  | one r =>
    simp only [replace?] at h
    split at h
    · rename_i hr
      simp only [Option.some.injEq] at h
      subst h
      exact .one (.inr ⟨hr, rfl⟩)
    · simp at h
  | many rs =>
    simp only [replace?, Option.map_eq_some_iff] at h
    obtain ⟨rs', hrs, rfl⟩ := h
    exact .many (replaceFirst_rel hrs)

theorem replaceIn?_rel {old new : Ref} {fs gs : List ChildField}
    (h : replaceIn? old new fs = some gs) : List.Forall₂ (Rel (Changed old new)) fs gs := by
  induction fs generalizing gs with
  | nil => simp [replaceIn?] at h
  | cons f fs ih =>
    simp only [replaceIn?] at h
    split at h
    · rename_i g hg
      simp only [Option.some.injEq] at h
      subst h
      exact .cons (replace?_rel hg) (List.forall₂_same.2 fun f _ => Rel.refl (fun _ => .inl rfl) f)
    · simp only [Option.map_eq_some_iff] at h
      obtain ⟨gs', hgs, rfl⟩ := h
      exact .cons (Rel.refl (fun _ => .inl rfl) f) (ih hgs)

/-- The filled slots of a list of fields. -/
def childrenOf (fs : List ChildField) : List Ref := fs.flatMap children

end ChildField

namespace NodeData

/-- The payloads differ only in their child slots, which stand in the relation. -/
def Slotwise (R : Ref → Ref → Prop) (x y : NodeData) : Prop :=
  ∃ fs, List.Forall₂ (ChildField.Rel R) x.childFields fs ∧ y = x.withChildFields fs

/-- Child fields of the right shape are read back as they were put in. -/
theorem childFields_withChildFields {R : Ref → Ref → Prop} {x : NodeData} {fs : List ChildField}
    (h : List.Forall₂ (ChildField.Rel R) x.childFields fs) :
    (x.withChildFields fs).childFields = fs := by
  cases x <;> simp only [childFields, List.forall₂_cons_left_iff, List.forall₂_nil_left_iff,
    ChildField.rel_one_iff, ChildField.rel_many_iff] at h <;>
    grind [withChildFields, childFields]

/-- Of two changes of all child fields the later counts. -/
theorem withChildFields_withChildFields {R S : Ref → Ref → Prop} {x : NodeData}
    {fs gs : List ChildField} (hfs : List.Forall₂ (ChildField.Rel R) x.childFields fs)
    (hgs : List.Forall₂ (ChildField.Rel S) fs gs) :
    (x.withChildFields fs).withChildFields gs = x.withChildFields gs := by
  have hxg : List.Forall₂ (ChildField.Rel fun _ _ => True) x.childFields gs := by
    refine ChildField.forall₂_comp ?_ hfs hgs
    exact fun _ _ _ hf hg => hf.comp (fun _ _ _ _ _ => trivial) hg
  clear hgs
  cases x <;> simp only [childFields, List.forall₂_cons_left_iff, List.forall₂_nil_left_iff,
    ChildField.rel_one_iff, ChildField.rel_many_iff] at hfs hxg <;>
    grind [withChildFields]

theorem exists_of_kind {x : NodeData} (h : x.kind = .methodInvocation) :
    ∃ d, x = .methodInvocation d := by
  cases x <;> simp [kind] at h
  exact ⟨_, rfl⟩

theorem block?_of_kind {x : NodeData} (h : x.kind ≠ .block) : x.block? = none := by
  cases x <;> simp_all [kind, block?]

theorem declarations?_of_kind {x : NodeData} (h : x.kind ≠ .variableDeclarations) :
    x.declarations? = none := by
  cases x <;> simp_all [kind, declarations?]

theorem namedVariable?_of_kind {x : NodeData} (h : x.kind ≠ .namedVariable) :
    x.namedVariable? = none := by
  cases x <;> simp_all [kind, namedVariable?]

namespace Slotwise

theorem refl {R : Ref → Ref → Prop} (h : ∀ a, R a a) (x : NodeData) : Slotwise R x x :=
  ⟨x.childFields, List.forall₂_same.2 fun f _ => ChildField.Rel.refl h f,
    (withChildFields_childFields x).symm⟩

theorem mono {R S : Ref → Ref → Prop} (h : ∀ a b, R a b → S a b) {x y : NodeData} :
    Slotwise R x y → Slotwise S x y := by
  rintro ⟨fs, hfs, rfl⟩
  exact ⟨fs, hfs.imp fun _ _ => ChildField.Rel.mono h, rfl⟩

theorem comp {R S T : Ref → Ref → Prop} (h : ∀ a b c, R a b → S b c → T a c) {x y z : NodeData} :
    Slotwise R x y → Slotwise S y z → Slotwise T x z := by
  rintro ⟨fs, hfs, rfl⟩ ⟨gs, hgs, rfl⟩
  rw [childFields_withChildFields hfs] at hgs
  refine ⟨gs, ?_, withChildFields_withChildFields hfs hgs⟩
  refine ChildField.forall₂_comp ?_ hfs hgs
  exact fun _ _ _ hf hg => hf.comp h hg

/-- The children stand in the relation, if it keeps empty slots empty. -/
theorem children {R : Ref → Ref → Prop} (h : ∀ a b, R a b → (a = none ↔ b = none))
    {x y : NodeData} :
    Slotwise R x y → List.Forall₂ R x.children y.children := by
  rintro ⟨fs, hfs, rfl⟩
  unfold NodeData.children
  rw [childFields_withChildFields hfs]
  exact List.rel_flatMap hfs fun _ _ => ChildField.Rel.children h

theorem children_map {σ : NodeId → NodeId} {x y : NodeData}
    (h : Slotwise (fun a b => b = a.map σ) x y) : y.children = x.children.map (Option.map σ) := by
  have hchildren := h.children fun a b hab => by rw [hab, Option.map_eq_none_iff]
  have heq : List.Forall₂ Eq (x.children.map (Option.map σ)) y.children :=
    List.forall₂_map_left_iff.2 (hchildren.imp fun _ _ hab => hab.symm)
  rw [List.forall₂_eq_eq_eq] at heq
  exact heq.symm

/-- Payloads in a relation are in another one that follows from it for the children. -/
theorem imp_of_mem {R S : Ref → Ref → Prop} {x y : NodeData} (h : Slotwise R x y)
    (himp : ∀ a b, ChildField.Among a x.children → ChildField.Among b y.children → R a b → S a b) :
    Slotwise S x y := by
  obtain ⟨fs, hfs, rfl⟩ := h
  have hleft : ∀ f ∈ x.childFields, ∀ a ∈ f.children, a ∈ x.children :=
    fun f hf a ha => List.mem_flatMap.2 ⟨f, hf, ha⟩
  have hright : ∀ f ∈ fs, ∀ b ∈ f.children, b ∈ (x.withChildFields fs).children := by
    intro f hf b hb
    rw [NodeData.children, childFields_withChildFields hfs]
    exact List.mem_flatMap.2 ⟨f, hf, hb⟩
  refine ⟨fs, ChildField.forall₂_imp_of_mem hfs fun f₁ f₂ hf₁ hf₂ hrel => ?_, rfl⟩
  refine hrel.imp_of_mem fun a b ha hb => himp a b ?_ ?_
  · exact ha.imp id (hleft f₁ hf₁ a)
  · exact hb.imp id (hright f₂ hf₂ b)

/-- A payload is in a relation to itself if all that is in its slots is. -/
theorem diag {R : Ref → Ref → Prop} {x : NodeData}
    (h : ∀ a, ChildField.Among a x.children → R a a) :
    Slotwise R x x :=
  (refl (R := (· = ·)) (fun _ => rfl) x).imp_of_mem fun a _ ha _ hab => hab ▸ h a ha

theorem eq {x y : NodeData} (h : Slotwise (· = ·) x y) : y = x := by
  obtain ⟨fs, hfs, rfl⟩ := h
  have hfs' : List.Forall₂ (· = ·) x.childFields fs := by
    refine hfs.imp fun f g hfg => ?_
    cases hfg with
    | one hab => rw [hab]
    | many has =>
      rw [List.forall₂_eq_eq_eq] at has
      rw [has]
  rw [List.forall₂_eq_eq_eq] at hfs'
  rw [← hfs', withChildFields_childFields]

theorem kind {R : Ref → Ref → Prop} {x y : NodeData} (h : Slotwise R x y) : y.kind = x.kind := by
  obtain ⟨fs, hfs, rfl⟩ := h
  cases x <;> simp only [childFields, List.forall₂_cons_left_iff, List.forall₂_nil_left_iff,
    ChildField.rel_one_iff, ChildField.rel_many_iff] at hfs <;>
    grind [withChildFields, NodeData.kind]

theorem ownType {R : Ref → Ref → Prop} {x y : NodeData} (h : Slotwise R x y) :
    y.ownType = x.ownType := by
  obtain ⟨fs, hfs, rfl⟩ := h
  cases x <;> simp only [childFields, List.forall₂_cons_left_iff, List.forall₂_nil_left_iff,
    ChildField.rel_one_iff, ChildField.rel_many_iff] at hfs <;>
    grind [withChildFields, NodeData.ownType]

/-! ### Payload by payload -/

theorem of_identifier {R : Ref → Ref → Prop} {d : Identifier} {y : NodeData}
    (h : Slotwise R (.identifier d) y) : y = .identifier d := by
  obtain ⟨fs, hfs, rfl⟩ := h
  cases hfs
  rfl

theorem of_literal {R : Ref → Ref → Prop} {d : Literal} {y : NodeData}
    (h : Slotwise R (.literal d) y) : y = .literal d := by
  obtain ⟨fs, hfs, rfl⟩ := h
  cases hfs
  rfl

theorem of_classDeclaration {R : Ref → Ref → Prop} {d : ClassDeclaration} {y : NodeData}
    (h : Slotwise R (.classDeclaration d) y) :
    ∃ d', y = .classDeclaration d' ∧ d'.type = d.type := by
  obtain ⟨fs, hfs, rfl⟩ := h
  simp only [childFields, List.forall₂_cons_left_iff, List.forall₂_nil_left_iff,
    ChildField.rel_one_iff, ChildField.rel_many_iff] at hfs
  obtain ⟨_, _, ⟨as, -, rfl⟩, ⟨_, _, ⟨name, -, rfl⟩, ⟨_, _, ⟨body, -, rfl⟩, rfl, rfl⟩, rfl⟩, rfl⟩ :=
    hfs
  exact ⟨_, rfl, rfl⟩

theorem of_methodInvocation {R : Ref → Ref → Prop} {d : MethodInvocation} {y : NodeData}
    (h : Slotwise R (.methodInvocation d) y) :
    ∃ d', y = .methodInvocation d' ∧ d'.type = d.type ∧ R d.name d'.name ∧
      List.Forall₂ R d.arguments d'.arguments := by
  obtain ⟨fs, hfs, rfl⟩ := h
  simp only [childFields, List.forall₂_cons_left_iff, List.forall₂_nil_left_iff,
    ChildField.rel_one_iff, ChildField.rel_many_iff] at hfs
  obtain ⟨_, _, ⟨select, -, rfl⟩,
      ⟨_, _, ⟨name, hn, rfl⟩, ⟨_, _, ⟨as, ha, rfl⟩, rfl, rfl⟩, rfl⟩, rfl⟩ := hfs
  exact ⟨_, rfl, rfl, hn, ha⟩

/-- What differs from a call in its slots is a call of the same method. -/
theorem methodInvocation_right {R : Ref → Ref → Prop} {x : NodeData} {d' : MethodInvocation}
    (h : Slotwise R x (.methodInvocation d')) :
    ∃ d, x = .methodInvocation d ∧ d'.type = d.type ∧ List.Forall₂ R d.arguments d'.arguments := by
  obtain ⟨d, rfl⟩ := exists_of_kind h.kind.symm
  obtain ⟨_, heq, htype, -, harguments⟩ := h.of_methodInvocation
  obtain rfl := NodeData.methodInvocation.inj heq
  exact ⟨d, rfl, htype, harguments⟩

theorem of_annotationUse {R : Ref → Ref → Prop} {d : AnnotationUse} {y : NodeData}
    (h : Slotwise R (.annotationUse d) y) :
    ∃ d', y = .annotationUse d' ∧ R d.annotationType d'.annotationType ∧
      List.Forall₂ R d.arguments d'.arguments := by
  obtain ⟨fs, hfs, rfl⟩ := h
  simp only [childFields, List.forall₂_cons_left_iff, List.forall₂_nil_left_iff,
    ChildField.rel_one_iff, ChildField.rel_many_iff] at hfs
  obtain ⟨_, _, ⟨type, ht, rfl⟩, ⟨_, _, ⟨as, has, rfl⟩, rfl, rfl⟩, rfl⟩ := hfs
  exact ⟨_, rfl, ht, has⟩

theorem of_assignment {R : Ref → Ref → Prop} {d : Assignment} {y : NodeData}
    (h : Slotwise R (.assignment d) y) :
    ∃ d', y = .assignment d' ∧ R d.target d'.target ∧ R d.value d'.value := by
  obtain ⟨fs, hfs, rfl⟩ := h
  simp only [childFields, List.forall₂_cons_left_iff, List.forall₂_nil_left_iff,
    ChildField.rel_one_iff] at hfs
  obtain ⟨_, _, ⟨target, ht, rfl⟩, ⟨_, _, ⟨value, hv, rfl⟩, rfl, rfl⟩, rfl⟩ := hfs
  exact ⟨_, rfl, ht, hv⟩

theorem of_newArray {R : Ref → Ref → Prop} {d : NewArray} {y : NodeData}
    (h : Slotwise R (.newArray d) y) :
    ∃ d', y = .newArray d' ∧ List.Forall₂ R d.elements d'.elements := by
  obtain ⟨fs, hfs, rfl⟩ := h
  simp only [childFields, List.forall₂_cons_left_iff, List.forall₂_nil_left_iff,
    ChildField.rel_many_iff] at hfs
  obtain ⟨_, _, ⟨elements, he, rfl⟩, rfl, rfl⟩ := hfs
  exact ⟨_, rfl, he⟩

theorem of_methodDeclaration {R : Ref → Ref → Prop} {d : MethodDeclaration} {y : NodeData}
    (h : Slotwise R (.methodDeclaration d) y) :
    ∃ d', y = .methodDeclaration d' ∧ d'.type = d.type ∧ R d.name d'.name ∧
      List.Forall₂ R d.parameters d'.parameters := by
  obtain ⟨fs, hfs, rfl⟩ := h
  simp only [childFields, List.forall₂_cons_left_iff, List.forall₂_nil_left_iff,
    ChildField.rel_one_iff, ChildField.rel_many_iff] at hfs
  obtain ⟨_, _, ⟨as, -, rfl⟩, ⟨_, _, ⟨type, -, rfl⟩, ⟨_, _, ⟨name, hn, rfl⟩, ⟨_, _, ⟨ps, hps, rfl⟩,
    ⟨_, _, ⟨body, -, rfl⟩, rfl, rfl⟩, rfl⟩, rfl⟩, rfl⟩, rfl⟩ := hfs
  exact ⟨_, rfl, rfl, hn, hps⟩

theorem of_block {R : Ref → Ref → Prop} {d : Block} {y : NodeData} (h : Slotwise R (.block d) y) :
    ∃ d', y = .block d' ∧ List.Forall₂ R d.statements d'.statements := by
  obtain ⟨fs, hfs, rfl⟩ := h
  simp only [childFields, List.forall₂_cons_left_iff, List.forall₂_nil_left_iff,
    ChildField.rel_many_iff] at hfs
  obtain ⟨_, _, ⟨statements, hs, rfl⟩, rfl, rfl⟩ := hfs
  exact ⟨_, rfl, hs⟩

theorem of_variableDeclarations {R : Ref → Ref → Prop} {d : VariableDeclarations} {y : NodeData}
    (h : Slotwise R (.variableDeclarations d) y) :
    ∃ d', y = .variableDeclarations d' ∧ d'.modifiers = d.modifiers ∧
      List.Forall₂ R d.annotations d'.annotations ∧ R d.typeExpr d'.typeExpr ∧
      List.Forall₂ R d.declared d'.declared := by
  obtain ⟨fs, hfs, rfl⟩ := h
  simp only [childFields, List.forall₂_cons_left_iff, List.forall₂_nil_left_iff,
    ChildField.rel_one_iff, ChildField.rel_many_iff] at hfs
  obtain ⟨_, _, ⟨as, has, rfl⟩,
      ⟨_, _, ⟨type, ht, rfl⟩, ⟨_, _, ⟨declared, hd, rfl⟩, rfl, rfl⟩, rfl⟩, rfl⟩ := hfs
  exact ⟨_, rfl, rfl, has, ht, hd⟩

theorem of_namedVariable {R : Ref → Ref → Prop} {d : NamedVariable} {y : NodeData}
    (h : Slotwise R (.namedVariable d) y) :
    ∃ d', y = .namedVariable d' ∧ R d.name d'.name ∧ R d.initializer d'.initializer := by
  obtain ⟨fs, hfs, rfl⟩ := h
  simp only [childFields, List.forall₂_cons_left_iff, List.forall₂_nil_left_iff,
    ChildField.rel_one_iff] at hfs
  obtain ⟨_, _, ⟨name, hn, rfl⟩, ⟨_, _, ⟨initializer, hi, rfl⟩, rfl, rfl⟩, rfl⟩ := hfs
  exact ⟨_, rfl, hn, hi⟩

theorem of_fieldAccess {R : Ref → Ref → Prop} {d : FieldAccess} {y : NodeData}
    (h : Slotwise R (.fieldAccess d) y) :
    ∃ d', y = .fieldAccess d' ∧ R d.target d'.target ∧ R d.name d'.name := by
  obtain ⟨fs, hfs, rfl⟩ := h
  simp only [childFields, List.forall₂_cons_left_iff, List.forall₂_nil_left_iff,
    ChildField.rel_one_iff] at hfs
  obtain ⟨_, _, ⟨target, ht, rfl⟩, ⟨_, _, ⟨name, hn, rfl⟩, rfl, rfl⟩, rfl⟩ := hfs
  exact ⟨_, rfl, ht, hn⟩

theorem of_forLoop {R : Ref → Ref → Prop} {d : ForLoop} {y : NodeData}
    (h : Slotwise R (.forLoop d) y) :
    ∃ d', y = .forLoop d' ∧ List.Forall₂ R d.initial d'.initial := by
  obtain ⟨fs, hfs, rfl⟩ := h
  simp only [childFields, List.forall₂_cons_left_iff, List.forall₂_nil_left_iff,
    ChildField.rel_one_iff, ChildField.rel_many_iff] at hfs
  obtain ⟨_, _, ⟨initial, hi, rfl⟩, ⟨_, _, ⟨condition, -, rfl⟩, ⟨_, _, ⟨update, -, rfl⟩,
    ⟨_, _, ⟨body, -, rfl⟩, rfl, rfl⟩, rfl⟩, rfl⟩, rfl⟩ := hfs
  exact ⟨_, rfl, hi⟩

theorem of_tryStatement {R : Ref → Ref → Prop} {d : TryStatement} {y : NodeData}
    (h : Slotwise R (.tryStatement d) y) :
    ∃ d', y = .tryStatement d' ∧ List.Forall₂ R d.resources d'.resources := by
  obtain ⟨fs, hfs, rfl⟩ := h
  simp only [childFields, List.forall₂_cons_left_iff, List.forall₂_nil_left_iff,
    ChildField.rel_one_iff, ChildField.rel_many_iff] at hfs
  obtain ⟨_, _, ⟨resources, hr, rfl⟩,
      ⟨_, _, ⟨body, -, rfl⟩, ⟨_, _, ⟨cleanup, -, rfl⟩, rfl, rfl⟩, rfl⟩,
    rfl⟩ := hfs
  exact ⟨_, rfl, hr⟩

theorem of_lambda {R : Ref → Ref → Prop} {d : Lambda} {y : NodeData}
    (h : Slotwise R (.lambda d) y) :
    ∃ d', y = .lambda d' ∧ List.Forall₂ R d.parameters d'.parameters := by
  obtain ⟨fs, hfs, rfl⟩ := h
  simp only [childFields, List.forall₂_cons_left_iff, List.forall₂_nil_left_iff,
    ChildField.rel_one_iff, ChildField.rel_many_iff] at hfs
  obtain ⟨_, _, ⟨parameters, hp, rfl⟩, ⟨_, _, ⟨body, -, rfl⟩, rfl, rfl⟩, rfl⟩ := hfs
  exact ⟨_, rfl, hp⟩

/-! ### What is read from a payload -/

theorem block?_rel {R : Ref → Ref → Prop} {x y : NodeData} (h : Slotwise R x y) :
    Option.Rel (fun d e : Block => List.Forall₂ R d.statements e.statements) x.block? y.block? := by
  cases x with
  | block d =>
    obtain ⟨e, rfl, hstatements⟩ := h.of_block
    exact .some hstatements
  | _ =>
    rw [block?_of_kind (x := y) (by rw [h.kind]; simp [NodeData.kind])]
    exact .none

theorem namedVariable?_rel {R : Ref → Ref → Prop} {x y : NodeData} (h : Slotwise R x y) :
    Option.Rel (fun v w : NamedVariable => R v.name w.name ∧ R v.initializer w.initializer)
      x.namedVariable? y.namedVariable? := by
  cases x with
  | namedVariable v =>
    obtain ⟨w, rfl, hname, hinitializer⟩ := h.of_namedVariable
    exact .some ⟨hname, hinitializer⟩
  | _ =>
    rw [namedVariable?_of_kind (x := y) (by rw [h.kind]; simp [NodeData.kind])]
    exact .none

theorem declarations?_rel {R : Ref → Ref → Prop} {x y : NodeData} (h : Slotwise R x y) :
    Option.Rel (fun d e : VariableDeclarations =>
        e.modifiers = d.modifiers ∧ List.Forall₂ R d.annotations e.annotations ∧
        R d.typeExpr e.typeExpr ∧
          List.Forall₂ R d.declared e.declared)
      x.declarations? y.declarations? := by
  cases x with
  | variableDeclarations d =>
    obtain ⟨e, rfl, hslots⟩ := h.of_variableDeclarations
    exact .some hslots
  | _ =>
    rw [declarations?_of_kind (x := y) (by rw [h.kind]; simp [NodeData.kind])]
    exact .none

end Slotwise

/-! ## Replacing a child -/

theorem slotwise_replaceChild {x y : NodeData} {old new : Ref}
    (h : x.replaceChild old new = some y) :
    Slotwise (ChildField.Changed old new) x y := by
  simp only [replaceChild, Option.map_eq_some_iff] at h
  obtain ⟨fs, hfs, rfl⟩ := h
  exact ⟨fs, ChildField.replaceIn?_rel hfs, rfl⟩

/-- A leaf has no child to replace. -/
theorem replaceChild_literal (d : Literal) (old new : Ref) :
    (NodeData.literal d).replaceChild old new = none := rfl

end NodeData

end JavaRecipes
