import JavaRecipes.Proofs.Recipe.NameSlots

/-!
Reading beans again after they were renamed. In a linked tree only values of annotations are
replaced, so declarations and the types of annotations stay as they are; attributes are the same
slot by slot, as long as no class rename has to do with the annotations that beans are known by.
-/

namespace JavaRecipes

/-- Annotations that make beans and name them. -/
def markers : List String := qualifierMarker :: beanMarker :: stereotypes

/-- The names of attributes have no type: they are no uses of classes. -/
def SourceFile.PlainKeys (f : SourceFile) : Prop :=
  ∀ n d a e ident, f.Reaches n → f.store.data? (some n) = some (.annotationUse d) →
    a ∈ d.arguments → f.store.data? a = some (.assignment e) →
    f.store.data? e.target = some (.identifier ident) → ident.type = none

namespace RenameBean

/-- No class rename of a run has to do with the annotations that beans are known by. -/
def SparesMarkers (r : RenameBean) (batch : Batch) : Prop :=
  ∀ c ∈ (r.plan batch).classes, c.source ∉ markers ∧ c.target ∉ markers

/-- A run takes `f` to `g`, and what annotations of `f` say can be read again. -/
structure Readable (r : RenameBean) (batch : Batch) (i : Nat) (f g : SourceFile) : Prop where
  file : batch[i]? = some f
  renames : (r.editSet batch i f).Renames f g
  linked : f.Linked
  sound : f.types.IndexSound
  keys : f.PlainKeys
  spares : r.SparesMarkers batch

variable {r : RenameBean} {batch : Batch} {i : Nat} {f g : SourceFile}

namespace Readable

/-- Only a value is replaced in its holder. -/
theorem mem_valueSlots_of_replaced (h : r.Readable batch i f g) {n m : NodeId} {x : NodeData}
    (hn : f.Reaches n) (hx : f.store.data? (some n) = some x)
    (hmem : some m ∈ x.children) {snippet : Snippet}
    (hedit : .replaceExpression (some m) snippet ∈ (r.editSet batch i f).edits) :
    some m ∈ x.valueSlots := by
  obtain ⟨-, slot, hslot, -, -, hnode⟩ :=
    planned_of_replaceExpression ((mem_editSet h.file).1 hedit)
  obtain ⟨-, c, y, -, hc, hy, hvalue⟩ := hslot.container h.linked.acyclic
  rw [hnode] at hvalue
  have hchild := NodeData.mem_children_of_mem_valueSlots hvalue
  rwa [← h.linked.holder_data?_eq hn hc hx hy hmem hchild]

/-- The slots of a node that is no leaf: all but the values keep what they have. -/
theorem settles_values (h : r.Readable batch i f g) {n : NodeId} {x : NodeData} (hn : f.Reaches n)
    (hx : f.store.data? (some n) = some x) (hl : x.kind ≠ .literal) (hi : x.kind ≠ .identifier) :
    ∃ y, g.store.data? (some n) = some y ∧
      NodeData.Slotwise (fun a b => Settles (r.editSet batch i f).edits f g a b ∧
        (b = a ∨ a ∈ x.valueSlots)) x y := by
  obtain ⟨y, hy, hxy⟩ := h.renames.settles h.linked hn hx
  rw [retouchAll_of_kind _ _ hl hi] at hxy
  refine ⟨y, hy, hxy.imp_of_mem fun a b ha _ hab => ⟨hab, ?_⟩⟩
  cases hab with
  | kept => exact .inl rfl
  | filled hmem _ _ =>
    obtain ⟨m, -, rfl⟩ := h.renames.within _ hmem _ rfl
    refine .inr (h.mem_valueSlots_of_replaced hn hx ?_ hmem)
    simpa [ChildField.Among] using ha

/-- A node without values that is no leaf stays as it is. -/
theorem data?_of_no_values (h : r.Readable batch i f g) {n : NodeId} {x : NodeData}
    (hn : f.Reaches n) (hx : f.store.data? (some n) = some x) (hl : x.kind ≠ .literal)
    (hi : x.kind ≠ .identifier) (hvalues : x.valueSlots = []) :
    g.store.data? (some n) = some x := by
  obtain ⟨y, hy, hxy⟩ := h.settles_values hn hx hl hi
  have heq : NodeData.Slotwise (· = ·) x y := by
    refine hxy.mono fun a b hab => ?_
    rcases hab.2 with heq | hmem
    · exact heq.symm
    · simp [hvalues] at hmem
  rwa [heq.eq] at hy

/-- A slot beside the values keeps its node, since no node sits in two slots. -/
private theorem eq_of_beside (h : r.Readable batch i f g) {n : NodeId} (hn : f.Reaches n)
    {x : NodeData} (hx : f.store.data? (some n) = some x) {first : Ref} {rest : List Ref}
    (hfields : x.childFields = [.one first, .many rest] ∨
      ∃ second, x.childFields = [.one first, .one second] ∧ rest = [second])
    {b : Ref} (hb : Settles (r.editSet batch i f).edits f g first b ∧ (b = first ∨ first ∈ rest)) :
    b = first := by
  rcases hb.2 with heq | hmem
  · exact heq
  rcases hb.1.eq_or_mem with heq | ⟨value, hedit⟩
  · exact heq
  exfalso
  obtain ⟨m, -, rfl⟩ := h.renames.within _ hedit _ rfl
  have honce := h.linked.once m hn
  have hpos := List.count_pos_iff.2 hmem
  rw [Store.children_eq_of_data? hx, NodeData.children] at honce
  rcases hfields with hfields | ⟨second, hfields, rfl⟩
  · rw [hfields] at honce
    simp only [List.flatMap_cons, List.flatMap_nil, ChildField.children, List.count_append,
      List.append_nil, List.count_singleton_self] at honce
    omega
  · rw [hfields, ← List.mem_singleton.1 hmem] at honce
    simp [ChildField.children] at honce

/-! ## Annotations -/

private theorem annotationUse?_of_kind {s : Store} {a : Ref} {x : NodeData}
    (hx : s.data? a = some x) (hkind : x.kind ≠ .annotationUse) : s.annotationUse? a = none := by
  simp only [Store.annotationUse?, hx, Option.bind_some]
  cases x <;> simp [NodeData.kind, NodeData.annotationUse?] at hkind ⊢

theorem annotationUse_after (h : r.Readable batch i f g) {n : NodeId} {d : AnnotationUse}
    (hn : f.Reaches n) (hd : f.store.data? (some n) = some (.annotationUse d)) :
    ∃ d', g.store.data? (some n) = some (.annotationUse d') ∧ d'.annotationType = d.annotationType ∧
      List.Forall₂ (Settles (r.editSet batch i f).edits f g) d.arguments d'.arguments := by
  obtain ⟨y, hy, hxy⟩ := h.settles_values hn hd (by simp [NodeData.kind]) (by simp [NodeData.kind])
  obtain ⟨d', rfl, htype, harguments⟩ := hxy.of_annotationUse
  refine ⟨d', hy, ?_, harguments.imp fun a b hab => hab.1⟩
  exact h.eq_of_beside hn hd (.inl rfl) htype

theorem assignment_after (h : r.Readable batch i f g) {n : NodeId} {d : Assignment}
    (hn : f.Reaches n) (hd : f.store.data? (some n) = some (.assignment d)) :
    ∃ d', g.store.data? (some n) = some (.assignment d') ∧ d'.target = d.target ∧
      Settles (r.editSet batch i f).edits f g d.value d'.value := by
  obtain ⟨y, hy, hxy⟩ := h.settles_values hn hd (by simp [NodeData.kind]) (by simp [NodeData.kind])
  obtain ⟨d', rfl, htarget, hvalue⟩ := hxy.of_assignment
  refine ⟨d', hy, ?_, hvalue.1⟩
  exact h.eq_of_beside hn hd (.inr ⟨d.value, rfl, rfl⟩) htarget

theorem newArray_after (h : r.Readable batch i f g) {n : NodeId} {d : NewArray} (hn : f.Reaches n)
    (hd : f.store.data? (some n) = some (.newArray d)) :
    ∃ d', g.store.data? (some n) = some (.newArray d') ∧
      List.Forall₂ (Settles (r.editSet batch i f).edits f g) d.elements d'.elements := by
  obtain ⟨y, hy, hxy⟩ := h.settles_values hn hd (by simp [NodeData.kind]) (by simp [NodeData.kind])
  obtain ⟨d', rfl, helements⟩ := hxy.of_newArray
  exact ⟨d', hy, helements.imp fun a b hab => hab.1⟩

/-- The name of a marker stays with its type. -/
private theorem name?_marker (h : r.Readable batch i f g) {marker : String}
    (hmarker : marker ∈ markers) (id : TypeId) :
    g.types.name? id = some marker ↔ f.types.name? id = some marker := by
  have hstring : marker ≠ stringClass := by
    rintro rfl
    exact absurd hmarker (by decide)
  refine h.renames.name? h.sound (fun e he source target heq => ?_) hstring id
  subst heq
  have horigin := (mem_editSet h.file).1 he
  generalize heq : Edit.renameClassType source target = e at horigin
  cases horigin with
  | @classType id c hc =>
    simp only [Edit.renameClassType.injEq] at heq
    obtain ⟨rfl, rfl⟩ := heq
    obtain ⟨c', hc', hid⟩ := List.mem_filterMap.1 hc
    obtain ⟨_, -, hpair⟩ := Option.map_eq_some_iff.1 hid
    simp only [Prod.mk.injEq] at hpair
    rw [← hpair.2]
    exact ⟨fun hm => (h.spares c' hc').1 (hm ▸ hmarker),
      fun hm => (h.spares c' hc').2 (hm ▸ hmarker)⟩
  | slot _ hmem =>
    obtain ⟨-, rfl⟩ := mem_slotEdits.1 hmem
    split at heq <;> simp at heq
  | className _ _ hmem =>
    obtain ⟨-, _, _, -, rfl⟩ := mem_identifierEdits.1 hmem
    simp at heq
  | constructorName _ _ hmem =>
    obtain ⟨_, _, _, _, _, -, -, -, -, rfl⟩ := mem_constructorEdits hmem
    simp at heq
  | _ => simp at heq

/-- An annotation is of a marker's type in the end just if it was. -/
theorem holds_marker (h : r.Readable batch i f g) {marker : String} (hmarker : marker ∈ markers)
    {n : NodeId} (hn : f.Reaches n) :
    AnnotationPattern.holds ⟨marker⟩ g.store g.types (some n) =
      AnnotationPattern.holds ⟨marker⟩ f.store f.types (some n) := by
  obtain ⟨x, hx⟩ := Store.exists_data? hn.lt_size
  by_cases hkind : x.kind = .annotationUse
  · cases x <;> simp [NodeData.kind] at hkind
    rename_i d
    obtain ⟨d', hd', htype, -⟩ := h.annotationUse_after hn hx
    have hexpr : g.store.expressionType g.types d.annotationType =
        f.store.expressionType f.types d.annotationType := by
      cases hat : d.annotationType with
      | none => rfl
      | some m =>
        refine h.renames.expressionType (h.linked.lt_size hn ?_)
        simp [Store.holds_iff hx, NodeData.children, NodeData.childFields,
          ChildField.children, hat]
    rw [Bool.eq_iff_iff]
    simp only [AnnotationPattern.holds, Store.annotationName?, Store.annotationUse?_eq_some.2 hd',
      Store.annotationUse?_eq_some.2 hx, Option.bind_some, htype, hexpr, beq_iff_eq]
    cases f.store.expressionType f.types d.annotationType with
    | none => simp
    | some id => exact h.name?_marker hmarker id
  · obtain ⟨y, hy, -⟩ := h.renames.data? hx
    have hy' : y.kind ≠ .annotationUse := by
      rw [h.renames.kind_eq hx hy]
      exact hkind
    simp [AnnotationPattern.holds, Store.annotationName?, annotationUse?_of_kind hx hkind,
      annotationUse?_of_kind hy hy']

/-- The first annotation of a marker's type among those of a declaration. -/
theorem find?_marker (h : r.Readable batch i f g) {marker : String} (hmarker : marker ∈ markers)
    {n : NodeId} (hn : f.Reaches n) {annotations : List Ref}
    (hsub : ∀ a ∈ annotations, a ∈ f.store.children (some n)) :
    AnnotationPattern.find? ⟨marker⟩ g.store g.types annotations =
      AnnotationPattern.find? ⟨marker⟩ f.store f.types annotations := by
  unfold AnnotationPattern.find?
  induction annotations with
  | nil => rfl
  | cons a annotations ih =>
    have ha : AnnotationPattern.holds ⟨marker⟩ g.store g.types a =
        AnnotationPattern.holds ⟨marker⟩ f.store f.types a := by
      cases a with
      | none => rfl
      | some m =>
        exact h.holds_marker hmarker (h.linked.reaches hn (hsub _ List.mem_cons_self))
    have hrest := ih fun a ha => hsub a (List.mem_cons_of_mem _ ha)
    rw [List.find?_cons, List.find?_cons, ha, hrest]

/-- The first stereotype of a class. -/
private theorem findSome?_stereotypes (h : r.Readable batch i f g) {n : NodeId}
    (hn : f.Reaches n) {annotations : List Ref}
    (hsub : ∀ a ∈ annotations, a ∈ f.store.children (some n)) {names : List String}
    (hnames : ∀ name ∈ names, name ∈ markers) :
    (names.findSome? fun name => AnnotationPattern.find? ⟨name⟩ g.store g.types annotations) =
      names.findSome? fun name => AnnotationPattern.find? ⟨name⟩ f.store f.types annotations := by
  induction names with
  | nil => rfl
  | cons name names ih =>
    have hfirst := h.find?_marker (hnames name List.mem_cons_self) hn hsub
    have hrest := ih fun name hname => hnames name (List.mem_cons_of_mem _ hname)
    rw [List.findSome?_cons, List.findSome?_cons, hfirst, hrest]

/-- A declaration stays, and the bean it declares. -/
theorem bean?_after (h : r.Readable batch i f g) {n : NodeId} (hn : f.Reaches n) {b : Bean}
    (hb : f.store.bean? f.types n = some b) :
    g.store.bean? g.types n = some b ∧ g.store.data? (some n) = f.store.data? (some n) := by
  unfold Store.bean? at hb
  split at hb
  · rename_i d hd
    have hsame := h.data?_of_no_values hn hd (by simp [NodeData.kind]) (by simp [NodeData.kind]) rfl
    have hsub : ∀ a ∈ d.annotations, a ∈ f.store.children (some n) :=
      fun a ha => Store.mem_children_of_data? hd ha
    have hmarker : beanMarker ∈ markers := by decide
    have hfind := h.find?_marker hmarker hn hsub
    refine ⟨?_, by rw [hsame, hd]⟩
    simp only [Store.bean?, hsame, hfind]
    exact hb
  · rename_i d hd
    have hsame := h.data?_of_no_values hn hd (by simp [NodeData.kind]) (by simp [NodeData.kind]) rfl
    have hsub : ∀ a ∈ d.annotations, a ∈ f.store.children (some n) :=
      fun a ha => Store.mem_children_of_data? hd ha
    have hmarkers : ∀ name ∈ stereotypes, name ∈ markers := by decide
    have hfind := h.findSome?_stereotypes hn hsub hmarkers
    refine ⟨?_, by rw [hsame, hd]⟩
    simp only [Store.bean?, hsame, hfind]
    exact hb
  · simp at hb

/-! ## Attributes -/

/-- A value that is replaced is a name for a variable. -/
theorem kind_of_replaced (h : r.Readable batch i f g) {n : NodeId} {x : NodeData}
    (hx : f.store.data? (some n) = some x) {snippet : Snippet}
    (hedit : .replaceExpression (some n) snippet ∈ (r.editSet batch i f).edits) :
    x.kind = .identifier ∨ x.kind = .fieldAccess := by
  obtain ⟨-, slot, hslot, hname, haliased, hnode⟩ :=
    planned_of_replaceExpression ((mem_editSet h.file).1 hedit)
  obtain ⟨heq, -⟩ := hslot.container h.linked.acyclic
  rw [heq] at hname haliased
  have hvalue := Store.slotValue_of_namedSlot hname
  rw [haliased, hnode] at hvalue
  have hvar := Store.referencedVariable_of_slotValue hvalue
  simp only [Store.referencedVariable, hx] at hvar
  cases x <;> simp [NodeData.kind] at hvar ⊢

/-- A value of any other kind keeps its slot. -/
theorem eq_of_settles (h : r.Readable batch i f g) {n : NodeId} {x : NodeData}
    (hx : f.store.data? (some n) = some x) (hi : x.kind ≠ .identifier) (ha : x.kind ≠ .fieldAccess)
    {b : Ref} (hb : Settles (r.editSet batch i f).edits f g (some n) b) : b = some n := by
  rcases hb.eq_or_mem with heq | ⟨value, hmem⟩
  · exact heq
  · rcases h.kind_of_replaced hx hmem with hkind | hkind
    · exact absurd hkind hi
    · exact absurd hkind ha

/-- What settles in a slot is of the kind it was, or a literal. -/
theorem kind_of_settles (h : r.Readable batch i f g) {n : NodeId} {x : NodeData}
    (hx : f.store.data? (some n) = some x) {b : Ref}
    (hb : Settles (r.editSet batch i f).edits f g (some n) b) :
    ∃ y, g.store.data? b = some y ∧ (y.kind = x.kind ∨ y.kind = .literal) := by
  cases hb with
  | kept =>
    obtain ⟨y, hy, -⟩ := h.renames.data? hx
    exact ⟨y, hy, .inl (h.renames.kind_eq hx hy)⟩
  | filled _ _ hdata => exact ⟨_, hdata, .inr rfl⟩

end Readable

/-- Two slots whose values settle. -/
def SlotSettles (r : RenameBean) (batch : Batch) (i : Nat) (f g : SourceFile)
    (s t : AttributeSlot) : Prop :=
  Settles (r.editSet batch i f).edits f g s.node t.node

/-- Two attributes of one name whose values settle. -/
def AttributeSettles (r : RenameBean) (batch : Batch) (i : Nat) (f g : SourceFile)
    (a b : Attribute) : Prop :=
  b.key = a.key ∧ List.Forall₂ (r.SlotSettles batch i f g) a.value.slots b.value.slots

private theorem forall₂_zipIdx {R : Ref → Ref → Prop} {as bs : List Ref} (h : List.Forall₂ R as bs)
    (k : Nat) : List.Forall₂ (fun p q => R p.1 q.1) (as.zipIdx k) (bs.zipIdx k) := by
  induction h generalizing k with
  | nil => exact .nil
  | cons hab _ ih => exact .cons hab (ih (k + 1))

private theorem attributeValue_of_kind {s : Store} {a : Ref} {x : NodeData}
    (hx : s.data? a = some x) (hkind : x.kind ≠ .newArray) (container : Ref) :
    s.attributeValue container a = .single { node := a, container, element := none } := by
  simp only [Store.attributeValue, hx]
  cases x <;> simp [NodeData.kind] at hkind ⊢

private theorem attribute?_of_kind {s : Store} {a : Ref} {x : NodeData} (hx : s.data? a = some x)
    (hkind : x.kind ≠ .assignment) (mark : Ref) :
    s.attribute? mark a =
      some { key := Attribute.valueKey, value := s.attributeValue mark a } := by
  simp only [Store.attribute?, hx]
  cases x <;> simp [NodeData.kind] at hkind ⊢

namespace Readable

/-- The slots of a value, which is one slot or an array of them. -/
theorem attributeValue_settles (h : r.Readable batch i f g) {a b : Ref}
    (ha : ∀ n, a = some n → f.Reaches n) (hab : Settles (r.editSet batch i f).edits f g a b)
    (container : Ref) :
    List.Forall₂ (r.SlotSettles batch i f g) (f.store.attributeValue container a).slots
      (g.store.attributeValue container b).slots := by
  cases a with
  | none =>
    have hb := (h.renames.settles_none_iff hab).1 rfl
    subst hb
    exact .cons hab .nil
  | some n =>
    have hn := ha n rfl
    obtain ⟨x, hx⟩ := Store.exists_data? hn.lt_size
    by_cases hkind : x.kind = .newArray
    · have hkept := h.eq_of_settles hx (by simp [hkind]) (by simp [hkind]) hab
      subst hkept
      cases x <;> simp [NodeData.kind] at hkind
      obtain ⟨d', hd', helements⟩ := h.newArray_after hn hx
      simp only [Store.attributeValue, hx, hd', AttributeValue.slots, List.forall₂_map_left_iff,
        List.forall₂_map_right_iff]
      exact forall₂_zipIdx helements 0
    · obtain ⟨y, hy, hykind⟩ := h.kind_of_settles hx hab
      have hy' : y.kind ≠ .newArray := by
        rcases hykind with heq | heq
        · rw [heq]
          exact hkind
        · simp [heq]
      rw [attributeValue_of_kind hx hkind, attributeValue_of_kind hy hy']
      exact .cons hab .nil

/-- An identifier that no method or call holds is changed as the name of a class only. -/
theorem className_of_renamed (h : r.Readable batch i f g) {n m : NodeId} {x : NodeData}
    (hn : f.Reaches n) (hx : f.store.data? (some n) = some x) (hmem : some m ∈ x.children)
    (hd : x.kind ≠ .methodDeclaration) (hc : x.kind ≠ .methodInvocation) {ident : Identifier}
    (hident : f.store.data? (some m) = some (.identifier ident)) {text : String}
    (hedit : .renameIdentifier (some m) text ∈ (r.editSet batch i f).edits) :
    .renameIdentifier (some m) text ∈ identifierEdits (classIds (r.plan batch) f) m ident := by
  rcases origin_renameIdentifier h.linked.acyclic ((mem_editSet h.file).1 hedit) with
    ⟨k, e, hk, he, hname⟩ | ⟨k, e, _, _, hk, he, hname, -⟩ | ⟨k, e, hk, he, hspelled⟩
  · have heq := h.linked.holder_data?_eq hn hk hx he hmem
      (by simp [NodeData.children, NodeData.childFields, ChildField.children, hname])
    exact absurd (by simp [← heq, NodeData.kind]) hd
  · have heq := h.linked.holder_data?_eq hn hk hx he hmem
      (by simp [NodeData.children, NodeData.childFields, ChildField.children, hname])
    exact absurd (by simp [← heq, NodeData.kind]) hc
  · obtain rfl := Option.some.inj hk
    rw [hident] at he
    simp only [Option.some.injEq, NodeData.identifier.injEq] at he
    subst he
    exact hspelled

/-- Attributes keep their names. -/
theorem identifierText?_key (h : r.Readable batch i f g) {n m : NodeId} {d : AnnotationUse}
    {e : Assignment} (hn : f.Reaches n) (hd : f.store.data? (some n) = some (.annotationUse d))
    (hm : some m ∈ d.arguments) (he : f.store.data? (some m) = some (.assignment e)) :
    g.store.identifierText? e.target = f.store.identifierText? e.target := by
  have hreach : f.Reaches m := by
    refine h.linked.reaches hn ?_
    simp [Store.holds_iff hd, NodeData.children, NodeData.childFields,
      ChildField.children, hm]
  cases htarget : e.target with
  | none => rfl
  | some k =>
    have hchild : some k ∈ (NodeData.assignment e).children := by
      simp [NodeData.children, NodeData.childFields, ChildField.children, htarget]
    have hk := (Store.holds_iff he).2 hchild
    obtain ⟨x, hx⟩ := Store.exists_data? (h.linked.lt_size hreach hk)
    by_cases hkind : x.kind = .identifier
    · cases x <;> simp [NodeData.kind] at hkind
      rename_i ident
      have htype := h.keys n d _ e ident hn hd hm he (by rw [htarget, hx])
      have hno : ∀ text, .renameIdentifier (some k) text ∉ (r.editSet batch i f).edits := by
        intro text hedit
        have hspelled := h.className_of_renamed hreach he hchild (by simp [NodeData.kind])
          (by simp [NodeData.kind]) hx hedit
        obtain ⟨-, _, _, hfind, -⟩ := mem_identifierEdits.1 hspelled
        simpa [htype] using List.find?_some hfind
      have hx' := h.renames.identifier_of_not_mem hno hx
      simp only [Store.identifierText?, Store.identifier?, hx, hx']
    · have hnone : ∀ s : Store, ∀ y, s.data? (some k) = some y → y.kind ≠ .identifier →
          s.identifierText? (some k) = none := by
        intro s y hy hy'
        simp only [Store.identifierText?, Store.identifier?, hy, Option.bind_some]
        cases y <;> simp [NodeData.kind, NodeData.identifier?] at hy' ⊢
      obtain ⟨y, hy, -⟩ := h.renames.data? hx
      rw [hnone _ _ hx hkind, hnone _ _ hy (by rw [h.renames.kind_eq hx hy]; exact hkind)]

theorem attribute?_settles (h : r.Readable batch i f g) {n : NodeId} {d : AnnotationUse}
    (hn : f.Reaches n) (hd : f.store.data? (some n) = some (.annotationUse d)) {a b : Ref}
    (ha : a ∈ d.arguments) (hb : Settles (r.editSet batch i f).edits f g a b) :
    Option.Rel (r.AttributeSettles batch i f g) (f.store.attribute? (some n) a)
      (g.store.attribute? (some n) b) := by
  cases a with
  | none =>
    rw [(h.renames.settles_none_iff hb).1 rfl]
    exact .none
  | some m =>
    have hm : f.Reaches m := by
      refine h.linked.reaches hn ?_
      simp [Store.holds_iff hd, NodeData.children, NodeData.childFields,
        ChildField.children, ha]
    obtain ⟨x, hx⟩ := Store.exists_data? hm.lt_size
    by_cases hkind : x.kind = .assignment
    · have hkept := h.eq_of_settles hx (by simp [hkind]) (by simp [hkind]) hb
      subst hkept
      cases x <;> simp [NodeData.kind] at hkind
      rename_i e
      obtain ⟨e', he', htarget, hvalue⟩ := h.assignment_after hm hx
      simp only [Store.attribute?, hx, he', htarget, h.identifierText?_key hn hd ha hx]
      cases f.store.identifierText? e.target with
      | none => exact .none
      | some key =>
        refine .some ⟨rfl, h.attributeValue_settles (fun k hk => h.linked.reaches hm ?_) hvalue _⟩
        simp [Store.holds_iff hx, NodeData.children, NodeData.childFields,
          ChildField.children, hk]
    · obtain ⟨y, hy, hykind⟩ := h.kind_of_settles hx hb
      have hy' : y.kind ≠ .assignment := by
        rcases hykind with heq | heq
        · rw [heq]
          exact hkind
        · simp [heq]
      rw [attribute?_of_kind hx hkind, attribute?_of_kind hy hy']
      refine .some ⟨rfl, h.attributeValue_settles (fun k hk => ?_) hb _⟩
      rwa [← Option.some.inj hk]

/-- The attributes of a reachable annotation. -/
theorem attributes_settle (h : r.Readable batch i f g) {mark : Ref}
    (hmark : ∀ n, mark = some n → f.Reaches n) :
    List.Forall₂ (r.AttributeSettles batch i f g) (f.store.attributes mark)
      (g.store.attributes mark) := by
  cases mark with
  | none => exact .nil
  | some n =>
    have hn := hmark n rfl
    obtain ⟨x, hx⟩ := Store.exists_data? hn.lt_size
    by_cases hkind : x.kind = .annotationUse
    · cases x <;> simp [NodeData.kind] at hkind
      rename_i d
      obtain ⟨d', hd', -, harguments⟩ := h.annotationUse_after hn hx
      simp only [Store.attributes, Store.annotationUse?_eq_some.2 hx,
        Store.annotationUse?_eq_some.2 hd']
      have hpaired := ChildField.forall₂_imp_of_mem harguments fun a b ha _ hab => And.intro ha hab
      exact List.rel_filterMap (fun a b hab => h.attribute?_settles hn hx hab.1 hab.2) hpaired
    · obtain ⟨y, hy, -⟩ := h.renames.data? hx
      have hy' : y.kind ≠ .annotationUse := by
        rw [h.renames.kind_eq hx hy]
        exact hkind
      simp only [Store.attributes, annotationUse?_of_kind hx hkind, annotationUse?_of_kind hy hy']
      exact .nil

end Readable

end RenameBean

end JavaRecipes
