import JavaRecipes.Proofs.Tree.Reach
import JavaRecipes.Recipe.Bean

/-!
The slots that attribute values sit in: arguments of annotations, right sides of assignments,
elements of arrays. Every value that names a bean is found below its annotation, in such a slot of
its container.
-/

namespace JavaRecipes

/-- The slots of a payload that an attribute value can sit in. -/
def NodeData.valueSlots : NodeData → List Ref
  | .annotationUse d => d.arguments
  | .assignment d => [d.value]
  | .newArray d => d.elements
  | _ => []

theorem NodeData.mem_children_of_mem_valueSlots {x : NodeData} {m : NodeId}
    (h : some m ∈ x.valueSlots) : some m ∈ x.children := by
  cases x <;> simp [valueSlots] at h
  · simp [children, childFields, ChildField.children, h]
  · simp [children, childFields, ChildField.children, ← h]
  · simp [children, childFields, ChildField.children, h]

theorem NodeData.mem_children_of_mem_annotations {x : NodeData} {r : Ref} (h : r ∈ x.annotations) :
    r ∈ x.children := by
  cases x <;> simp [annotations] at h
  all_goals simp [children, childFields, ChildField.children, h]

namespace Store

theorem mem_children_of_data? {s : Store} {n r : Ref} {x : NodeData} (hx : s.data? n = some x)
    (h : r ∈ x.annotations) : r ∈ s.children n := by
  rw [children_eq_of_data? hx]
  exact NodeData.mem_children_of_mem_annotations h

theorem mem_children_of_mem_annotations {s : Store} {n r : Ref} (h : r ∈ s.annotations n) :
    r ∈ s.children n := by
  unfold annotations at h
  cases hx : s.data? n with
  | none => simp [hx] at h
  | some x =>
    simp only [hx, Option.map_some, Option.getD_some] at h
    exact mem_children_of_data? hx h

/-- A slot of the store: its container is below `mark` and has the node among its values. -/
def HasSlot (s : Store) (mark : Ref) (slot : AttributeSlot) : Prop :=
  ∃ c x, slot.container = some c ∧ s.Reaches mark c ∧ s.data? (some c) = some x ∧
    slot.node ∈ x.valueSlots

/-- A value that a container has among its own is in a slot of the container, or of the array it
is. -/
private theorem hasSlot_attributeValue {s : Store} {mark node : Ref} {c : NodeId} {x : NodeData}
    (hc : s.Reaches mark c) (hx : s.data? (some c) = some x) (hnode : node ∈ x.valueSlots)
    {slot : AttributeSlot} (hslot : slot ∈ (s.attributeValue (some c) node).slots) :
    s.HasSlot mark slot := by
  unfold attributeValue at hslot
  split at hslot
  · rename_i array harray
    obtain ⟨n, rfl⟩ := exists_of_data? harray
    simp only [AttributeValue.slots, List.mem_map] at hslot
    obtain ⟨⟨element, i⟩, hmem, rfl⟩ := hslot
    have hheld := (holds_iff hx).2 (NodeData.mem_children_of_mem_valueSlots hnode)
    refine ⟨n, _, rfl, .step hc hheld (lt_size_of_data? harray), harray, ?_⟩
    exact List.fst_mem_of_mem_zipIdx hmem
  · simp only [AttributeValue.slots, List.mem_singleton] at hslot
    subst hslot
    exact ⟨c, x, rfl, hc, hx, hnode⟩

theorem hasSlot_of_mem_attributes {s : Store} {mark : Ref} {a : Attribute} {slot : AttributeSlot}
    (ha : a ∈ s.attributes mark) (hslot : slot ∈ a.value.slots) : s.HasSlot mark slot := by
  unfold attributes at ha
  split at ha
  · simp at ha
  · rename_i d hd
    have hx := annotationUse?_eq_some.1 hd
    obtain ⟨n, rfl⟩ := exists_of_data? hx
    have hn : s.Reaches (some n) n := .start rfl (lt_size_of_data? hx)
    obtain ⟨argument, hargument, hattribute⟩ := List.mem_filterMap.1 ha
    have hvalue : argument ∈ (NodeData.annotationUse d).valueSlots := hargument
    unfold attribute? at hattribute
    split at hattribute
    · simp at hattribute
    · rename_i assign hassign
      obtain ⟨key, -, rfl⟩ := Option.map_eq_some_iff.1 hattribute
      obtain ⟨k, rfl⟩ := exists_of_data? hassign
      have hheld := (holds_iff hx).2 (NodeData.mem_children_of_mem_valueSlots hvalue)
      have hk : s.Reaches (some n) k := .step hn hheld (lt_size_of_data? hassign)
      exact hasSlot_attributeValue hk hassign (by simp [NodeData.valueSlots]) hslot
    · obtain rfl := Option.some.inj hattribute
      exact hasSlot_attributeValue hn hx hvalue hslot

theorem hasSlot_of_mem_namedSlots {s : Store} {types : TypeTable} {mark : Ref} {keys : List String}
    {slot : NamedSlot} (h : slot ∈ s.namedSlots types mark keys) :
    s.HasSlot mark slot.slot ∧ slot = s.namedSlot types slot.slot := by
  obtain ⟨a, ha, hslot⟩ := List.mem_flatMap.1 h
  obtain ⟨inner, hinner, rfl⟩ := List.mem_map.1 hslot
  exact ⟨hasSlot_of_mem_attributes (List.mem_filter.1 ha).1 hinner, rfl⟩

/-- A qualifier's slots are below one of the annotations. -/
theorem hasSlot_of_mem_qualifierSlots {s : Store} {types : TypeTable} {annotations : List Ref}
    {slot : NamedSlot} (h : slot ∈ s.qualifierSlots types annotations) :
    (∃ mark ∈ annotations, s.HasSlot mark slot.slot) ∧ slot = s.namedSlot types slot.slot := by
  unfold qualifierSlots at h
  split at h
  · rename_i mark hmark
    obtain ⟨hslot, heq⟩ := hasSlot_of_mem_namedSlots h
    exact ⟨⟨mark, List.mem_of_find?_eq_some hmark, hslot⟩, heq⟩
  · simp at h

/-! ## Beans -/

/-- The marker of a bean is one of the annotations of its node. -/
theorem bean?_eq_some {s : Store} {types : TypeTable} {n : NodeId} {b : Bean}
    (h : s.bean? types n = some b) : b.node = n ∧ b.marker ∈ s.annotations (some n) := by
  unfold bean? at h
  split at h
  · rename_i d hd
    obtain ⟨marker, hmarker, rfl⟩ := Option.map_eq_some_iff.1 h
    refine ⟨rfl, ?_⟩
    simpa [annotations, hd, NodeData.annotations] using List.mem_of_find?_eq_some hmarker
  · rename_i d hd
    obtain ⟨marker, hmarker, rfl⟩ := Option.map_eq_some_iff.1 h
    obtain ⟨name, -, hfind⟩ := List.exists_of_findSome?_eq_some hmarker
    refine ⟨rfl, ?_⟩
    simpa [annotations, hd, NodeData.annotations] using List.mem_of_find?_eq_some hfind
  · simp at h

/-- The slots that name a bean are below its annotations. -/
theorem hasSlot_of_nameSource {s : Store} {types : TypeTable} {b : Bean} {slots : List NamedSlot}
    (hb : b.marker ∈ s.annotations (some b.node))
    (h : s.nameSource types b = some (.explicit slots)) {slot : NamedSlot} (hslot : slot ∈ slots) :
    (∃ mark ∈ s.annotations (some b.node), s.HasSlot mark slot.slot) ∧
      slot = s.namedSlot types slot.slot := by
  unfold nameSource at h
  split at h
  · rename_i first rest hq
    simp only [Option.some.injEq, NameSource.explicit.injEq] at h
    rw [← h, ← hq] at hslot
    exact hasSlot_of_mem_qualifierSlots hslot
  · split at h
    · rename_i first rest hn
      simp only [Option.some.injEq, NameSource.explicit.injEq] at h
      rw [← h, ← hn] at hslot
      obtain ⟨hhas, heq⟩ := hasSlot_of_mem_namedSlots hslot
      exact ⟨⟨b.marker, hb, hhas⟩, heq⟩
    · obtain ⟨name, -, hname⟩ := Option.map_eq_some_iff.1 h
      simp at hname

end Store

end JavaRecipes
