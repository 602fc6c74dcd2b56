import JavaRecipes.Proofs.Recipe.Planned

/-!
What names a bean, told from the nodes of a file alone. An annotation gives values to keys, in
itself, in assignments and in arrays; the values of the first qualifier name a bean, or else those
of its marker, or else its declaration. The readers of a file find exactly these
(`mem_qualifierSlots_iff`, `mem_explicit_iff`, `hasName_iff`, `exists_mem_beansOf_iff`).
-/

namespace JavaRecipes

namespace SourceFile

/-- The node is an annotation of the type with the name. -/
def IsMark (f : SourceFile) (name : String) (mark : Ref) : Prop :=
  ∃ d type, f.store.data? mark = some (.annotationUse d) ∧
    f.store.expressionType f.types d.annotationType = some type ∧ f.types.name? type = some name

/-- The first of the annotations that has the type. -/
def FirstMark (f : SourceFile) (name : String) (annotations : List Ref) (mark : Ref) : Prop :=
  ∃ before after, annotations = before ++ mark :: after ∧ f.IsMark name mark ∧
    ∀ other ∈ before, ¬ f.IsMark name other

/-- An annotation gives a value to a key: an argument is the value itself, or assigns it to a name.
The container is the node that has the value in its slot. -/
inductive Gives (f : SourceFile) (mark : Ref) : (key : String) → (container value : Ref) → Prop
  | bare {d : AnnotationUse} {argument : Ref} {x : NodeData} :
    f.store.data? mark = some (.annotationUse d) → argument ∈ d.arguments →
    f.store.data? argument = some x → (∀ a, x ≠ .assignment a) → Gives f mark "value" mark argument
  | assigned {d : AnnotationUse} {argument : Ref} {a : Assignment} {target : Identifier} :
    f.store.data? mark = some (.annotationUse d) → argument ∈ d.arguments →
    f.store.data? argument = some (.assignment a) →
    f.store.data? a.target = some (.identifier target) → Gives f mark target.name argument a.value

/-- A value is in one slot, but the elements of an array are each in a slot of the array. -/
inductive ValueSlot (f : SourceFile) (mark : Ref) (key : String) : AttributeSlot → Prop
  | single {container node : Ref} : f.Gives mark key container node →
    (∀ array, f.store.data? node ≠ some (.newArray array)) →
    ValueSlot f mark key { node, container, element := none }
  | element {container node : Ref} {array : NewArray} {i : Nat} {r : Ref} :
    f.Gives mark key container node → f.store.data? node = some (.newArray array) →
    array.elements[i]? = some r →
    ValueSlot f mark key { node := r, container := node, element := some i }

/-- A value of the first qualifier. -/
def QualifierSlot (f : SourceFile) (annotations : List Ref) (slot : AttributeSlot) : Prop :=
  ∃ mark, f.FirstMark qualifierMarker annotations mark ∧ f.ValueSlot mark "value" slot

/-- A value that names a bean: of the qualifier, or of the marker if the qualifier has none. -/
inductive NameSlot (f : SourceFile) (annotations : List Ref) (marker : Ref)
    (slot : AttributeSlot) : Prop
  | qualifier : f.QualifierSlot annotations slot → NameSlot f annotations marker slot
  | marker {key : String} : (∀ other, ¬ f.QualifierSlot annotations other) →
    key = "value" ∨ key = "name" → f.ValueSlot marker key slot → NameSlot f annotations marker slot

/-- The value is a string, or a name for a constant that is one. -/
inductive StandsFor (f : SourceFile) (r : Ref) (value : String) : Prop
  | literal {type : Option TypeId} :
    f.store.data? r = some (.literal { value := .string value, type }) → StandsFor f r value
  | constant {id : TypeId} {type : Option TypeId} : f.store.referencedVariable r = some id →
    f.store.data? (f.store.resolve f.types r r) =
      some (.literal { value := .string value, type }) → StandsFor f r value

/-- The marker that makes a declaration a bean: on a method the first one for factory methods, on a
class the first one of the first stereotype that the class has. -/
inductive MarksBean (f : SourceFile) : NodeData → BeanKind → Ref → Prop
  | factoryMethod {d : MethodDeclaration} {marker : Ref} :
    f.FirstMark beanMarker d.annotations marker →
    MarksBean f (.methodDeclaration d) .factoryMethod marker
  | stereotype {d : ClassDeclaration} {marker : Ref} {before after : List String} {name : String} :
    stereotypes = before ++ name :: after → f.FirstMark name d.annotations marker →
    (∀ other ∈ before, ∀ r ∈ d.annotations, ¬ f.IsMark other r) →
    MarksBean f (.classDeclaration d) .stereotype marker

/-- The node carries the type with the name. -/
def HasType (f : SourceFile) (r : Ref) (typeName : String) : Prop :=
  ∃ x type, f.store.data? r = some x ∧ x.ownType = some type ∧ f.types.name? type = some typeName

/-- A factory method makes a bean of its return type; a class is the type of its bean. -/
inductive BeanTyped (f : SourceFile) : NodeData → String → Prop
  | factoryMethod {d : MethodDeclaration} {typeName : String} :
    f.HasType d.returnType typeName → BeanTyped f (.methodDeclaration d) typeName
  | stereotype {d : ClassDeclaration} {type : TypeId} {typeName : String} : d.type = some type →
    f.types.name? type = some typeName → BeanTyped f (.classDeclaration d) typeName

/-- The name that a bean has from its declaration. -/
inductive ImpliedName (f : SourceFile) : NodeData → String → Prop
  | factoryMethod {d : MethodDeclaration} {name : Identifier} :
    f.store.data? d.name = some (.identifier name) →
    ImpliedName f (.methodDeclaration d) name.name
  | stereotype {d : ClassDeclaration} {name : Identifier} :
    f.store.data? d.name = some (.identifier name) →
    ImpliedName f (.classDeclaration d) (Text.decapitalize name.name)

/-- One of the values that name a bean stands for the name; with no such value, the declaration has
the name. -/
inductive HasName (f : SourceFile) (x : NodeData) (marker : Ref) (name : String) : Prop
  | value {slot : AttributeSlot} : f.NameSlot x.annotations marker slot →
    f.StandsFor slot.node name → HasName f x marker name
  | implied : (∀ slot, ¬ f.NameSlot x.annotations marker slot) → f.ImpliedName x name →
    HasName f x marker name

/-- A bean of the file, with the payload that declares it and the name of its type. -/
structure DeclaresBean (f : SourceFile) (b : Bean) (x : NodeData) (typeName : String) : Prop where
  reaches : f.Reaches b.node
  data : f.store.data? (some b.node) = some x
  marked : f.MarksBean x b.kind b.marker
  typed : f.BeanTyped x typeName

variable {f : SourceFile} {mark : Ref} {slot : AttributeSlot}

/-! ## Annotations -/

theorem holds_iff {name : String} :
    AnnotationPattern.holds ⟨name⟩ f.store f.types mark ↔ f.IsMark name mark := by
  simp [AnnotationPattern.holds, Store.annotationName?, IsMark, Option.bind_eq_some_iff,
    Store.annotationUse?_eq_some]

theorem find?_eq_some_iff {name : String} {annotations : List Ref} :
    AnnotationPattern.find? ⟨name⟩ f.store f.types annotations = some mark ↔
      f.FirstMark name annotations mark := by
  simp only [AnnotationPattern.find?, List.find?_eq_some_iff_append, Bool.not_eq_true',
    ← Bool.not_eq_true, holds_iff, FirstMark]
  constructor
  · rintro ⟨hmark, before, after, hlist, hfirst⟩
    exact ⟨before, after, hlist, hmark, hfirst⟩
  · rintro ⟨before, after, hlist, hmark, hfirst⟩
    exact ⟨hmark, before, after, hlist, hfirst⟩

theorem find?_eq_none_iff {name : String} {annotations : List Ref} :
    AnnotationPattern.find? ⟨name⟩ f.store f.types annotations = none ↔
      ∀ r ∈ annotations, ¬ f.IsMark name r := by
  simp [AnnotationPattern.find?, List.find?_eq_none, holds_iff]

/-! ## Values -/

private theorem mem_slots_attributeValue_iff {container node : Ref} :
    slot ∈ (f.store.attributeValue container node).slots ↔
      ((∀ array, f.store.data? node ≠ some (.newArray array)) ∧
        slot = { node, container, element := none }) ∨
      ∃ array i r, f.store.data? node = some (.newArray array) ∧ array.elements[i]? = some r ∧
        slot = { node := r, container := node, element := some i } := by
  unfold Store.attributeValue
  split
  · rename_i array harray
    simp only [AttributeValue.slots, List.mem_map, Prod.exists, List.mem_zipIdx_iff_getElem?]
    constructor
    · rintro ⟨r, i, hr, rfl⟩
      exact .inr ⟨array, i, r, harray, hr, rfl⟩
    · rintro (⟨hno, -⟩ | ⟨array', i, r, harray', hr, rfl⟩)
      · exact absurd harray (hno array)
      · rw [harray] at harray'
        obtain rfl := NodeData.newArray.inj (Option.some.inj harray')
        exact ⟨r, i, hr, rfl⟩
  · rename_i hno
    simp only [AttributeValue.slots, List.mem_singleton]
    constructor
    · exact fun heq => .inl ⟨fun array harray => hno array harray, heq⟩
    · rintro (⟨-, heq⟩ | ⟨array, -, -, harray, -⟩)
      · exact heq
      · exact absurd harray (hno array)

theorem valueSlot_iff {key : String} : f.ValueSlot mark key slot ↔
    ∃ container value, f.Gives mark key container value ∧
      slot ∈ (f.store.attributeValue container value).slots := by
  simp only [mem_slots_attributeValue_iff]
  constructor
  · rintro (⟨hgives, hno⟩ | ⟨hgives, harray, hr⟩)
    · exact ⟨_, _, hgives, .inl ⟨hno, rfl⟩⟩
    · exact ⟨_, _, hgives, .inr ⟨_, _, _, harray, hr, rfl⟩⟩
  · rintro ⟨container, value, hgives, ⟨hno, rfl⟩ | ⟨array, i, r, harray, hr, rfl⟩⟩
    · exact .single hgives hno
    · exact .element hgives harray hr

/-- The attributes of an annotation are the values it gives. -/
theorem mem_attributes_iff {a : Attribute} : a ∈ f.store.attributes mark ↔
    ∃ container value, f.Gives mark a.key container value ∧
      a.value = f.store.attributeValue container value := by
  constructor
  · intro ha
    unfold Store.attributes at ha
    split at ha
    · simp at ha
    · rename_i d hd
      have hmark := Store.annotationUse?_eq_some.1 hd
      obtain ⟨argument, hargument, hattribute⟩ := List.mem_filterMap.1 ha
      unfold Store.attribute? at hattribute
      split at hattribute
      · simp at hattribute
      · rename_i assign hassign
        obtain ⟨key, hkey, rfl⟩ := Option.map_eq_some_iff.1 hattribute
        obtain ⟨target, htarget, rfl⟩ := Store.identifierText?_eq_some.1 hkey
        exact ⟨argument, assign.value, .assigned hmark hargument hassign htarget, rfl⟩
      · rename_i x hno hx
        obtain rfl := Option.some.inj hattribute
        exact ⟨mark, argument, .bare hmark hargument hx fun a hxa => hno a hxa, rfl⟩
  · obtain ⟨key, attributeValue⟩ := a
    rintro ⟨container, value, hgives, rfl⟩
    cases hgives with
    | @bare d argument x hmark hargument hx hno =>
      rw [Store.attributes, Store.annotationUse?_eq_some.2 hmark]
      refine List.mem_filterMap.2 ⟨_, hargument, ?_⟩
      cases x with
      | assignment a => exact absurd rfl (hno a)
      | _ => simp [Store.attribute?, hx, Attribute.valueKey]
    | assigned hmark hargument hassign htarget =>
      rw [Store.attributes, Store.annotationUse?_eq_some.2 hmark]
      refine List.mem_filterMap.2 ⟨_, hargument, ?_⟩
      simp [Store.attribute?, hassign, Store.identifierText?_eq_some.2 ⟨_, htarget, rfl⟩]

theorem mem_namedSlots_iff {keys : List String} {s : NamedSlot} :
    s ∈ f.store.namedSlots f.types mark keys ↔
      (∃ key ∈ keys, f.ValueSlot mark key s.slot) ∧ s = f.store.namedSlot f.types s.slot := by
  simp only [Store.namedSlots, List.mem_flatMap, List.mem_filter, List.contains_iff_mem,
    mem_attributes_iff, List.mem_map, valueSlot_iff]
  constructor
  · rintro ⟨⟨key, _⟩, ⟨⟨container, value, hgives, rfl⟩, hkey⟩, slot, hslot, rfl⟩
    exact ⟨⟨key, hkey, container, value, hgives, hslot⟩, rfl⟩
  · rintro ⟨⟨key, hkey, container, value, hgives, hslot⟩, heq⟩
    exact ⟨⟨key, _⟩, ⟨⟨container, value, hgives, rfl⟩, hkey⟩, s.slot, hslot, heq.symm⟩

theorem mem_qualifierSlots_iff {annotations : List Ref} {s : NamedSlot} :
    s ∈ f.store.qualifierSlots f.types annotations ↔
      f.QualifierSlot annotations s.slot ∧ s = f.store.namedSlot f.types s.slot := by
  unfold Store.qualifierSlots QualifierSlot
  split
  · rename_i mark hmark
    have hfirst := find?_eq_some_iff.1 hmark
    rw [mem_namedSlots_iff]
    constructor
    · rintro ⟨⟨key, hkey, hslot⟩, heq⟩
      obtain rfl := List.mem_singleton.1 hkey
      exact ⟨⟨mark, hfirst, hslot⟩, heq⟩
    · rintro ⟨⟨mark', hfirst', hslot⟩, heq⟩
      rw [← find?_eq_some_iff, hmark] at hfirst'
      obtain rfl := Option.some.inj hfirst'
      exact ⟨⟨_, List.mem_singleton_self _, hslot⟩, heq⟩
  · rename_i hnone
    simp [← find?_eq_some_iff, hnone]

theorem qualifierSlots_eq_nil_iff {annotations : List Ref} :
    f.store.qualifierSlots f.types annotations = [] ↔
      ∀ slot, ¬ f.QualifierSlot annotations slot := by
  simp only [List.eq_nil_iff_forall_not_mem, mem_qualifierSlots_iff, not_and]
  constructor
  · exact fun h slot hslot => h (f.store.namedSlot f.types slot) hslot rfl
  · exact fun h s hslot => absurd hslot (h s.slot)

/-- What a value is read as. -/
theorem map_slotValue_eq_some_iff {r : Ref} {value : String} :
    (f.store.slotValue f.types r).map (·.1) = some value ↔ f.StandsFor r value := by
  unfold Store.slotValue
  constructor
  · intro h
    split at h
    · rename_i value' hvalue
      obtain rfl := Option.some.inj h
      obtain ⟨type, hdata⟩ := Store.stringLiteral?_eq_some.1 hvalue
      exact .literal hdata
    · split at h
      · simp at h
      · rename_i hvariable
        obtain ⟨id, hid⟩ := Option.ne_none_iff_exists'.1
          (mt Option.isNone_iff_eq_none.2 hvariable)
        simp only at h
        split at h
        · simp at h
        · rw [Option.map_map] at h
          obtain ⟨value', hvalue, rfl⟩ := Option.map_eq_some_iff.1 h
          obtain ⟨type, hdata⟩ := Store.stringLiteral?_eq_some.1 hvalue
          exact .constant hid hdata
  · rintro (hdata | ⟨hid, hdata⟩)
    · simp [Store.stringLiteral?_eq_some.2 ⟨_, hdata⟩]
    · -- a reference is no string itself, so its constant is another node
      have hnone : f.store.stringLiteral? r = none := by
        rw [Option.eq_none_iff_forall_ne_some]
        intro value' hvalue
        obtain ⟨type, hr⟩ := Store.stringLiteral?_eq_some.1 hvalue
        simp [Store.referencedVariable, hr] at hid
      have hvalue := Store.stringLiteral?_eq_some.2 ⟨_, hdata⟩
      have hne : f.store.resolve f.types r r ≠ r := by
        intro heq
        rw [heq, hnone] at hvalue
        cases hvalue
      simp [hnone, hid, hne, hvalue]

/-! ## Beans -/

variable {b : Bean} {x : NodeData} {typeName name : String}

theorem bean?_eq_some_iff {n : NodeId} : f.store.bean? f.types n = some b ↔
    b.node = n ∧ ∃ x, f.store.data? (some n) = some x ∧ f.MarksBean x b.kind b.marker := by
  obtain ⟨kind, node, marker⟩ := b
  unfold Store.bean?
  constructor
  · intro h
    split at h
    · rename_i d hd
      obtain ⟨marker', hfind, heq⟩ := Option.map_eq_some_iff.1 h
      simp only [Bean.mk.injEq] at heq
      obtain ⟨rfl, rfl, rfl⟩ := heq
      exact ⟨rfl, _, hd, .factoryMethod (find?_eq_some_iff.1 hfind)⟩
    · rename_i d hd
      obtain ⟨marker', hfind, heq⟩ := Option.map_eq_some_iff.1 h
      simp only [Bean.mk.injEq] at heq
      obtain ⟨rfl, rfl, rfl⟩ := heq
      obtain ⟨before, name, after, hlist, hfind, hnone⟩ := List.findSome?_eq_some_iff.1 hfind
      exact ⟨rfl, _, hd, .stereotype hlist (find?_eq_some_iff.1 hfind)
        fun other hother => find?_eq_none_iff.1 (hnone other hother)⟩
    · simp at h
  · rintro ⟨rfl, x, hx, hmarks⟩
    cases hmarks with
    | factoryMethod hfirst => simp [hx, find?_eq_some_iff.2 hfirst]
    | stereotype hlist hfirst hnone =>
      have hfind := List.findSome?_eq_some_iff.2 ⟨_, _, _, hlist, find?_eq_some_iff.2 hfirst,
        fun other hother => find?_eq_none_iff.2 (hnone other hother)⟩
      simp [hx, hfind]

/-- A method is a bean by its first marker for factory methods. -/
theorem MarksBean.firstMark {d : MethodDeclaration} {kind : BeanKind} {marker : Ref}
    (h : f.MarksBean (.methodDeclaration d) kind marker) :
    f.FirstMark beanMarker d.annotations marker := by
  cases h with
  | factoryMethod hfirst => exact hfirst

theorem typeOf_iff {r : Ref} :
    (∃ type, f.store.typeOf r = some type ∧ f.types.name? type = some typeName) ↔
      f.HasType r typeName := by
  simp only [Store.typeOf, HasType, Option.bind_eq_some_iff]
  constructor
  · rintro ⟨type, ⟨x, hx, htype⟩, hname⟩
    exact ⟨x, type, hx, htype, hname⟩
  · rintro ⟨x, type, hx, htype, hname⟩
    exact ⟨type, ⟨x, hx, htype⟩, hname⟩

section

variable (hx : f.store.data? (some b.node) = some x) (hmarks : f.MarksBean x b.kind b.marker)

include hx hmarks

theorem beanTyped_iff : f.BeanTyped x typeName ↔
    ∃ type, f.store.beanType b = some type ∧ f.types.name? type = some typeName := by
  obtain ⟨kind, node, marker⟩ := b
  cases hmarks with
  | @factoryMethod d _ _ =>
    simp only [Store.beanType, Store.method?_eq_some.2 hx, Option.bind_some, typeOf_iff]
    exact ⟨fun | .factoryMethod h => h, .factoryMethod⟩
  | @stereotype d _ _ _ _ _ _ _ =>
    simp only [Store.beanType, Store.class?_eq_some.2 hx, Option.bind_some]
    constructor
    · rintro (_ | ⟨htype, hname⟩)
      exact ⟨_, htype, hname⟩
    · rintro ⟨type, htype, hname⟩
      exact .stereotype htype hname

theorem implicitName_eq_some_iff : f.store.implicitName b = some name ↔ f.ImpliedName x name := by
  obtain ⟨kind, node, marker⟩ := b
  cases hmarks with
  | @factoryMethod d _ _ =>
    simp only [Store.implicitName, Store.method?_eq_some.2 hx, Option.bind_some,
      Store.identifierText?_eq_some]
    constructor
    · rintro ⟨target, htarget, rfl⟩
      exact .factoryMethod htarget
    · rintro ⟨htarget⟩
      exact ⟨_, htarget, rfl⟩
  | @stereotype d _ _ _ _ _ _ _ =>
    simp only [Store.implicitName, Store.class?_eq_some.2 hx, Option.bind_some,
      Option.map_eq_some_iff, Store.identifierText?_eq_some]
    constructor
    · rintro ⟨_, ⟨target, htarget, rfl⟩, rfl⟩
      exact .stereotype htarget
    · rintro (_ | htarget)
      exact ⟨_, ⟨_, htarget, rfl⟩, rfl⟩

end

/-- The slots that name a bean are read first; where there are none, the declaration is. -/
theorem exists_nameSource_eq (hx : f.store.data? (some b.node) = some x) :
    ∃ slots : List NamedSlot, (∀ s, s ∈ slots ↔ f.NameSlot x.annotations b.marker s.slot ∧
        s = f.store.namedSlot f.types s.slot) ∧
      f.store.nameSource f.types b = if slots = [] then (f.store.implicitName b).map .implicit
        else some (.explicit slots) := by
  have hann : f.store.annotations (some b.node) = x.annotations := by
    simp [Store.annotations, hx]
  unfold Store.nameSource
  rw [hann]
  cases hq : f.store.qualifierSlots f.types x.annotations with
  | cons first rest =>
    refine ⟨first :: rest, fun s => ?_, by simp⟩
    have hmem : ∀ s ∈ f.store.qualifierSlots f.types x.annotations,
        f.QualifierSlot x.annotations s.slot := fun s hs => (mem_qualifierSlots_iff.1 hs).1
    rw [← hq, mem_qualifierSlots_iff]
    constructor
    · rintro ⟨hslot, heq⟩
      exact ⟨.qualifier hslot, heq⟩
    · rintro ⟨hslot | ⟨hnone, -, -⟩, heq⟩
      · exact ⟨hslot, heq⟩
      · exact absurd (hmem first (by simp [hq])) (hnone first.slot)
  | nil =>
    have hnone := qualifierSlots_eq_nil_iff.1 hq
    refine ⟨f.store.namedSlots f.types b.marker [Attribute.valueKey, "name"], fun s => ?_, ?_⟩
    · rw [mem_namedSlots_iff]
      refine and_congr_left fun _ => ⟨?_, ?_⟩
      · rintro ⟨key, hkey, hslot⟩
        exact .marker hnone (by simpa [Attribute.valueKey] using hkey) hslot
      · rintro (hslot | ⟨-, hkey, hslot⟩)
        · exact absurd hslot (hnone s.slot)
        · exact ⟨_, by simpa [Attribute.valueKey] using hkey, hslot⟩
    · cases f.store.namedSlots f.types b.marker [Attribute.valueKey, "name"] with
      | nil => simp
      | cons first rest => simp

theorem mem_explicit_iff (hx : f.store.data? (some b.node) = some x) {slots : List NamedSlot}
    (h : f.store.nameSource f.types b = some (.explicit slots)) {s : NamedSlot} :
    s ∈ slots ↔ f.NameSlot x.annotations b.marker s.slot ∧
      s = f.store.namedSlot f.types s.slot := by
  obtain ⟨slots', hslots, heq⟩ := exists_nameSource_eq hx
  rw [heq] at h
  split at h
  · obtain ⟨_, -, himplicit⟩ := Option.map_eq_some_iff.1 h
    cases himplicit
  · simp only [Option.some.injEq, NameSource.explicit.injEq] at h
    rw [← h, hslots]

theorem nameSource_eq_implicit_iff (hx : f.store.data? (some b.node) = some x)
    (hmarks : f.MarksBean x b.kind b.marker) :
    f.store.nameSource f.types b = some (.implicit name) ↔
      (∀ slot, ¬ f.NameSlot x.annotations b.marker slot) ∧ f.ImpliedName x name := by
  obtain ⟨slots, hslots, heq⟩ := exists_nameSource_eq hx
  rw [heq, ← implicitName_eq_some_iff hx hmarks]
  have hnil : slots = [] ↔ ∀ slot, ¬ f.NameSlot x.annotations b.marker slot := by
    simp only [List.eq_nil_iff_forall_not_mem, hslots, not_and]
    exact ⟨fun h slot hslot => h (f.store.namedSlot f.types slot) hslot rfl,
      fun h s hslot => absurd hslot (h s.slot)⟩
  rw [← hnil]
  split
  · rename_i hempty
    rw [Option.map_eq_some_iff]
    constructor
    · rintro ⟨_, himplied, heq⟩
      exact ⟨hempty, NameSource.implicit.inj heq ▸ himplied⟩
    · exact fun ⟨_, himplied⟩ => ⟨name, himplied, rfl⟩
  · rename_i hempty
    constructor
    · intro h
      cases h
    · exact fun h => absurd h.1 hempty

theorem hasName_iff (hx : f.store.data? (some b.node) = some x)
    (hmarks : f.MarksBean x b.kind b.marker) : f.HasName x b.marker name ↔
    ∃ source, f.store.nameSource f.types b = some source ∧ name ∈ source.names := by
  constructor
  · rintro (⟨hslot, hvalue⟩ | ⟨hnone, himplied⟩)
    · obtain ⟨slots, hslots, heq⟩ := exists_nameSource_eq hx
      have hmem := (hslots (f.store.namedSlot f.types _)).2 ⟨hslot, rfl⟩
      rw [if_neg (List.ne_nil_of_mem hmem)] at heq
      exact ⟨_, heq, List.mem_filterMap.2 ⟨_, hmem, map_slotValue_eq_some_iff.2 hvalue⟩⟩
    · exact ⟨_, (nameSource_eq_implicit_iff hx hmarks).2 ⟨hnone, himplied⟩,
        List.mem_singleton_self _⟩
  · rintro ⟨source, hsource, hname⟩
    cases source with
    | explicit slots =>
      obtain ⟨s, hs, hold⟩ := List.mem_filterMap.1 hname
      obtain ⟨hslot, heq⟩ := (mem_explicit_iff hx hsource).1 hs
      rw [heq] at hold
      exact .value hslot (map_slotValue_eq_some_iff.1 hold)
    | implicit implied =>
      obtain rfl := List.mem_singleton.1 hname
      obtain ⟨hnone, himplied⟩ := (nameSource_eq_implicit_iff hx hmarks).1 hsource
      exact .implied hnone himplied

end SourceFile

namespace RenameBean

/-- The type name is that of the filter, if there is one. -/
def Passes (r : RenameBean) (typeName : String) : Prop :=
  ∀ filter, r.typeFilter = some filter → typeName = filter

variable {r : RenameBean} {i : Nat} {f : SourceFile}

theorem passesFilter_iff {typeName : String} : r.passesFilter typeName ↔ r.Passes typeName := by
  unfold passesFilter Passes
  cases r.typeFilter with
  | none => simp
  | some filter =>
    simp only [beq_iff_eq, Option.some.injEq, forall_eq']
    exact eq_comm

/-- The beans that are found in a file are those that pass the filter and have the old name. -/
theorem exists_mem_beansOf_iff (i : Nat) (hf : f.Acyclic) {bean : Bean} {typeName : String} :
    (∃ b ∈ r.beansOf i f, b.bean = bean ∧ b.typeName = typeName) ↔
      ∃ x, f.DeclaresBean bean x typeName ∧ r.Passes typeName ∧
        f.HasName x bean.marker r.oldName := by
  constructor
  · rintro ⟨b, hb, rfl, rfl⟩
    obtain ⟨n, hn, hfound⟩ := mem_beansOf.1 hb
    obtain ⟨-, hbean, htyped, hsource, hpasses, hold, -⟩ := foundBean?_eq_some hfound
    obtain ⟨rfl, x, hx, hmarks⟩ := SourceFile.bean?_eq_some_iff.1 hbean
    exact ⟨x, ⟨(SourceFile.mem_nodes_iff hf _).1 hn, hx, hmarks,
        (SourceFile.beanTyped_iff hx hmarks).2 htyped⟩, passesFilter_iff.1 hpasses,
      (SourceFile.hasName_iff hx hmarks).2 ⟨_, hsource, hold⟩⟩
  · rintro ⟨x, ⟨hn, hx, hmarks, htyped⟩, hpasses, hnamed⟩
    have hbean := SourceFile.bean?_eq_some_iff.2 ⟨rfl, x, hx, hmarks⟩
    obtain ⟨type, htype, hname⟩ := (SourceFile.beanTyped_iff hx hmarks).1 htyped
    obtain ⟨source, hsource, hold⟩ := (SourceFile.hasName_iff hx hmarks).1 hnamed
    have hfound := foundBean?_of i hbean htype hname hsource (passesFilter_iff.2 hpasses) hold
    exact ⟨_, mem_beansOf.2 ⟨_, (SourceFile.mem_nodes_iff hf _).2 hn, hfound⟩, rfl, rfl⟩

end RenameBean

end JavaRecipes
