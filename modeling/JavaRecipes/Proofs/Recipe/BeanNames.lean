import JavaRecipes.Proofs.Recipe.Reread
import JavaRecipes.Proofs.Types.Names

/-!
The names that renamed beans have in the end. The new name gets to a bean through its attributes,
its factory method or its class, and to qualifiers as it is. Only the way through the class can miss
it: the class is given a simple name with a capital letter, and the bean's name is read back from
that (`renamed_beans`).
-/

namespace JavaRecipes

/-- In the place of the old name there is the new one, and any other string is as it was. -/
def NamedSlot.Renamed (old new : String) (s t : NamedSlot) : Prop :=
  (s.name = some old → t.name = some new) ∧
    ∀ name, s.name = some name → s.aliased = false → name ≠ old → t.name = some name

/-- The old name of a bean is replaced where it came from. -/
inductive NameSource.Renamed (old new : String) : NameSource → NameSource → Prop
  | explicit {ss ts : List NamedSlot} : List.Forall₂ (NamedSlot.Renamed old new) ss ts →
    Renamed old new (.explicit ss) (.explicit ts)
  | implicit : Renamed old new (.implicit old) (.implicit new)

theorem NameSource.Renamed.mem_names {old new : String} {s t : NameSource} (h : s.Renamed old new t)
    (hold : old ∈ s.names) : new ∈ t.names := by
  cases h with
  | implicit => exact List.mem_singleton.2 rfl
  | explicit hslots =>
    simp only [NameSource.names, List.mem_filterMap] at hold ⊢
    obtain ⟨s, hs, hname⟩ := hold
    induction hslots with
    | nil => simp at hs
    | @cons a b _ _ hab _ ih =>
      rcases List.mem_cons.1 hs with rfl | hs
      · exact ⟨b, List.mem_cons_self, hab.1 hname⟩
      · obtain ⟨t, ht, hnew⟩ := ih hs
        exact ⟨t, List.mem_cons_of_mem _ ht, hnew⟩

/-- A file as it comes from a parser that knows its types: a linked tree, with a sound index of
classes, in which the name of a class declaration is a use of the class that spells its simple
name. -/
structure SourceFile.Attributed (f : SourceFile) : Prop where
  linked : f.Linked
  sound : f.types.IndexSound
  keys : f.PlainKeys
  spelled : ∀ n d id name, f.Reaches n → f.store.data? (some n) = some (.classDeclaration d) →
    d.type = some id → f.types.name? id = some name →
    f.store.data? d.name =
      some (.identifier { name := ClassName.simple name, type := some id, variableType := none })

namespace RenameBean

variable {r : RenameBean} {batch : Batch} {i : Nat} {f g : SourceFile}

namespace Readable

/-! ## Values -/

/-- A planned value has the new name in the end, if it had the old one. -/
private theorem namedSlot_renamed (h : r.Readable batch i f g) {a b : AttributeSlot}
    (hslot : r.Planned batch i f (f.store.namedSlot f.types a))
    (hab : r.SlotSettles batch i f g a b) :
    (f.store.namedSlot f.types a).Renamed r.oldName r.newName (g.store.namedSlot g.types b) := by
  constructor
  · intro hname
    have hvalue := stringLiteral?_of_settles h.linked h.file h.renames hslot hname hab
    simp [Store.namedSlot, Store.slotValue, hvalue]
  · intro name hname haliased hne
    have hvalue := Store.slotValue_of_namedSlot hname
    rw [haliased] at hvalue
    obtain ⟨type, hdata⟩ :=
      Store.stringLiteral?_eq_some.1 (Store.stringLiteral?_of_slotValue hvalue)
    obtain ⟨n, hn⟩ := Store.exists_of_data? hdata
    rw [SlotSettles, hn] at hab
    rw [hn] at hdata hvalue
    have hno : ∀ v, .setLiteral (some n) v ∉ (r.editSet batch i f).edits := by
      intro v hv
      obtain ⟨-, slot, hplanned, hold, hstring, hnode⟩ :=
        planned_of_setLiteral ((mem_editSet h.file).1 hv)
      rw [(hplanned.container h.linked.acyclic).1] at hold hstring
      have hvalue' := Store.slotValue_of_namedSlot hold
      rw [hstring, hnode, hvalue] at hvalue'
      simp only [Option.some.injEq, Prod.mk.injEq, and_true] at hvalue'
      exact hne hvalue'
    have hkept := h.eq_of_settles hdata (by simp [NodeData.kind]) (by simp [NodeData.kind]) hab
    have hvalue' : g.store.stringLiteral? b.node = some name := by
      rw [hkept]
      exact Store.stringLiteral?_eq_some.2 ⟨type, h.renames.literal_of_not_mem hno hdata⟩
    simp [Store.namedSlot, Store.slotValue, hvalue']

/-- Planned values of an annotation. -/
private theorem namedSlots_renamed (h : r.Readable batch i f g) {mark : Ref}
    (hmark : ∀ n, mark = some n → f.Reaches n) (keys : List String)
    (hplanned : ∀ slot ∈ f.store.namedSlots f.types mark keys, r.Planned batch i f slot) :
    List.Forall₂ (NamedSlot.Renamed r.oldName r.newName) (f.store.namedSlots f.types mark keys)
      (g.store.namedSlots g.types mark keys) := by
  have hkeys : List.Forall₂ (r.AttributeSettles batch i f g)
      ((f.store.attributes mark).filter fun a => keys.contains a.key)
      ((g.store.attributes mark).filter fun a => keys.contains a.key) := by
    refine List.rel_filter (fun a b hab => ?_) (h.attributes_settle hmark)
    simp only [hab.1]
  have hslots : List.Forall₂ (fun s t => ∃ a b, s = f.store.namedSlot f.types a ∧
      t = g.store.namedSlot g.types b ∧ r.SlotSettles batch i f g a b)
      (f.store.namedSlots f.types mark keys) (g.store.namedSlots g.types mark keys) := by
    refine List.rel_flatMap hkeys fun a b hab => ?_
    rw [List.forall₂_map_left_iff, List.forall₂_map_right_iff]
    exact hab.2.imp fun s t hst => ⟨s, t, rfl, rfl, hst⟩
  refine ChildField.forall₂_imp_of_mem hslots ?_
  rintro s t hs - ⟨a, b, rfl, rfl, hab⟩
  exact h.namedSlot_renamed (hplanned _ hs) hab

/-- Planned values of the first qualifier. -/
private theorem qualifierSlots_renamed (h : r.Readable batch i f g) {n : NodeId} (hn : f.Reaches n)
    {annotations : List Ref} (hsub : ∀ a ∈ annotations, a ∈ f.store.children (some n))
    (hplanned : ∀ slot ∈ f.store.qualifierSlots f.types annotations, r.Planned batch i f slot) :
    List.Forall₂ (NamedSlot.Renamed r.oldName r.newName)
      (f.store.qualifierSlots f.types annotations)
      (g.store.qualifierSlots g.types annotations) := by
  have hmarker : qualifierMarker ∈ markers := by decide
  unfold Store.qualifierSlots at hplanned ⊢
  rw [h.find?_marker hmarker hn hsub]
  cases hfind : AnnotationPattern.find? ⟨qualifierMarker⟩ f.store f.types annotations with
  | none => exact .nil
  | some mark =>
    simp only [hfind] at hplanned
    refine h.namedSlots_renamed (fun m hm => ?_) _ hplanned
    have hmem := hsub _ (List.mem_of_find?_eq_some hfind)
    rw [hm] at hmem
    exact h.linked.reaches hn hmem

/-- The name source of a bean is read from the same place again. -/
private theorem nameSource_after (h : r.Readable batch i f g) {b : FoundBean}
    (hb : b ∈ r.beansOf i f) :
    (∃ ss ts, b.source = .explicit ss ∧ g.store.nameSource g.types b.bean = some (.explicit ts) ∧
      List.Forall₂ (NamedSlot.Renamed r.oldName r.newName) ss ts) ∨
    (∃ name, b.source = .implicit name ∧ f.store.implicitName b.bean = some name ∧
      g.store.nameSource g.types b.bean = (g.store.implicitName b.bean).map .implicit) := by
  obtain ⟨n, hn, hfound⟩ := mem_beansOf.1 hb
  obtain ⟨-, hbean, -, hsource, -⟩ := foundBean?_eq_some hfound
  obtain ⟨hreach, hmarker⟩ := reaches_of_mem_beansOf h.linked.acyclic hb
  obtain ⟨hnode, -⟩ := Store.bean?_eq_some hbean
  rw [← hnode] at hbean
  have hsame := (h.bean?_after hreach hbean).2
  have hannotations : g.store.annotations (some b.bean.node) =
      f.store.annotations (some b.bean.node) := by simp only [Store.annotations, hsame]
  have hsub : ∀ a ∈ f.store.annotations (some b.bean.node),
      a ∈ f.store.children (some b.bean.node) :=
    fun a ha => Store.mem_children_of_mem_annotations ha
  have hbelow : ∀ m, b.bean.marker = some m → f.Reaches m := by
    intro m hm
    rw [hm] at hmarker
    exact h.linked.reaches hreach (hsub _ hmarker)
  unfold Store.nameSource at hsource ⊢
  rw [hannotations]
  cases hq : f.store.qualifierSlots f.types (f.store.annotations (some b.bean.node)) with
  | cons first rest =>
    simp only [hq, Option.some.injEq] at hsource
    have hqualifier := h.qualifierSlots_renamed hreach hsub fun slot hslot => by
      rw [hq] at hslot
      exact .bean hb hsource.symm hslot
    rw [hq] at hqualifier
    left
    obtain ⟨first', rest', -, -, hg⟩ := List.forall₂_cons_left_iff.1 hqualifier
    rw [hg] at hqualifier ⊢
    exact ⟨_, _, hsource.symm, rfl, hqualifier⟩
  | nil =>
    have hqualifier := h.qualifierSlots_renamed hreach hsub fun slot hslot => by simp [hq] at hslot
    rw [hq, List.forall₂_nil_left_iff] at hqualifier
    rw [hqualifier]
    simp only [hq] at hsource ⊢
    cases hs : f.store.namedSlots f.types b.bean.marker [Attribute.valueKey, "name"] with
    | cons first rest =>
      simp only [hs, Option.some.injEq] at hsource
      have hslots := h.namedSlots_renamed hbelow [Attribute.valueKey, "name"] fun slot hslot => by
        rw [hs] at hslot
        exact .bean hb hsource.symm hslot
      rw [hs] at hslots
      left
      obtain ⟨first', rest', -, -, hg⟩ := List.forall₂_cons_left_iff.1 hslots
      rw [hg] at hslots ⊢
      exact ⟨_, _, hsource.symm, rfl, hslots⟩
    | nil =>
      simp only [hs] at hsource
      have hslots := h.namedSlots_renamed hbelow [Attribute.valueKey, "name"]
        fun slot hslot => by simp [hs] at hslot
      rw [hs, List.forall₂_nil_left_iff] at hslots
      rw [hslots]
      obtain ⟨name, hname, hsource⟩ := Option.map_eq_some_iff.1 hsource
      exact .inr ⟨name, hsource.symm, hname, rfl⟩

/-! ## Declarations -/

/-- A factory method gets the new name. -/
private theorem implicitName_factoryMethod (h : r.Readable batch i f g) {b : FoundBean}
    (hb : b ∈ r.beansOf i f) (himplicit : b.source.isImplicit)
    (hkind : b.bean.kind = .factoryMethod) {name : String}
    (hname : f.store.implicitName b.bean = some name) :
    g.store.implicitName b.bean = some r.newName := by
  simp only [Store.implicitName, hkind] at hname ⊢
  obtain ⟨d, hd, hident⟩ := Option.bind_eq_some_iff.1 hname
  obtain ⟨ident, hident, -⟩ := Store.identifierText?_eq_some.1 hident
  obtain ⟨m, hm⟩ := Store.exists_of_data? hident
  have hedit := (mem_editSet h.file).2 (.factoryName hb himplicit hkind hd)
  rw [hm] at hident hedit
  have hreach := (reaches_of_mem_beansOf h.linked.acyclic hb).1
  have hsame := h.data?_of_no_values hreach (Store.method?_eq_some.1 hd) (by simp [NodeData.kind])
    (by simp [NodeData.kind]) rfl
  rw [Store.method?_eq_some.2 hsame, Option.bind_some, hm]
  exact h.renames.identifierText?_of_mem hedit hident

end Readable

/-- A bean that has the old name from its class: the declaration of the class with its type, and the
identifier `m` that spells it. -/
structure NamedByClass (r : RenameBean) (f : SourceFile) (b : FoundBean) (d : ClassDeclaration)
    (id : TypeId) (m : NodeId) : Prop where
  declared : f.store.data? (some b.bean.node) = some (.classDeclaration d)
  beanType : f.store.beanType b.bean = some id
  typeName : f.types.name? id = some b.typeName
  name : d.name = some m
  identifier : f.store.data? (some m) = some (.identifier {
    name := ClassName.simple b.typeName, type := some id, variableType := none })
  spelled : Text.decapitalize (ClassName.simple b.typeName) = r.oldName

private theorem namedByClass_of_mem_beansOf (hf : f.Attributed) {b : FoundBean}
    (hb : b ∈ r.beansOf i f) (himplicit : b.source.isImplicit) (hkind : b.bean.kind = .stereotype) :
    ∃ d id m, r.NamedByClass f b d id m := by
  obtain ⟨n, hn, hfound⟩ := mem_beansOf.1 hb
  obtain ⟨-, hbean, ⟨id, htype, hname⟩, hsource, -, hold, -⟩ := foundBean?_eq_some hfound
  have hreach := (reaches_of_mem_beansOf hf.linked.acyclic hb).1
  have htype' := htype
  simp only [Store.beanType, hkind] at htype'
  obtain ⟨d, hd, hid⟩ := Option.bind_eq_some_iff.1 htype'
  have hdata := Store.class?_eq_some.1 hd
  have hident := hf.spelled _ d id b.typeName hreach hdata hid hname
  obtain ⟨m, hm⟩ := Store.exists_of_data? hident
  have himplied : f.store.implicitName b.bean =
      some (Text.decapitalize (ClassName.simple b.typeName)) := by
    simp [Store.implicitName, hkind, hd, Store.identifierText?, Store.identifier?, hident,
      NodeData.identifier?]
  refine ⟨d, id, m, hdata, htype, hname, hm, hm ▸ hident, ?_⟩
  cases hs : b.source with
  | explicit slots => simp [hs, NameSource.isImplicit] at himplicit
  | implicit name =>
    rw [hs] at hsource hold
    obtain rfl := List.mem_singleton.1 hold
    unfold Store.nameSource at hsource
    split at hsource
    · simp at hsource
    · split at hsource
      · simp at hsource
      · simpa [himplied] using hsource

/-- Of the classes that a run renames, one that a bean gets its old name from is renamed for that,
and not for being named after another one. -/
private theorem eq_ofSimple_of_mem_classes (hbatch : ∀ f ∈ batch, f.Attributed)
    (hold : r.oldName ≠ "") {c : ClassRename} (hc : c ∈ (r.plan batch).classes)
    (hname : Text.decapitalize (ClassName.simple c.source) = r.oldName) :
    c = .ofSimple c.source (Text.capitalize r.newName) := by
  obtain ⟨b, hb, hcb⟩ := List.mem_flatMap.1 (mem_distinct.1 hc)
  obtain ⟨j, f, hf, hb⟩ := mem_findBeans.1 hb
  unfold classesOf at hcb
  split at hcb
  · rename_i hcond
    obtain ⟨himplicit, hkind⟩ := Bool.and_eq_true_iff.1 hcond
    obtain ⟨_, _, _, hclass⟩ := namedByClass_of_mem_beansOf (hbatch f (List.mem_of_getElem? hf)) hb
      himplicit (of_decide_eq_true hkind)
    have hspelled := hclass.spelled
    simp only [List.mem_cons, List.not_mem_nil, or_false] at hcb
    rcases hcb with rfl | rfl
    · rfl
    · -- a name cannot be itself with `Test` at its end
      have hne : ClassName.simple b.typeName ≠ "" := by
        intro hempty
        rw [hempty] at hspelled
        exact hold hspelled.symm
      have hplain : ∀ c ∈ "Test".toList, ClassName.isSeparator c = false := by
        simp [ClassName.isSeparator]
      have htest := @ClassName.simple_append b.typeName _ hplain
      simp only [ClassRename.ofSimple] at hname
      rw [htest, Text.decapitalize_append hne, hspelled] at hname
      have hlength := congrArg String.length hname
      rw [String.length_append] at hlength
      have hfour : "Test".length = 4 := by decide
      omega
  · simp at hcb

/-- The name that a bean gets from its class in the end. Only the class that the index has for the
name is renamed; its bean has the new name with a capital letter, what follows the last separator of
that, and a small letter again. -/
def classBeanName (r : RenameBean) (f : SourceFile) (type : TypeId) (typeName : String) : String :=
  if f.types.lookupClass typeName = some type then
    Text.decapitalize (ClassName.simple (Text.capitalize r.newName))
  else r.oldName

/-- The entries that are renamed are those the index has for their own names. -/
private theorem source_of_mem_classIds (hsound : f.types.IndexSound) {id : TypeId} {c : ClassRename}
    (hc : (id, c) ∈ classIds (r.plan batch) f) {name : String}
    (hname : f.types.name? id = some name) :
    c ∈ (r.plan batch).classes ∧ c.source = name ∧ f.types.lookupClass name = some id := by
  obtain ⟨c', hc', hpair⟩ := List.mem_filterMap.1 hc
  obtain ⟨id', hid, hpair⟩ := Option.map_eq_some_iff.1 hpair
  simp only [Prod.mk.injEq] at hpair
  obtain ⟨rfl, rfl⟩ := hpair
  have heq := TypeTable.name?_of_className? (hsound _ _ hid)
  rw [hname] at heq
  obtain rfl := Option.some.inj heq
  exact ⟨hc', rfl, hid⟩

namespace Readable

/-- The identifier of the class is changed when the index has the class. -/
private theorem identifierText?_className (h : r.Readable batch i f g)
    (hbatch : ∀ f ∈ batch, f.Attributed) (hold : r.oldName ≠ "") {b : FoundBean}
    (hb : b ∈ r.beansOf i f) (himplicit : b.source.isImplicit) (hkind : b.bean.kind = .stereotype)
    {d : ClassDeclaration} {id : TypeId} {m : NodeId} (hclass : r.NamedByClass f b d id m) :
    g.store.identifierText? (some m) = some (if f.types.lookupClass b.typeName = some id then
      ClassName.simple (Text.capitalize r.newName) else ClassName.simple b.typeName) := by
  have hn := (reaches_of_mem_beansOf h.linked.acyclic hb).1
  have hchild : some m ∈ (NodeData.classDeclaration d).children := by
    simp [NodeData.children, NodeData.childFields, ChildField.children, hclass.name]
  by_cases hlookup : f.types.lookupClass b.typeName = some id
  · rw [if_pos hlookup]
    let own : ClassRename := .ofSimple b.typeName (Text.capitalize r.newName)
    have hown : (id, own) ∈ classIds (r.plan batch) f := by
      refine List.mem_filterMap.2 ⟨own, mem_distinct.2 (List.mem_flatMap.2 ⟨b, ?_, ?_⟩), ?_⟩
      · exact mem_findBeans.2 ⟨i, f, h.file, hb⟩
      · simp [classesOf, himplicit, hkind, own]
      · simp [own, ClassRename.ofSimple, hlookup]
    have hm' : m ∈ f.nodes := by
      have hheld := (Store.holds_iff hclass.declared).2 hchild
      exact (SourceFile.mem_nodes_iff h.linked.acyclic m).2 (h.linked.reaches hn hheld)
    cases hfind : (classIds (r.plan batch) f).find? fun p =>
        some id = some p.1 && p.2.oldSimple = ClassName.simple b.typeName with
    | none =>
      have hmiss := List.find?_eq_none.1 hfind _ hown
      simp [own, ClassRename.ofSimple, ClassRename.oldSimple] at hmiss
    | some p =>
      obtain ⟨id', c⟩ := p
      have hfound := List.find?_some hfind
      simp only [Option.some.injEq, Bool.and_eq_true, decide_eq_true_eq] at hfound
      obtain ⟨rfl, -⟩ := hfound
      obtain ⟨hc, hsource, -⟩ :=
        source_of_mem_classIds h.sound (List.mem_of_find?_eq_some hfind) hclass.typeName
      have heq := eq_ofSimple_of_mem_classes hbatch hold hc (by rw [hsource, hclass.spelled])
      have hsimple : c.newSimple = ClassName.simple (Text.capitalize r.newName) := by
        rw [heq, ClassRename.newSimple, ClassRename.ofSimple, ClassName.simple_qualifier_append]
      have hedit : .renameIdentifier (some m) c.newSimple ∈ (r.editSet batch i f).edits := by
        refine (mem_editSet h.file).2 (.className hm' hclass.identifier ?_)
        exact mem_identifierEdits.2 ⟨rfl, _, c, hfind, rfl⟩
      rw [h.renames.identifierText?_of_mem hedit hclass.identifier, hsimple]
  · rw [if_neg hlookup]
    have hno : ∀ text, .renameIdentifier (some m) text ∉ (r.editSet batch i f).edits := by
      intro text hedit
      have hspells := h.className_of_renamed hn hclass.declared hchild (by simp [NodeData.kind])
        (by simp [NodeData.kind]) hclass.identifier hedit
      obtain ⟨-, id', c, hfind, -⟩ := mem_identifierEdits.1 hspells
      have hfound := List.find?_some hfind
      simp only [Option.some.injEq, Bool.and_eq_true, decide_eq_true_eq] at hfound
      obtain ⟨rfl, -⟩ := hfound
      have hmem := List.mem_of_find?_eq_some hfind
      exact hlookup (source_of_mem_classIds h.sound hmem hclass.typeName).2.2
    have hsame := h.renames.identifier_of_not_mem hno hclass.identifier
    simp [Store.identifierText?, Store.identifier?, hsame, NodeData.identifier?]

/-- A class gets the simple name that belongs to the new name, if the run knows it. -/
private theorem implicitName_stereotype (h : r.Readable batch i f g)
    (hbatch : ∀ f ∈ batch, f.Attributed) (hold : r.oldName ≠ "") {b : FoundBean}
    (hb : b ∈ r.beansOf i f) (himplicit : b.source.isImplicit) (hkind : b.bean.kind = .stereotype)
    {type : TypeId} (htype : f.store.beanType b.bean = some type) :
    g.store.implicitName b.bean = some (r.classBeanName f type b.typeName) := by
  have hattributed := hbatch f (List.mem_of_getElem? h.file)
  obtain ⟨d, id, m, hclass⟩ := namedByClass_of_mem_beansOf hattributed hb himplicit hkind
  have hid := hclass.beanType
  rw [htype] at hid
  obtain rfl := Option.some.inj hid
  have hn := (reaches_of_mem_beansOf h.linked.acyclic hb).1
  have htext := h.identifierText?_className hbatch hold hb himplicit hkind hclass
  have hsame := h.data?_of_no_values hn hclass.declared (by simp [NodeData.kind])
    (by simp [NodeData.kind]) rfl
  simp only [Store.implicitName, hkind, Store.class?_eq_some.2 hsame, Option.bind_some, hclass.name,
    htext, Option.map_some, classBeanName]
  split
  · rfl
  · rw [hclass.spelled]

end Readable

/-! ## A run -/

/-- A bean declared in a file, with its type, that passes the filter and has the old name. -/
structure OldNamed (r : RenameBean) (f : SourceFile) (bean : Bean) (type : TypeId)
    (typeName : String) (source : NameSource) : Prop where
  reaches : f.Reaches bean.node
  declares : f.store.bean? f.types bean.node = some bean
  beanType : f.store.beanType bean = some type
  name : f.types.name? type = some typeName
  passes : r.passesFilter typeName
  named : f.store.nameSource f.types bean = some source
  old : r.oldName ∈ source.names

/-- The scan finds it. -/
private theorem OldNamed.mem_beansOf {bean : Bean} {type : TypeId} {typeName : String}
    {source : NameSource} (h : r.OldNamed f bean type typeName source) (hacyclic : f.Acyclic)
    (i : Nat) : ∃ b ∈ r.beansOf i f, b.bean = bean ∧ b.typeName = typeName ∧ b.source = source := by
  have hfound := foundBean?_of i h.declares h.beanType h.name h.named h.passes h.old
  have hnode := (SourceFile.mem_nodes_iff hacyclic bean.node).2 h.reaches
  exact ⟨_, RenameBean.mem_beansOf.2 ⟨bean.node, hnode, hfound⟩, rfl, rfl, rfl⟩

/-- What becomes of the name source of a bean. -/
private theorem Readable.renamed_iff (h : r.Readable batch i f g)
    (hbatch : ∀ f ∈ batch, f.Attributed) (hold : r.oldName ≠ "") {b : FoundBean}
    (hb : b ∈ r.beansOf i f) {type : TypeId} (htype : f.store.beanType b.bean = some type)
    (hnames : r.oldName ∈ b.source.names) :
    (∃ source, g.store.nameSource g.types b.bean = some source ∧
      b.source.Renamed r.oldName r.newName source) ↔
      (b.source.isImplicit → b.bean.kind = .stereotype →
        r.classBeanName f type b.typeName = r.newName) := by
  rcases h.nameSource_after hb with ⟨ss, ts, hs, hg, hslots⟩ | ⟨name, hs, hname, hg⟩
  · rw [hs]
    refine iff_of_true ⟨_, hg, .explicit hslots⟩ fun himplicit => ?_
    simp [NameSource.isImplicit] at himplicit
  · have himplicit : b.source.isImplicit := by simp [hs, NameSource.isImplicit]
    have heq : r.oldName = name := by
      rw [hs] at hnames
      exact List.mem_singleton.1 hnames
    cases hkind : b.bean.kind with
    | factoryMethod =>
      rw [h.implicitName_factoryMethod hb himplicit hkind hname] at hg
      rw [hs, ← heq]
      refine iff_of_true ⟨_, hg, .implicit⟩ fun _ hclass => ?_
      simp at hclass
    | stereotype =>
      rw [h.implicitName_stereotype hbatch hold hb himplicit hkind htype] at hg
      simp only [hg, hs, ← heq, Option.map_some, Option.some.injEq, exists_eq_left',
        NameSource.isImplicit, forall_const]
      constructor
      · intro hrenamed
        generalize r.classBeanName f type b.typeName = text at hrenamed
        cases hrenamed with
        | implicit => rfl
      · intro hgood
        rw [hgood]
        exact .implicit

/-- A run on attributed files leaves every bean that has the old name where it was. In the place of
the old name it has the new one, unless it is named by its class and the new name does not come back
from the class. Qualifiers that refer to beans have the new name in any case. -/
theorem renamed_beans {changes : List FileChange} (hrun : r.run batch = .ok changes)
    (hold : r.oldName ≠ "") (hbatch : ∀ f ∈ batch, f.Attributed) (hspares : r.SparesMarkers batch)
    (hf : batch[i]? = some f) (hg : (merge batch changes)[i]? = some g) :
    (∀ bean type typeName source, r.OldNamed f bean type typeName source →
      g.store.bean? g.types bean.node = some bean ∧
      ((∃ source', g.store.nameSource g.types bean = some source' ∧
          source.Renamed r.oldName r.newName source' ∧ r.newName ∈ source'.names) ↔
        (source.isImplicit → bean.kind = .stereotype →
          r.classBeanName f type typeName = r.newName))) ∧
    ∀ n d type typeName, f.Reaches n → f.store.data? (some n) = some (.variableDeclarations d) →
      f.IsMember n → f.store.typeOf d.typeExpr = some type → f.types.name? type = some typeName →
      r.LinkedType batch typeName →
      g.store.data? (some n) = some (.variableDeclarations d) ∧
        List.Forall₂ (NamedSlot.Renamed r.oldName r.newName)
          (f.store.qualifierSlots f.types d.annotations)
          (g.store.qualifierSlots g.types d.annotations) := by
  have hattributed := hbatch f (List.mem_of_getElem? hf)
  have hac := hattributed.linked.acyclic
  have h : r.Readable batch i f g := {
    file := hf, renames := renames_of_run hrun hf hg, linked := hattributed.linked
    sound := hattributed.sound, keys := hattributed.keys, spares := hspares }
  constructor
  · intro bean type typeName source hbean
    refine ⟨(h.bean?_after hbean.reaches hbean.declares).1, ?_⟩
    obtain ⟨b, hb, rfl, rfl, rfl⟩ := hbean.mem_beansOf hac i
    rw [← h.renamed_iff hbatch hold hb hbean.beanType hbean.old]
    constructor
    · rintro ⟨source', hsource, hrenamed, -⟩
      exact ⟨source', hsource, hrenamed⟩
    · rintro ⟨source', hsource, hrenamed⟩
      exact ⟨source', hsource, hrenamed, hrenamed.mem_names hbean.old⟩
  · intro n d type typeName hn hd hmember htype hname hlinked
    refine ⟨h.data?_of_no_values hn hd (by simp [NodeData.kind]) (by simp [NodeData.kind]) rfl, ?_⟩
    have hsub : ∀ a ∈ d.annotations, a ∈ f.store.children (some n) :=
      fun a ha => Store.mem_children_of_data? hd ha
    refine h.qualifierSlots_renamed hn hsub fun slot hslot => ?_
    refine .reference ((SourceFile.mem_nodes_iff hac n).2 hn) hd
      ((hattributed.linked.isParameterOrField_iff hn).2 hmember) ?_ hslot
    simp [htype, hname, mem_linkedTypes fun f hf => (hbatch f hf).linked.acyclic, hlinked]

/-- A component, and a class with a field that refers to it. -/
def injectedFile : SourceFile :=
  let d : Draft := {}
  let (foo, d) := d.classType "sample.Foo"
  let (mark, d) := d.annotationUse "org.springframework.stereotype.Component" []
  let (component, d) := d.classDeclaration {
    annotations := [some mark], name := "Foo", type := some foo }
  let (user, d) := d.classType "sample.User"
  let (qualifier, d) := d.annotationWithValue qualifierMarker "foo"
  let (field, _, d) := d.declaration [some qualifier] [] (some foo) [{ name := "foo" }]
  let (c, d) := d.classDeclaration {
    name := "User", members := [some field], type := some user }
  d.finish "Foo.java" (some "sample") [] [some component, some c]

def renameTo (newName : String) : RenameBean := { typeFilter := none, oldName := "foo", newName }

def injectedChanges (newName : String) : List FileChange :=
  ((renameTo newName).run [injectedFile]).toOption.getD []

def renamedInjectedFile (newName : String) : SourceFile :=
  (merge [injectedFile] (injectedChanges newName)).headD injectedFile

/-- The component of the file. -/
def injectedBean : Bean := { kind := .stereotype, node := 4, marker := some 1 }

private theorem attributed_injectedFile : injectedFile.Attributed where
  linked := SourceFile.linked_of_forall (by decide +kernel) (by decide +kernel)
  sound := by
    have hindex : injectedFile.types.reindex = injectedFile.types := by decide +kernel
    rw [← hindex]
    exact (TypeTable.indexed_reindex _).sound
  keys := by
    have hnone : ∀ n < injectedFile.store.size,
        injectedFile.store.kind? (some n) ≠ some .assignment := by decide +kernel
    intro n d a e ident _ _ _ he _
    obtain ⟨m, rfl⟩ := Store.exists_of_data? he
    exact absurd (by simp [Store.kind?, he, NodeData.kind]) (hnone m (Store.lt_size_of_data? he))
  spelled := by
    have hall : ∀ n < injectedFile.store.size, ∀ d ∈ injectedFile.store.class? (some n),
        ∀ id ∈ d.type, ∀ name ∈ injectedFile.types.name? id,
          injectedFile.store.data? d.name = some (.identifier
            { name := ClassName.simple name, type := some id, variableType := none }) := by
      decide +kernel
    intro n d id name hn hd hid hname
    exact hall n hn.lt_size d (Store.class?_eq_some.2 hd) id hid name hname

private theorem oldNamed_injectedBean (newName : String) :
    (renameTo newName).OldNamed injectedFile injectedBean 0 "sample.Foo" (.implicit "foo") where
  reaches :=
    (SourceFile.mem_nodes_iff attributed_injectedFile.linked.acyclic 4).1 (by decide +kernel)
  declares := by decide +kernel
  beanType := by decide +kernel
  name := by decide +kernel
  passes := rfl
  named := by decide +kernel
  old := List.mem_singleton.2 rfl

/-- The field of the file. -/
def injectedField : VariableDeclarations :=
  { annotations := [some 7], modifiers := [], typeExpr := some 8, declared := [some 10] }

private theorem isMember_injectedField : injectedFile.Reaches 11 ∧ injectedFile.IsMember 11 := by
  have hac := attributed_injectedFile.linked.acyclic
  have hclass : injectedFile.store.data? (some 14) = some (.classDeclaration {
      annotations := [], modifiers := [], kind := .ordinary, name := some 12, body := some 13
      type := some 2 }) := by decide +kernel
  have hbody : injectedFile.store.data? (some 13) = some (.block { statements := [some 11] }) := by
    decide +kernel
  have hn : injectedFile.Reaches 11 := (SourceFile.mem_nodes_iff hac 11).1 (by decide +kernel)
  have hc : injectedFile.Reaches 14 := (SourceFile.mem_nodes_iff hac 14).1 (by decide +kernel)
  have hheld : injectedFile.store.Holds 14 13 := (Store.holds_iff hclass).2 (by decide)
  exact ⟨hn, .inr ⟨14, _, 13, _, hc, hclass, hheld, hbody, List.mem_singleton.2 rfl⟩⟩

/-- A name that comes back from the class: the bean and the qualifier of the field have it. -/
theorem renamed_beans_lowerCase :
    (∃ source, (renamedInjectedFile "bar").store.nameSource (renamedInjectedFile "bar").types
        injectedBean = some source ∧
      (NameSource.implicit "foo").Renamed "foo" "bar" source ∧ "bar" ∈ source.names) ∧
    List.Forall₂ (NamedSlot.Renamed "foo" "bar")
      (injectedFile.store.qualifierSlots injectedFile.types [some 7])
      ((renamedInjectedFile "bar").store.qualifierSlots (renamedInjectedFile "bar").types
        [some 7]) := by
  have hrun : (renameTo "bar").run [injectedFile] = .ok (injectedChanges "bar") := by decide +kernel
  have hspares : (renameTo "bar").SparesMarkers [injectedFile] := by
    have hclasses : ∀ c ∈ ((renameTo "bar").plan [injectedFile]).classes,
        c.source ∉ markers ∧ c.target ∉ markers := by decide +kernel
    exact hclasses
  have hget : (merge [injectedFile] (injectedChanges "bar"))[0]? =
      some (renamedInjectedFile "bar") := by decide +kernel
  have hall : ∀ f ∈ [injectedFile], f.Attributed := by
    intro f hf
    rw [List.mem_singleton.1 hf]
    exact attributed_injectedFile
  have hlinked : (renameTo "bar").LinkedType [injectedFile] "sample.Foo" :=
    (mem_linkedTypes fun f hf => (hall f hf).linked.acyclic).1 (by decide +kernel)
  have hfield :
      injectedFile.store.data? (some 11) = some (.variableDeclarations injectedField) := by
    decide +kernel
  obtain ⟨hbeans, hreferences⟩ := renamed_beans hrun (by decide) hall hspares rfl hget
  constructor
  · have hbean := hbeans injectedBean 0 "sample.Foo" _ (oldNamed_injectedBean "bar")
    refine hbean.2.2 fun _ _ => ?_
    decide +kernel
  · obtain ⟨hn, hmember⟩ := isMember_injectedField
    exact (hreferences 11 injectedField 0 "sample.Foo" hn hfield hmember (by decide +kernel)
      (by decide +kernel) hlinked).2

/-- The bean of a class has no name with a capital letter, though its qualifiers get one. -/
theorem renamed_beans_upperCase : injectedFile.Attributed ∧
    (renameTo "Bar").OldNamed injectedFile injectedBean 0 "sample.Foo" (.implicit "foo") ∧
    ∃ changes g, (renameTo "Bar").run [injectedFile] = .ok changes ∧
      (merge [injectedFile] changes)[0]? = some g ∧
      g.store.nameSource g.types injectedBean = some (.implicit "bar") ∧
      (g.store.qualifierSlots g.types [some 7]).map (·.name) = [some "Bar"] := by
  refine ⟨attributed_injectedFile, oldNamed_injectedBean "Bar", injectedChanges "Bar",
    renamedInjectedFile "Bar", ?_, ?_, ?_, ?_⟩ <;> decide +kernel

end RenameBean

end JavaRecipes
