import JavaRecipes.Proofs.Recipe.Planned

/-!
Calls and the methods they point to. Renaming a factory bean changes the identifier of a call and
the entry of its method by edits of their own: the identifier when the method was planned by its
key, the entry also when the declaration is a found bean. `callAgrees_iff` tells which calls still
spell the name of their method afterwards.
-/

namespace JavaRecipes

namespace SourceFile

/-- A call spells the name of the method it points to. -/
def CallAgrees (f : SourceFile) (n : NodeId) : Prop :=
  ∀ d id m, f.store.data? (some n) = some (.methodInvocation d) → d.type = some id →
    f.types.methodAt? id = some m → f.store.identifierText? d.name = some m.name

instance (f : SourceFile) (n : NodeId) : Decidable (f.CallAgrees n) :=
  decidable_of_iff
    ((f.store.invocation? (some n)).all fun d => (d.type.bind f.types.methodAt?).all fun m =>
      f.store.identifierText? d.name = some m.name) <| by
    unfold CallAgrees Store.invocation?
    cases f.store.data? (some n) with
    | none => simp
    | some x =>
      cases x with
      | methodInvocation d =>
        simp only [NodeData.invocation?, Option.bind_some, Option.all_some, Option.all_eq_true,
          decide_eq_true_eq, Option.bind_eq_some_iff, Option.some.injEq,
          NodeData.methodInvocation.injEq]
        constructor
        · rintro h d' id m rfl hid hm
          exact h m ⟨id, hid, hm⟩
        · rintro h m ⟨id, hid, hm⟩
          exact h d id m rfl hid hm
      | _ => simp [NodeData.invocation?]

/-- Nothing but the call itself holds its name. -/
def OwnCallNames (f : SourceFile) : Prop :=
  ∀ n d name k, f.Reaches n → f.store.data? (some n) = some (.methodInvocation d) →
    d.name = some name → f.Reaches k → f.store.Holds k name → k = n

theorem Linked.ownCallNames {f : SourceFile} (hf : f.Linked) : f.OwnCallNames := by
  intro n d name k hn hd hname hk hheld
  refine hf.holder_eq hn hk ?_ hheld
  simp [Store.holds_iff hd, NodeData.children, NodeData.childFields,
    ChildField.children, hname]

end SourceFile

namespace RenameBean

/-- The method was found by its key, so that its calls are renamed with it. -/
def CallsRenamed (r : RenameBean) (batch : Batch) (f : SourceFile) (id : TypeId) : Prop :=
  ∃ key, f.types.methodKey? id = some key ∧ key ∈ (r.plan batch).methods

/-- The method is declared in the file by a bean that has its name from it. -/
def FactoryRenamed (r : RenameBean) (i : Nat) (f : SourceFile) (id : TypeId) : Prop :=
  ∃ b ∈ r.beansOf i f, b.source.isImplicit ∧ b.bean.kind = .factoryMethod ∧
    (f.store.method? (some b.bean.node)).bind (·.type) = some id

/-- The new text of an identifier that spells a renamed class. -/
def respelling? (r : RenameBean) (batch : Batch) (f : SourceFile) (name : Ref) : Option String :=
  (f.store.identifier? name).bind fun d =>
    if d.variableType.isSome then none
    else ((classIds (r.plan batch) f).find? fun (id, c) =>
      d.type = some id && c.oldSimple = d.name).map (·.2.newSimple)

variable {r : RenameBean} {batch : Batch} {i : Nat} {f g : SourceFile}

/-! ## The edits of a call -/

/-- No value of an annotation is the name of a call. -/
private theorem not_replaced (hacyclic : f.Acyclic) (hown : f.OwnCallNames) {n : NodeId}
    {d : MethodInvocation} (hn : f.Reaches n)
    (hd : f.store.data? (some n) = some (.methodInvocation d)) {name : NodeId}
    (hname : d.name = some name) (snippet : Snippet) :
    ¬ r.Origin batch i f (.replaceExpression (some name) snippet) := by
  intro h
  obtain ⟨-, slot, hslot, -, -, hnode⟩ := planned_of_replaceExpression h
  obtain ⟨-, c, x, -, hc, hx, hmem⟩ := hslot.container hacyclic
  rw [hnode] at hmem
  have hheld := (Store.holds_iff hx).2 (NodeData.mem_children_of_mem_valueSlots hmem)
  obtain rfl := hown n d name c hn hd hname hc hheld
  rw [hd] at hx
  obtain rfl := Option.some.inj hx
  simp [NodeData.valueSlots] at hmem

/-- The name of a call changes with its method, or as the name of a class. -/
private theorem origin_callName (hacyclic : f.Acyclic) (hown : f.OwnCallNames) {n : NodeId}
    {d : MethodInvocation} {id : TypeId} (hn : f.Reaches n)
    (hd : f.store.data? (some n) = some (.methodInvocation d)) (hid : d.type = some id)
    {name : NodeId} {di : Identifier} (hname : d.name = some name)
    (hdi : f.store.data? (some name) = some (.identifier di)) {text : String} :
    r.Origin batch i f (.renameIdentifier (some name) text) ↔
      (r.CallsRenamed batch f id ∧ text = r.newName) ∨
        r.respelling? batch f d.name = some text := by
  have hholder : ∀ k x, f.Reaches k → f.store.data? (some k) = some x → some name ∈ x.children →
      x = .methodInvocation d := by
    intro k x hk hx hmem
    obtain rfl := hown n d name k hn hd hname hk ((Store.holds_iff hx).2 hmem)
    rw [hd] at hx
    exact (Option.some.inj hx).symm
  have hspell : r.respelling? batch f d.name = some text ↔
      .renameIdentifier (some name) text ∈ identifierEdits (classIds (r.plan batch) f) name di := by
    have hident : f.store.identifier? (some name) = some di := by
      simp [Store.identifier?, hdi, NodeData.identifier?]
    rw [mem_identifierEdits]
    simp only [respelling?, hname, hident, Option.bind_some]
    cases hvar : di.variableType with
    | some v => simp
    | none =>
      simp only [Option.isSome_none, Bool.false_eq_true, if_false, Option.map_eq_some_iff,
        Edit.renameIdentifier.injEq, true_and]
      constructor
      · rintro ⟨⟨id, c⟩, hfind, rfl⟩
        exact ⟨id, c, hfind, rfl⟩
      · rintro ⟨id, c, hfind, rfl⟩
        exact ⟨(id, c), hfind, rfl⟩
  rw [hspell]
  constructor
  · intro h
    rcases origin_renameIdentifier hacyclic h with ⟨k, md, hk, hmd, hmdname⟩ |
      ⟨k, d', id', key, hk, hd', hdname, hid', hkey, hmem, htext⟩ | ⟨k, dk, hk, hdk, hmem⟩
    · have hx := hholder _ _ hk hmd
        (by simp [NodeData.children, NodeData.childFields, ChildField.children, hmdname])
      simp at hx
    · have hx := hholder _ _ hk hd'
        (by simp [NodeData.children, NodeData.childFields, ChildField.children, hdname])
      simp only [NodeData.methodInvocation.injEq] at hx
      subst hx
      rw [hid] at hid'
      obtain rfl := Option.some.inj hid'
      exact .inl ⟨⟨key, hkey, hmem⟩, htext⟩
    · obtain rfl := Option.some.inj hk
      rw [hdi] at hdk
      simp only [Option.some.injEq, NodeData.identifier.injEq] at hdk
      subst hdk
      exact .inr hmem
  · rintro (⟨⟨key, hkey, hmem⟩, rfl⟩ | h)
    · rw [← hname]
      exact .callName ((SourceFile.mem_nodes_iff hacyclic n).2 hn) hd hid hkey hmem
    · have hheld : f.store.Holds n name := by
        simp [Store.holds_iff hd, NodeData.children, NodeData.childFields,
          ChildField.children, hname]
      have hreach : f.Reaches name := .step hn hheld (Store.lt_size_of_data? hdi)
      exact .className ((SourceFile.mem_nodes_iff hacyclic name).2 hreach) hdi h

/-- The entry of a method changes with its declaration, or with its calls. -/
private theorem origin_renameMethodType (hacyclic : f.Acyclic) {n : NodeId} {d : MethodInvocation}
    {id : TypeId} (hn : f.Reaches n) (hd : f.store.data? (some n) = some (.methodInvocation d))
    (hid : d.type = some id) {text : String} :
    r.Origin batch i f (.renameMethodType id text) ↔
      (r.CallsRenamed batch f id ∨ r.FactoryRenamed i f id) ∧ text = r.newName := by
  constructor
  · intro h
    generalize he : Edit.renameMethodType id text = e at h
    cases h with
    | slot _ hmem =>
      obtain ⟨-, rfl⟩ := mem_slotEdits.1 hmem
      split at he <;> simp at he
    | @factoryType b md id' hb himplicit hkind hmd hid' =>
      simp only [Edit.renameMethodType.injEq] at he
      obtain ⟨rfl, rfl⟩ := he
      exact ⟨.inr ⟨b, hb, himplicit, hkind, by simp [hmd, hid']⟩, rfl⟩
    | @callType k d' id' key hk hd' hid' hkey hmem =>
      simp only [Edit.renameMethodType.injEq] at he
      obtain ⟨rfl, rfl⟩ := he
      exact ⟨.inl ⟨key, hkey, hmem⟩, rfl⟩
    | className _ _ hmem =>
      obtain ⟨-, _, _, -, rfl⟩ := mem_identifierEdits.1 hmem
      simp at he
    | constructorName _ _ hmem =>
      obtain ⟨_, _, _, _, _, -, -, -, -, rfl⟩ := mem_constructorEdits hmem
      simp at he
    | _ => simp at he
  · rintro ⟨⟨key, hkey, hmem⟩ | ⟨b, hb, himplicit, hkind, htype⟩, rfl⟩
    · exact .callType ((SourceFile.mem_nodes_iff hacyclic n).2 hn) hd hid hkey hmem
    · obtain ⟨md, hmd, hid'⟩ := Option.bind_eq_some_iff.1 htype
      exact .factoryType hb himplicit hkind hmd hid'

/-! ## Calls after a run -/

/-- A call keeps its method and the node of its name. -/
private theorem call_after (hacyclic : f.Acyclic) (hown : f.OwnCallNames) (hf : batch[i]? = some f)
    (h : (r.editSet batch i f).Renames f g) {n : NodeId} {d : MethodInvocation} (hn : f.Reaches n)
    (hd : f.store.data? (some n) = some (.methodInvocation d)) {name : NodeId}
    (hname : d.name = some name) :
    ∃ d', g.store.data? (some n) = some (.methodInvocation d') ∧ d'.type = d.type ∧
      d'.name = some name := by
  obtain ⟨y, hy, hslots⟩ := h.data?_of_kind hd (by simp [NodeData.kind]) (by simp [NodeData.kind])
  obtain ⟨d', rfl, htype, hrefilled, -⟩ := hslots.of_methodInvocation
  refine ⟨d', hy, htype, ?_⟩
  rcases hrefilled with heq | ⟨value, m, type, hmem, -⟩
  · rw [heq, hname]
  · rw [hname] at hmem
    exact absurd ((mem_editSet hf).1 hmem) (not_replaced hacyclic hown hn hd hname _)

/-- Where every call spells the name of its method, a run that goes through keeps a call so if the
method was planned by its key, or if the text that class renames leave it is the name of the method
entry: the new name for a factory method that is a found bean, else the name it has. -/
theorem callAgrees_iff {changes : List FileChange} (hrun : r.run batch = .ok changes)
    (hacyclic : ∀ f ∈ batch, f.Acyclic) (hown : ∀ f ∈ batch, f.OwnCallNames)
    (hagrees : ∀ f ∈ batch, ∀ n, f.Reaches n → f.CallAgrees n) (hf : batch[i]? = some f)
    (hg : (merge batch changes)[i]? = some g) {n : NodeId} {d : MethodInvocation} {id : TypeId}
    {m : MethodType} (hn : g.Reaches n) (hd : f.store.data? (some n) = some (.methodInvocation d))
    (hid : d.type = some id) (hm : f.types.methodAt? id = some m) :
    g.CallAgrees n ↔
      r.CallsRenamed batch f id ∨
      (r.FactoryRenamed i f id ∧ (r.respelling? batch f d.name).getD m.name = r.newName) ∨
      (¬ r.FactoryRenamed i f id ∧ (r.respelling? batch f d.name).getD m.name = m.name) := by
  have hmem := List.mem_of_getElem? hf
  have hac := hacyclic f hmem
  have ho := hown f hmem
  have hren := renames_of_run hrun hf hg
  have hnf : f.Reaches n := hren.reaches hn (Store.lt_size_of_data? hd)
  obtain ⟨di, hdi, hdname⟩ :=
    Store.identifierText?_eq_some.1 (hagrees f hmem n hnf d id m hd hid hm)
  obtain ⟨name, hname⟩ := Store.exists_of_data? hdi
  rw [hname] at hdi
  obtain ⟨d', hd', htype', hname'⟩ := call_after hac ho hf hren hnf hd hname
  -- the name of the method entry
  have htype : ∀ text, .renameMethodType id text ∈ (r.editSet batch i f).edits ↔
      (r.CallsRenamed batch f id ∨ r.FactoryRenamed i f id) ∧ text = r.newName := by
    intro text
    rw [mem_editSet hf, origin_renameMethodType hac hnf hd hid]
  have hentry := hren.methodAt? (fun text htext => ((htype text).1 htext).2)
  rw [hm, Option.map_some] at hentry
  -- the text of the identifier
  have htext : ∀ text, .renameIdentifier (some name) text ∈ (r.editSet batch i f).edits ↔
      (r.CallsRenamed batch f id ∧ text = r.newName) ∨
      r.respelling? batch f d.name = some text := by
    intro text
    rw [mem_editSet hf, origin_callName hac ho hnf hd hid hname hdi]
  have hagree : g.CallAgrees n ↔ g.store.identifierText? (some name) =
      (g.types.methodAt? id).map (·.name) := by
    constructor
    · intro h
      rw [hentry]
      rw [← hname']
      exact h d' id _ hd' (by rw [htype', hid]) hentry
    · intro h d₁ id₁ m₁ hd₁ hid₁ hm₁
      rw [hd'] at hd₁
      simp only [Option.some.injEq, NodeData.methodInvocation.injEq] at hd₁
      subst hd₁
      rw [htype', hid] at hid₁
      obtain rfl := Option.some.inj hid₁
      rw [hname', h, hm₁]
      rfl
  rw [hagree, hentry]
  by_cases hcalls : r.CallsRenamed batch f id
  · have hnew := hren.identifierText?_of_mem ((htext r.newName).2 (.inl ⟨hcalls, rfl⟩)) hdi
    simp [htype, hcalls, hnew]
  · have hspelled : g.store.identifierText? (some name) =
        some ((r.respelling? batch f d.name).getD m.name) := by
      cases hspell : r.respelling? batch f d.name with
      | some text => exact hren.identifierText?_of_mem ((htext text).2 (.inr hspell)) hdi
      | none =>
        have hno : ∀ text, .renameIdentifier (some name) text ∉ (r.editSet batch i f).edits := by
          intro text hmem'
          rw [htext, hspell] at hmem'
          simp [hcalls] at hmem'
        refine Store.identifierText?_eq_some.2 ⟨di, hren.identifier_of_not_mem hno hdi, ?_⟩
        simpa using hdname
    rw [hspelled]
    by_cases hfactory : r.FactoryRenamed i f id
    · simp [htype, hcalls, hfactory]
    · simp [htype, hcalls, hfactory]

/-- A factory method `foo` and a call of it. -/
def factoryFile : SourceFile :=
  let d : Draft := {}
  let (config, d) := d.classType "sample.Config"
  let (foo, d) := d.classType "sample.Foo"
  let (method, d) := d.methodType {
    declaring := config, name := "foo", returns := some foo, params := [] }
  let (mark, d) := d.annotationUse beanMarker []
  let (factory, d) := d.method {
    annotations := [some mark], returns := some foo, name := "foo", type := some method }
  let (call, d) := d.invoke none method []
  let (body, d) := d.block [some call]
  let (caller, d) := d.method { name := "caller", body := some body }
  let (c, d) := d.classDeclaration {
    name := "Config", members := [some factory, some caller], type := some config }
  d.finish "Config.java" (some "sample") [] [some c]

def factoryRename : RenameBean := { typeFilter := none, oldName := "foo", newName := "bar" }

def factoryChanges : List FileChange := (factoryRename.run [factoryFile]).toOption.getD []

def renamedFactoryFile : SourceFile := (merge [factoryFile] factoryChanges).headD factoryFile

/-- The call of a factory method is renamed with it. -/
theorem callAgrees_factoryFile :
    renamedFactoryFile.Reaches 6 ∧ renamedFactoryFile.CallAgrees 6 := by
  have hbefore : factoryFile.Linked :=
    SourceFile.linked_of_forall (by decide +kernel) (by decide +kernel)
  have hafter : renamedFactoryFile.Linked :=
    SourceFile.linked_of_forall (by decide +kernel) (by decide +kernel)
  have hagrees : ∀ n < factoryFile.store.size, factoryFile.CallAgrees n := by decide +kernel
  have hreach : renamedFactoryFile.Reaches 6 :=
    (SourceFile.mem_nodes_iff hafter.acyclic 6).1 (by decide +kernel)
  have hcall : factoryFile.store.data? (some 6) = some (.methodInvocation
      { select := none, name := some 5, arguments := [], type := some 2 }) := by decide +kernel
  have hmethod : factoryFile.types.methodAt? 2 = some
      { declaring := 0, name := "foo", returns := some 1, params := [] } := by decide +kernel
  have hrun : factoryRename.run [factoryFile] = .ok factoryChanges := by decide +kernel
  have hget : [factoryFile][0]? = some factoryFile := rfl
  have hget' : (merge [factoryFile] factoryChanges)[0]? = some renamedFactoryFile := by
    decide +kernel
  have hkey : factoryRename.CallsRenamed [factoryFile] factoryFile 2 :=
    ⟨{ declaring := "sample.Config", name := "foo", params := [] }, by decide +kernel,
      by decide +kernel⟩
  refine ⟨hreach, (callAgrees_iff hrun ?_ ?_ ?_ hget hget' hreach hcall rfl hmethod).2 (.inl hkey)⟩
  · intro f hf
    rw [List.mem_singleton.1 hf]
    exact hbefore.acyclic
  · intro f hf
    rw [List.mem_singleton.1 hf]
    exact hbefore.ownCallNames
  · intro f hf n hn
    rw [List.mem_singleton.1 hf] at hn ⊢
    exact hagrees n hn.lt_size

/-- A component with a method of its own name, and a call of that. -/
def widgetFile : SourceFile :=
  let d : Draft := {}
  let (widget, d) := d.classType "sample.Widget"
  let (method, d) := d.methodType {
    declaring := widget, name := "Widget", returns := some widget, params := [] }
  let (mark, d) := d.annotationUse "org.springframework.stereotype.Component" []
  let (declared, d) := d.method { returns := some widget, name := "Widget", type := some method }
  let (call, d) := d.invoke none method []
  let (body, d) := d.block [some call]
  let (caller, d) := d.method { name := "caller", body := some body }
  let (c, d) := d.classDeclaration {
    annotations := [some mark], name := "Widget", members := [some declared, some caller]
    type := some widget }
  d.finish "Widget.java" (some "sample") [] [some c]

def widgetRename : RenameBean := { typeFilter := none, oldName := "widget", newName := "gadget" }

/-- Its name is taken for the name of the class, so the call loses its method. -/
theorem callAgrees_widgetFile :
    (widgetFile.Linked ∧ ∀ n, widgetFile.Reaches n → widgetFile.CallAgrees n) ∧
      ∃ changes g, widgetRename.run [widgetFile] = .ok changes ∧
        (merge [widgetFile] changes)[0]? = some g ∧ g.Reaches 6 ∧ ¬ g.CallAgrees 6 := by
  have hlinked : widgetFile.Linked :=
    SourceFile.linked_of_forall (by decide +kernel) (by decide +kernel)
  have hagrees : ∀ n < widgetFile.store.size, widgetFile.CallAgrees n := by decide +kernel
  refine ⟨⟨hlinked, fun n hn => hagrees n hn.lt_size⟩,
    (widgetRename.run [widgetFile]).toOption.getD [],
    (merge [widgetFile] ((widgetRename.run [widgetFile]).toOption.getD [])).headD widgetFile,
    by decide +kernel, by decide +kernel, ?_, by decide +kernel⟩
  refine (SourceFile.mem_nodes_iff (SourceFile.Linked.acyclic ?_) 6).1 (by decide +kernel)
  exact SourceFile.linked_of_forall (by decide +kernel) (by decide +kernel)

end RenameBean

end JavaRecipes
