import JavaRecipes.Proofs.Edit.Entries
import JavaRecipes.Proofs.Recipe.Changes
import JavaRecipes.Proofs.Recipe.Values
import JavaRecipes.Recipe.RenameBean

/-!
Which edits renaming a bean plans for a file, kind by kind, and where each of them comes from.
-/

namespace JavaRecipes

theorem mem_distinct {α : Type} [DecidableEq α] {xs : List α} {x : α} :
    x ∈ distinct xs ↔ x ∈ xs := by
  have h : ∀ acc : List α, x ∈ xs.foldl (fun acc x => if x ∈ acc then acc else acc ++ [x]) acc ↔
      x ∈ acc ∨ x ∈ xs := by
    induction xs with
    | nil => simp
    | cons a xs ih =>
      intro acc
      rw [List.foldl_cons, ih]
      split
      · rename_i hmem
        simp only [List.mem_cons]
        constructor
        · rintro (h | h)
          · exact .inl h
          · exact .inr (.inr h)
        · rintro (h | rfl | h)
          · exact .inl h
          · exact .inl hmem
          · exact .inr h
      · simp [or_assoc]
  rw [distinct, h]
  simp

theorem nodup_distinct {α : Type} [DecidableEq α] (xs : List α) : (distinct xs).Nodup := by
  have h : ∀ acc : List α, acc.Nodup →
      (xs.foldl (fun acc x => if x ∈ acc then acc else acc ++ [x]) acc).Nodup := by
    induction xs with
    | nil => exact fun acc hacc => hacc
    | cons a xs ih =>
      intro acc hacc
      refine ih _ ?_
      beta_reduce
      split
      · exact hacc
      · rename_i hmem
        refine List.nodup_append.2 ⟨hacc, by simp, ?_⟩
        rintro x hx y hy rfl
        exact hmem (List.mem_singleton.1 hy ▸ hx)
  exact h [] List.nodup_nil

namespace RenameBean

/-! ## Beans -/

/-- What it takes for a node to be found. -/
theorem foundBean?_eq_some {r : RenameBean} {i : Nat} {f : SourceFile} {n : NodeId} {b : FoundBean}
    (h : r.foundBean? i f n = some b) :
    b.file = i ∧ f.store.bean? f.types n = some b.bean ∧
      (∃ type, f.store.beanType b.bean = some type ∧ f.types.name? type = some b.typeName) ∧
      f.store.nameSource f.types b.bean = some b.source ∧ r.passesFilter b.typeName ∧
      r.oldName ∈ b.source.names ∧
      b.key = ((f.store.method? (some n)).bind (·.type)).bind f.types.methodKey? := by
  unfold foundBean? at h
  simp only [Option.bind_eq_bind, Option.bind_eq_some_iff] at h
  obtain ⟨bean, hbean, type, htype, typeName, hname, source, hsource, h⟩ := h
  split at h
  · rename_i hcond
    obtain rfl := Option.some.inj h
    simp only [Bool.and_eq_true, List.contains_iff_mem] at hcond
    exact ⟨rfl, hbean, ⟨type, htype, hname⟩, hsource, hcond.1, hcond.2, rfl⟩
  · simp at h

/-- A bean that passes the filter and has the old name is found. -/
theorem foundBean?_of {r : RenameBean} (i : Nat) {f : SourceFile} {n : NodeId} {bean : Bean}
    {type : TypeId} {typeName : String} {source : NameSource}
    (hbean : f.store.bean? f.types n = some bean) (htype : f.store.beanType bean = some type)
    (hname : f.types.name? type = some typeName)
    (hsource : f.store.nameSource f.types bean = some source) (hfilter : r.passesFilter typeName)
    (hold : r.oldName ∈ source.names) :
    r.foundBean? i f n = some {
      file := i, bean, typeName, source
      key := ((f.store.method? (some n)).bind (·.type)).bind f.types.methodKey? } := by
  simp [foundBean?, hbean, htype, hname, hsource, hfilter, hold]

theorem mem_beansOf {r : RenameBean} {i : Nat} {f : SourceFile} {b : FoundBean} :
    b ∈ r.beansOf i f ↔ ∃ n ∈ f.nodes, r.foundBean? i f n = some b := by
  simp [beansOf, List.mem_filterMap]

theorem mem_findBeans {r : RenameBean} {batch : Batch} {b : FoundBean} :
    b ∈ r.findBeans batch ↔ ∃ i f, batch[i]? = some f ∧ b ∈ r.beansOf i f := by
  simp only [findBeans, List.mem_flatMap, Prod.exists, List.mem_zipIdx_iff_getElem?]
  constructor
  · rintro ⟨f, i, hf, hb⟩
    exact ⟨i, f, hf, hb⟩
  · rintro ⟨i, f, hf, hb⟩
    exact ⟨f, i, hf, hb⟩

/-- The beans that the plan has for a file are those found in it. -/
theorem mem_plan_beans {r : RenameBean} {batch : Batch} {i : Nat} {f : SourceFile}
    (hf : batch[i]? = some f) {b : FoundBean} :
    b ∈ (r.plan batch).beans ∧ b.file = i ↔ b ∈ r.beansOf i f := by
  have hfile : ∀ {j g}, b ∈ r.beansOf j g → b.file = j := by
    intro j g hb
    obtain ⟨n, -, hn⟩ := mem_beansOf.1 hb
    exact (foundBean?_eq_some hn).1
  constructor
  · rintro ⟨hb, rfl⟩
    obtain ⟨j, g, hg, hb⟩ := mem_findBeans.1 hb
    obtain rfl := hfile hb
    rw [hf] at hg
    obtain rfl := Option.some.inj hg
    exact hb
  · intro hb
    exact ⟨mem_findBeans.2 ⟨i, f, hf, hb⟩, hfile hb⟩

/-- A bean is declared at a reachable node, and its marker is an annotation there. -/
theorem reaches_of_mem_beansOf {r : RenameBean} {i : Nat} {f : SourceFile} (hacyclic : f.Acyclic)
    {b : FoundBean} (hb : b ∈ r.beansOf i f) :
    f.Reaches b.bean.node ∧ b.bean.marker ∈ f.store.annotations (some b.bean.node) := by
  obtain ⟨n, hn, hfound⟩ := mem_beansOf.1 hb
  obtain ⟨-, hbean, -⟩ := foundBean?_eq_some hfound
  obtain ⟨hnode, hmarker⟩ := Store.bean?_eq_some hbean
  rw [hnode]
  exact ⟨(SourceFile.mem_nodes_iff hacyclic n).1 hn, hmarker⟩

theorem nameSource_of_mem_beansOf {r : RenameBean} {i : Nat} {f : SourceFile} {b : FoundBean}
    (hb : b ∈ r.beansOf i f) : f.store.nameSource f.types b.bean = some b.source := by
  obtain ⟨n, -, hfound⟩ := mem_beansOf.1 hb
  obtain ⟨-, -, -, hsource, -⟩ := foundBean?_eq_some hfound
  exact hsource

/-! ## Where edits come from -/

/-- A value whose old name is to be changed: of a bean found in the file, or of a qualifier that
refers to a bean. -/
inductive Planned (r : RenameBean) (batch : Batch) (i : Nat) (f : SourceFile) : NamedSlot → Prop
  | bean {b : FoundBean} {slots : List NamedSlot} {slot : NamedSlot} : b ∈ r.beansOf i f →
    b.source = .explicit slots → slot ∈ slots → Planned r batch i f slot
  | reference {n : NodeId} {d : VariableDeclarations} {slot : NamedSlot} : n ∈ f.nodes →
    f.store.data? (some n) = some (.variableDeclarations d) → f.store.isParameterOrField (some n) →
    ((f.store.typeOf d.typeExpr).bind f.types.name?).any (r.plan batch).linkedTypes.contains →
    slot ∈ f.store.qualifierSlots f.types d.annotations → Planned r batch i f slot

/-- The origin of each edit of a file. -/
inductive Origin (r : RenameBean) (batch : Batch) (i : Nat) (f : SourceFile) : Edit → Prop
  | slot {slot : NamedSlot} {e : Edit} : r.Planned batch i f slot → e ∈ r.slotEdits slot →
    Origin r batch i f e
  | factoryName {b : FoundBean} {d : MethodDeclaration} : b ∈ r.beansOf i f → b.source.isImplicit →
    b.bean.kind = .factoryMethod → f.store.method? (some b.bean.node) = some d →
    Origin r batch i f (.renameIdentifier d.name r.newName)
  | factoryType {b : FoundBean} {d : MethodDeclaration} {id : TypeId} : b ∈ r.beansOf i f →
    b.source.isImplicit → b.bean.kind = .factoryMethod →
    f.store.method? (some b.bean.node) = some d → d.type = some id →
    Origin r batch i f (.renameMethodType id r.newName)
  | classType {id : TypeId} {c : ClassRename} : (id, c) ∈ classIds (r.plan batch) f →
    Origin r batch i f (.renameClassType c.source c.target)
  | callName {n : NodeId} {d : MethodInvocation} {id : TypeId} {key : MethodKey} : n ∈ f.nodes →
    f.store.data? (some n) = some (.methodInvocation d) → d.type = some id →
    f.types.methodKey? id = some key → key ∈ (r.plan batch).methods →
    Origin r batch i f (.renameIdentifier d.name r.newName)
  | callType {n : NodeId} {d : MethodInvocation} {id : TypeId} {key : MethodKey} : n ∈ f.nodes →
    f.store.data? (some n) = some (.methodInvocation d) → d.type = some id →
    f.types.methodKey? id = some key → key ∈ (r.plan batch).methods →
    Origin r batch i f (.renameMethodType id r.newName)
  | className {n : NodeId} {d : Identifier} {e : Edit} : n ∈ f.nodes →
    f.store.data? (some n) = some (.identifier d) →
    e ∈ identifierEdits (classIds (r.plan batch) f) n d → Origin r batch i f e
  | constructorName {n : NodeId} {d : ClassDeclaration} {e : Edit} : n ∈ f.nodes →
    f.store.data? (some n) = some (.classDeclaration d) →
    e ∈ constructorEdits (classIds (r.plan batch) f) f.store d → Origin r batch i f e

private theorem mem_beanEdits {r : RenameBean} {batch : Batch} {i : Nat} {f : SourceFile}
    {b : FoundBean} (hb : b ∈ r.beansOf i f) {e : Edit} (he : e ∈ r.beanEdits f b) :
    r.Origin batch i f e := by
  unfold beanEdits at he
  split at he
  · rename_i slots hsource
    obtain ⟨slot, hslot, he⟩ := List.mem_flatMap.1 he
    exact .slot (.bean hb hsource hslot) he
  · simp at he
  · rename_i name hsource hkind
    have himplicit : b.source.isImplicit := by simp [hsource, NameSource.isImplicit]
    split at he
    · simp at he
    · rename_i d hd
      rcases List.mem_cons.1 he with rfl | he
      · exact .factoryName hb himplicit hkind hd
      · simp only [Option.mem_toList, Option.map_eq_some_iff] at he
        obtain ⟨id, hid, rfl⟩ := he
        exact .factoryType hb himplicit hkind hd hid

private theorem mem_nodeEdits {r : RenameBean} {batch : Batch} {i : Nat}
    {f : SourceFile} {n : NodeId} (hn : n ∈ f.nodes) {e : Edit}
    (he : e ∈ r.nodeEdits (r.plan batch) f n) :
    r.Origin batch i f e := by
  unfold nodeEdits at he
  split at he
  · rename_i d hd
    unfold callEdits at he
    split at he
    · simp at he
    · rename_i id hid
      split at he
      · rename_i hkey
        obtain ⟨key, hkey, hmem⟩ := (Option.any_eq_true _ _).1 hkey
        simp only [List.contains_iff_mem] at hmem
        simp only [List.mem_cons, List.not_mem_nil, or_false] at he
        rcases he with rfl | rfl
        · exact .callName hn hd hid hkey hmem
        · exact .callType hn hd hid hkey hmem
      · simp at he
  · rename_i d hd
    exact .className hn hd he
  · rename_i d hd
    exact .constructorName hn hd he
  · rename_i d hd
    unfold referenceEdits at he
    split at he
    · rename_i hcond
      obtain ⟨hplace, htype⟩ := Bool.and_eq_true_iff.1 hcond
      obtain ⟨slot, hslot, he⟩ := List.mem_flatMap.1 he
      exact .slot (.reference hn hd hplace htype hslot) he
    · simp at he
  · simp at he

private theorem mem_fileEdits_of_node {r : RenameBean} {plan : RenamePlan} {i : Nat}
    {f : SourceFile} {n : NodeId} (hn : n ∈ f.nodes) {e : Edit} (he : e ∈ r.nodeEdits plan f n) :
    e ∈ r.fileEdits plan i f :=
  List.mem_append.2 (.inr (List.mem_flatMap.2 ⟨n, hn, he⟩))

private theorem mem_fileEdits_of_bean {r : RenameBean} {batch : Batch} {i : Nat} {f : SourceFile}
    (hf : batch[i]? = some f) {b : FoundBean} (hb : b ∈ r.beansOf i f) {e : Edit}
    (he : e ∈ r.beanEdits f b) : e ∈ r.fileEdits (r.plan batch) i f := by
  obtain ⟨hplan, hfile⟩ := (mem_plan_beans hf).2 hb
  refine List.mem_append.2 (.inl (List.mem_append.2 (.inl (List.mem_flatMap.2 ⟨b, ?_, he⟩))))
  exact List.mem_filter.2 ⟨hplan, beq_iff_eq.2 hfile⟩

/-- The edits of a file are those that have an origin. -/
theorem mem_fileEdits {r : RenameBean} {batch : Batch} {i : Nat} {f : SourceFile}
    (hf : batch[i]? = some f) {e : Edit} :
    e ∈ r.fileEdits (r.plan batch) i f ↔ r.Origin batch i f e := by
  constructor
  · intro he
    simp only [fileEdits, List.mem_append, List.mem_flatMap, List.mem_filter, List.mem_map,
      beq_iff_eq] at he
    rcases he with (⟨b, hb, he⟩ | ⟨⟨id, c⟩, hc, rfl⟩) | ⟨n, hn, he⟩
    · exact mem_beanEdits ((mem_plan_beans hf).1 hb) he
    · exact .classType hc
    · exact mem_nodeEdits hn he
  · intro h
    cases h with
    | slot hslot he =>
      cases hslot with
      | bean hb hsource hmem =>
        refine mem_fileEdits_of_bean hf hb ?_
        simp only [beanEdits, hsource]
        exact List.mem_flatMap.2 ⟨_, hmem, he⟩
      | reference hn hd hplace htype hmem =>
        refine mem_fileEdits_of_node hn ?_
        simp only [nodeEdits, hd, referenceEdits, hplace, htype, Bool.and_self, if_true]
        exact List.mem_flatMap.2 ⟨_, hmem, he⟩
    | @factoryName b d hb himplicit hkind hd =>
      refine mem_fileEdits_of_bean hf hb ?_
      cases hsource : b.source with
      | explicit slots => simp [hsource, NameSource.isImplicit] at himplicit
      | implicit name => simp [beanEdits, hsource, hkind, hd]
    | @factoryType b d id hb himplicit hkind hd hid =>
      refine mem_fileEdits_of_bean hf hb ?_
      cases hsource : b.source with
      | explicit slots => simp [hsource, NameSource.isImplicit] at himplicit
      | implicit name => simp [beanEdits, hsource, hkind, hd, hid]
    | @classType id c hc =>
      refine List.mem_append.2 (.inl (List.mem_append.2 (.inr ?_)))
      exact List.mem_map.2 ⟨(id, c), hc, rfl⟩
    | callName hn hd hid hkey hmem =>
      refine mem_fileEdits_of_node hn ?_
      simp [nodeEdits, hd, callEdits, hid, hkey, hmem]
    | callType hn hd hid hkey hmem =>
      refine mem_fileEdits_of_node hn ?_
      simp [nodeEdits, hd, callEdits, hid, hkey, hmem]
    | className hn hd he =>
      refine mem_fileEdits_of_node hn ?_
      simpa [nodeEdits, hd] using he
    | constructorName hn hd he =>
      refine mem_fileEdits_of_node hn ?_
      simpa [nodeEdits, hd] using he

/-! ## A run -/

/-- The edits of a file in a run. -/
def editSet (r : RenameBean) (batch : Batch) (i : Nat) (f : SourceFile) : EditSet :=
  .ofList (r.fileEdits (r.plan batch) i f)

theorem mem_editSet {r : RenameBean} {batch : Batch} {i : Nat} {f : SourceFile}
    (hf : batch[i]? = some f) {e : Edit} :
    e ∈ (r.editSet batch i f).edits ↔ r.Origin batch i f e := by
  rw [editSet, EditSet.mem_ofList, mem_fileEdits hf]

theorem mem_slotEdits {r : RenameBean} {slot : NamedSlot} {e : Edit} :
    e ∈ r.slotEdits slot ↔ slot.name = some r.oldName ∧
      e = if slot.aliased then .replaceExpression slot.slot.node (.stringLiteral r.newName)
        else .setLiteral slot.slot.node (.string r.newName) := by
  unfold slotEdits
  split
  · rename_i hname
    split <;> simp [hname]
  · rename_i hname
    simp [hname]

theorem mem_identifierEdits {ids : List (TypeId × ClassRename)} {n : NodeId} {d : Identifier}
    {e : Edit} : e ∈ identifierEdits ids n d ↔ d.variableType = none ∧
      ∃ id c, (ids.find? fun (id, c) => d.type = some id && c.oldSimple = d.name) = some (id, c) ∧
        e = .renameIdentifier (some n) c.newSimple := by
  unfold identifierEdits
  split
  · rename_i hvar
    simp [Option.isSome_iff_ne_none.1 hvar]
  · rename_i hvar
    have hvar' : d.variableType = none := by simpa using hvar
    split
    · rename_i id c hfind
      simp [hvar', hfind]
    · rename_i hfind
      simp [hvar', hfind]

theorem mem_constructorEdits {ids : List (TypeId × ClassRename)} {s : Store} {d : ClassDeclaration}
    {e : Edit} (he : e ∈ constructorEdits ids s d) :
    ∃ body block member m name, d.body = some body ∧ s.data? (some body) = some (.block block) ∧
      member ∈ block.statements ∧ s.data? member = some (.methodDeclaration m) ∧
      e = .renameIdentifier m.name name := by
  unfold constructorEdits at he
  split at he
  · simp at he
  · rename_i id c hfind
    obtain ⟨member, hmember, hedit⟩ := List.mem_filterMap.1 he
    obtain ⟨m, hm, hedit⟩ := Option.bind_eq_some_iff.1 hedit
    split at hedit
    · obtain rfl := Option.some.inj hedit
      cases hblock : s.block? d.body with
      | none => simp [hblock] at hmember
      | some block =>
        simp only [hblock, Option.map_some, Option.getD_some] at hmember
        have hdata := Store.block?_eq_some.1 hblock
        obtain ⟨body, hbody⟩ := Store.exists_of_data? hdata
        rw [hbody] at hdata
        exact ⟨body, block, member, m, c.newSimple, hbody, hdata, hmember,
          Store.method?_eq_some.1 hm, rfl⟩
    · simp at hedit

/-- An identifier that is to be changed names a method, a call of a renamed factory method, or a
class. -/
theorem origin_renameIdentifier {r : RenameBean} {batch : Batch} {i : Nat} {f : SourceFile}
    (hacyclic : f.Acyclic) {a : Ref} {text : String}
    (h : r.Origin batch i f (.renameIdentifier a text)) :
    (∃ n d, f.Reaches n ∧ f.store.data? (some n) = some (.methodDeclaration d) ∧ d.name = a) ∨
    (∃ n d id key, f.Reaches n ∧ f.store.data? (some n) = some (.methodInvocation d) ∧ d.name = a ∧
      d.type = some id ∧ f.types.methodKey? id = some key ∧ key ∈ (r.plan batch).methods ∧
      text = r.newName) ∨
    ∃ n d, a = some n ∧ f.store.data? (some n) = some (.identifier d) ∧
      .renameIdentifier a text ∈ identifierEdits (classIds (r.plan batch) f) n d := by
  generalize he : Edit.renameIdentifier a text = e at h
  cases h with
  | slot _ hmem =>
    obtain ⟨-, rfl⟩ := mem_slotEdits.1 hmem
    split at he <;> simp at he
  | @factoryName b d hb _ _ hd =>
    simp only [Edit.renameIdentifier.injEq] at he
    exact .inl ⟨_, d, (reaches_of_mem_beansOf hacyclic hb).1, Store.method?_eq_some.1 hd, he.1.symm⟩
  | @callName n d id key hn hd hid hkey hmem =>
    simp only [Edit.renameIdentifier.injEq] at he
    have hreach := (SourceFile.mem_nodes_iff hacyclic n).1 hn
    exact .inr (.inl ⟨n, d, id, key, hreach, hd, he.1.symm, hid, hkey, hmem, he.2⟩)
  | @className n d _ hn hd hmem =>
    obtain ⟨-, _, _, -, rfl⟩ := mem_identifierEdits.1 hmem
    simp only [Edit.renameIdentifier.injEq] at he
    obtain ⟨rfl, rfl⟩ := he
    exact .inr (.inr ⟨n, d, rfl, hd, hmem⟩)
  | @constructorName n d _ hn hd hmem =>
    obtain ⟨body, block, member, m, _, hbody, hblock, hmember, hm, rfl⟩ := mem_constructorEdits hmem
    simp only [Edit.renameIdentifier.injEq] at he
    obtain ⟨member, rfl⟩ := Store.exists_of_data? hm
    have hheld : f.store.Holds n body := by
      simp [Store.holds_iff hd, NodeData.children, NodeData.childFields,
        ChildField.children, hbody]
    have hheld' : f.store.Holds body member := by
      simpa [Store.holds_iff hblock, NodeData.children,
        NodeData.childFields, ChildField.children] using hmember
    have hreach := (SourceFile.mem_nodes_iff hacyclic n).1 hn
    refine .inl ⟨member, m, ?_, hm, he.1.symm⟩
    exact .step (.step hreach hheld (Store.lt_size_of_data? hblock)) hheld'
      (Store.lt_size_of_data? hm)
  | _ => simp at he

/-- All edits of a run rename something. -/
theorem isRenaming_of_origin {r : RenameBean} {batch : Batch} {i : Nat} {f : SourceFile} {e : Edit}
    (h : r.Origin batch i f e) : e.IsRenaming := by
  cases h with
  | slot _ he =>
    obtain ⟨-, rfl⟩ := mem_slotEdits.1 he
    split
    · exact .replaceExpression _ _
    · exact .setLiteral _ _
  | factoryName => exact .renameIdentifier _ _
  | factoryType => exact .renameMethodType _ _
  | classType => exact .renameClassType _ _
  | callName => exact .renameIdentifier _ _
  | callType => exact .renameMethodType _ _
  | className _ _ he =>
    obtain ⟨-, _, _, -, rfl⟩ := mem_identifierEdits.1 he
    exact .renameIdentifier _ _
  | constructorName _ _ he =>
    obtain ⟨_, _, _, _, _, -, -, -, -, rfl⟩ := mem_constructorEdits he
    exact .renameIdentifier _ _

/-- A run that goes through takes every file to the one in its place by the edits of the file. -/
theorem renames_of_run {r : RenameBean} {batch : Batch} {changes : List FileChange}
    (h : r.run batch = .ok changes) {i : Nat} {f g : SourceFile} (hf : batch[i]? = some f)
    (hg : (merge batch changes)[i]? = some g) : (r.editSet batch i f).Renames f g := by
  obtain ⟨f', hf', happly⟩ := exists_of_getElem?_merge h hg
  rw [hf] at hf'
  obtain rfl := Option.some.inj hf'
  refine ⟨fun e he => ?_, EditSet.ofList_nodup _, happly⟩
  exact isRenaming_of_origin ((mem_editSet hf).1 he)

/-! ## Values in slots -/

/-- A planned value sits in a slot of a reachable container. -/
theorem Planned.container {r : RenameBean} {batch : Batch} {i : Nat} {f : SourceFile}
    (hacyclic : f.Acyclic) {slot : NamedSlot} (h : r.Planned batch i f slot) :
    slot = f.store.namedSlot f.types slot.slot ∧
      ∃ c x, slot.slot.container = some c ∧ f.Reaches c ∧ f.store.data? (some c) = some x ∧
        slot.slot.node ∈ x.valueSlots := by
  have hbelow : ∀ {n : NodeId} {mark : Ref}, f.Reaches n → mark ∈ f.store.annotations (some n) →
      f.store.HasSlot mark slot.slot →
      ∃ c x, slot.slot.container = some c ∧ f.Reaches c ∧ f.store.data? (some c) = some x ∧
        slot.slot.node ∈ x.valueSlots := by
    rintro n mark hn hmark ⟨c, x, hc, hreach, hx, hmem⟩
    have hchild := Store.mem_children_of_mem_annotations hmark
    exact ⟨c, x, hc, Store.Reaches.trans hn (hreach.of_child hchild), hx, hmem⟩
  cases h with
  | bean hb hsource hslot =>
    obtain ⟨hn, hmarker⟩ := reaches_of_mem_beansOf hacyclic hb
    have hnames := nameSource_of_mem_beansOf hb
    rw [hsource] at hnames
    obtain ⟨⟨mark, hmark, hhas⟩, heq⟩ := Store.hasSlot_of_nameSource hmarker hnames hslot
    exact ⟨heq, hbelow hn hmark hhas⟩
  | reference hn hd hplace htype hslot =>
    obtain ⟨⟨mark, hmark, hhas⟩, heq⟩ := Store.hasSlot_of_mem_qualifierSlots hslot
    refine ⟨heq, hbelow ((SourceFile.mem_nodes_iff hacyclic _).1 hn) ?_ hhas⟩
    simpa [Store.annotations, hd, NodeData.annotations] using hmark

/-- What is replaced is a planned value that is a name for a constant. -/
theorem planned_of_replaceExpression {r : RenameBean} {batch : Batch} {i : Nat} {f : SourceFile}
    {a : Ref} {snippet : Snippet} (h : r.Origin batch i f (.replaceExpression a snippet)) :
    snippet = .stringLiteral r.newName ∧ ∃ slot, r.Planned batch i f slot ∧
      slot.name = some r.oldName ∧ slot.aliased ∧ slot.slot.node = a := by
  generalize he : Edit.replaceExpression a snippet = e at h
  cases h with
  | @slot slot _ hslot hmem =>
    obtain ⟨hname, rfl⟩ := mem_slotEdits.1 hmem
    split at he
    · rename_i haliased
      simp only [Edit.replaceExpression.injEq] at he
      exact ⟨he.2, slot, hslot, hname, haliased, he.1.symm⟩
    · simp at he
  | className _ _ hmem =>
    obtain ⟨-, _, _, -, rfl⟩ := mem_identifierEdits.1 hmem
    simp at he
  | constructorName _ _ hmem =>
    obtain ⟨_, _, _, _, _, -, -, -, -, rfl⟩ := mem_constructorEdits hmem
    simp at he
  | _ => simp at he

/-- What is set is a planned value that is a literal itself. -/
theorem planned_of_setLiteral {r : RenameBean} {batch : Batch} {i : Nat} {f : SourceFile}
    {a : Ref} {value : LiteralValue} (h : r.Origin batch i f (.setLiteral a value)) :
    value = .string r.newName ∧ ∃ slot, r.Planned batch i f slot ∧
      slot.name = some r.oldName ∧ slot.aliased = false ∧ slot.slot.node = a := by
  generalize he : Edit.setLiteral a value = e at h
  cases h with
  | @slot slot _ hslot hmem =>
    obtain ⟨hname, rfl⟩ := mem_slotEdits.1 hmem
    split at he
    · simp at he
    · rename_i haliased
      simp only [Edit.setLiteral.injEq] at he
      exact ⟨he.2, slot, hslot, hname, by simpa using haliased, he.1.symm⟩
  | className _ _ hmem =>
    obtain ⟨-, _, _, -, rfl⟩ := mem_identifierEdits.1 hmem
    simp at he
  | constructorName _ _ hmem =>
    obtain ⟨_, _, _, _, _, -, -, -, -, rfl⟩ := mem_constructorEdits hmem
    simp at he
  | _ => simp at he

end RenameBean

end JavaRecipes
