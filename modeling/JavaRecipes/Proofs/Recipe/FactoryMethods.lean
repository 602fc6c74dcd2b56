import JavaRecipes.Proofs.Edit.Conflicts
import JavaRecipes.Proofs.Recipe.CallNames
import JavaRecipes.Proofs.Recipe.NameValues

/-!
Renaming a factory method that has the bean's name from its declaration. The methods to be renamed
are known by keys, so that a call in any file of the batch finds them in its own type table. What a
run leaves of the methods is stated for every tree (`factoryMethods_renamed`): a declaration or call
that is renamed has an edit of its name, and a set that passes the check has no other edit of that
node, so the name stays in its slot.
-/

namespace JavaRecipes

namespace EditSet.Renames

variable {s : EditSet} {f g : SourceFile}

/-- What is renamed is an identifier, and stays in its slot. -/
theorem identifierText?_of_slot (h : s.Renames f g) {a b : Ref} {name : String}
    (hmem : .renameIdentifier a name ∈ s.edits) (hab : Refilled s.edits f.store.size g.store a b) :
    b = a ∧ g.store.identifierText? a = some name := by
  have hacceptable :=
    Edit.fault?_eq_none_iff_acceptable.1 ((fault?_eq_none (apply_eq_ok h.applied).1).1 _ hmem)
  obtain ⟨x, hx, hkind⟩ := Option.map_eq_some_iff.1 hacceptable
  obtain ⟨n, rfl⟩ := Store.exists_of_data? hx
  cases x <;> simp [NodeData.kind] at hkind
  refine ⟨?_, h.identifierText?_of_mem hmem hx⟩
  rcases hab with rfl | ⟨value, m, type, hreplaced, -⟩
  · rfl
  · exact absurd (h.edit_eq hreplaced hmem rfl rfl) (by simp)

end EditSet.Renames

namespace RenameBean

/-- The factory method of a bean that passes the filter and has the old name from no attribute but
from the declaration. -/
structure ImpliedFactory (r : RenameBean) (f : SourceFile) (n : NodeId)
    (d : MethodDeclaration) : Prop where
  listed : n ∈ f.nodes
  data : f.store.data? (some n) = some (.methodDeclaration d)
  marked : ∃ marker, f.FirstMark beanMarker d.annotations marker ∧
    ∀ slot, ¬ f.NameSlot d.annotations marker slot
  named : f.ImpliedName (.methodDeclaration d) r.oldName
  filtered : ∃ typeName, f.HasType d.returnType typeName ∧ r.Passes typeName

/-- The keys of the factory methods that are to be renamed in the batch. -/
def FactoryKey (r : RenameBean) (batch : Batch) (key : MethodKey) : Prop :=
  ∃ f ∈ batch, ∃ n d id, r.ImpliedFactory f n d ∧ d.type = some id ∧
    f.types.methodKey? id = some key

variable {r : RenameBean} {batch : Batch} {i : Nat} {f g : SourceFile}

/-- A bean that is found has the key of its method. -/
private theorem key_of_mem_beansOf {b : FoundBean} (hb : b ∈ r.beansOf i f) :
    b.key = ((f.store.method? (some b.bean.node)).bind (·.type)).bind f.types.methodKey? := by
  obtain ⟨n, -, hfound⟩ := mem_beansOf.1 hb
  obtain ⟨-, hbean, -, -, -, -, hkey⟩ := foundBean?_eq_some hfound
  rw [hkey, (Store.bean?_eq_some hbean).1]

/-- These are the factory methods among the beans that are found with implicit names. -/
theorem impliedFactory_iff (i : Nat) {n : NodeId} {d : MethodDeclaration} :
    r.ImpliedFactory f n d ↔ ∃ b ∈ r.beansOf i f, b.bean.node = n ∧ b.source.isImplicit ∧
      b.bean.kind = .factoryMethod ∧ f.store.method? (some n) = some d := by
  constructor
  · intro h
    obtain ⟨marker, hfirst, hnone⟩ := h.marked
    obtain ⟨typeName, htyped, hpasses⟩ := h.filtered
    let bean : Bean := { kind := .factoryMethod, node := n, marker }
    have hmarks : f.MarksBean (.methodDeclaration d) bean.kind bean.marker := .factoryMethod hfirst
    have hbean : f.store.bean? f.types n = some bean :=
      SourceFile.bean?_eq_some_iff.2 ⟨rfl, _, h.data, hmarks⟩
    obtain ⟨type, htype, hname⟩ :=
      (SourceFile.beanTyped_iff h.data hmarks).1 (.factoryMethod htyped)
    have hsource := (SourceFile.nameSource_eq_implicit_iff h.data hmarks).2 ⟨hnone, h.named⟩
    have hfound := foundBean?_of i hbean htype hname hsource (passesFilter_iff.2 hpasses)
      (List.mem_singleton_self _)
    exact ⟨_, mem_beansOf.2 ⟨n, h.listed, hfound⟩, rfl, rfl, rfl, Store.method?_eq_some.2 h.data⟩
  · rintro ⟨b, hb, rfl, himplicit, hkind, hmethod⟩
    obtain ⟨n, hn, hfound⟩ := mem_beansOf.1 hb
    obtain ⟨-, hbean, htyped, hsource, hpasses, hold, -⟩ := foundBean?_eq_some hfound
    have hdata := Store.method?_eq_some.1 hmethod
    obtain ⟨rfl, x, hx, hmarks⟩ := SourceFile.bean?_eq_some_iff.1 hbean
    obtain rfl := Option.some.inj (hx.symm.trans hdata)
    cases hs : b.source with
    | explicit slots => simp [hs, NameSource.isImplicit] at himplicit
    | implicit name =>
      -- no attribute names the bean, so its name is that of the method
      rw [hs] at hsource hold
      obtain rfl := List.mem_singleton.1 hold
      obtain ⟨hnone, hnamed⟩ := (SourceFile.nameSource_eq_implicit_iff hx hmarks).1 hsource
      have htype : f.HasType d.returnType b.typeName := by
        cases (SourceFile.beanTyped_iff hx hmarks).2 htyped with
        | factoryMethod htype => exact htype
      exact ⟨hn, hdata, ⟨_, hmarks.firstMark, hnone⟩, hnamed, _, htype,
        passesFilter_iff.1 hpasses⟩

/-- The plan has their keys and no others. -/
theorem mem_plan_methods_iff_factoryKey {key : MethodKey} :
    key ∈ (r.plan batch).methods ↔ r.FactoryKey batch key := by
  have hplan : key ∈ (r.plan batch).methods ↔ ∃ b ∈ r.findBeans batch, methodOf? b = some key :=
    List.mem_filterMap
  rw [hplan]
  constructor
  · rintro ⟨b, hb, hkey⟩
    obtain ⟨i, f, hf, hb⟩ := mem_findBeans.1 hb
    unfold methodOf? at hkey
    split at hkey
    · rename_i hcond
      obtain ⟨himplicit, hkind⟩ := Bool.and_eq_true_iff.1 hcond
      rw [key_of_mem_beansOf hb] at hkey
      obtain ⟨id, hid, hkey⟩ := Option.bind_eq_some_iff.1 hkey
      obtain ⟨d, hd, hid⟩ := Option.bind_eq_some_iff.1 hid
      have hfactory := (impliedFactory_iff i).2 ⟨b, hb, rfl, himplicit, of_decide_eq_true hkind, hd⟩
      exact ⟨f, List.mem_of_getElem? hf, _, d, id, hfactory, hid, hkey⟩
    · simp at hkey
  · rintro ⟨f, hf, n, d, id, hfactory, hid, hkey⟩
    obtain ⟨i, hi⟩ := List.getElem?_of_mem hf
    obtain ⟨b, hb, rfl, himplicit, hkind, hmethod⟩ := (impliedFactory_iff i).1 hfactory
    refine ⟨b, mem_findBeans.2 ⟨i, f, hi, hb⟩, ?_⟩
    simp [methodOf?, himplicit, hkind, key_of_mem_beansOf hb, hmethod, hid, hkey]

/-! ## The edits of a file -/

/-- A method entry is renamed as the type of a factory method, or by its key as that of a call. -/
private theorem origin_renameMethodType_cases {id : TypeId} {name : String}
    (h : r.Origin batch i f (.renameMethodType id name)) : name = r.newName ∧
      ((∃ n d, r.ImpliedFactory f n d ∧ d.type = some id) ∨
        ∃ key, f.types.methodKey? id = some key ∧ r.FactoryKey batch key) := by
  generalize he : Edit.renameMethodType id name = e at h
  cases h with
  | slot _ hmem =>
    obtain ⟨-, rfl⟩ := mem_slotEdits.1 hmem
    split at he <;> simp at he
  | @factoryType b d id' hb himplicit hkind hd hid =>
    simp only [Edit.renameMethodType.injEq] at he
    obtain ⟨rfl, rfl⟩ := he
    exact ⟨rfl, .inl ⟨_, d, (impliedFactory_iff i).2 ⟨b, hb, rfl, himplicit, hkind, hd⟩, hid⟩⟩
  | @callType n d id' key hn hd hid hkey hmem =>
    simp only [Edit.renameMethodType.injEq] at he
    obtain ⟨rfl, rfl⟩ := he
    exact ⟨rfl, .inr ⟨key, hkey, mem_plan_methods_iff_factoryKey.1 hmem⟩⟩
  | className _ _ hmem =>
    obtain ⟨-, _, _, -, rfl⟩ := mem_identifierEdits.1 hmem
    simp at he
  | constructorName _ _ hmem =>
    obtain ⟨_, _, _, _, _, -, -, -, -, rfl⟩ := mem_constructorEdits hmem
    simp at he
  | _ => simp at he

/-! ## A run -/

private theorem methodAt?_renamed (hf : batch[i]? = some f)
    (h : (r.editSet batch i f).Renames f g) {id : TypeId}
    (hmem : .renameMethodType id r.newName ∈ (r.editSet batch i f).edits) :
    ∃ m, f.types.methodAt? id = some m ∧
      g.types.methodAt? id = some { m with name := r.newName } := by
  have hfault := (EditSet.fault?_eq_none (EditSet.apply_eq_ok h.applied).1).1 _ hmem
  obtain ⟨m, hm⟩ := Edit.exists_methodAt?_of_fault? hfault
  refine ⟨m, hm, ?_⟩
  rw [h.methodAt? fun name hmem => (origin_renameMethodType_cases ((mem_editSet hf).1 hmem)).1, hm]
  simp [hmem]

/-- The declaration of an implied factory method reads the new name, and so does its method
entry. -/
private theorem declaration_renamed (hf : batch[i]? = some f)
    (h : (r.editSet batch i f).Renames f g) {n : NodeId} {d : MethodDeclaration}
    (hfactory : r.ImpliedFactory f n d) :
    (∃ d', g.store.data? (some n) = some (.methodDeclaration d') ∧ d'.name = d.name ∧
      g.store.identifierText? d'.name = some r.newName) ∧
    ∀ id, d.type = some id →
      ∃ m, f.types.methodAt? id = some m ∧
        g.types.methodAt? id = some { m with name := r.newName } := by
  obtain ⟨b, hb, rfl, himplicit, hkind, hmethod⟩ := (impliedFactory_iff i).1 hfactory
  have hmem := (mem_editSet hf).2 (.factoryName hb himplicit hkind hmethod)
  constructor
  · obtain ⟨y, hy, hslots⟩ :=
      h.data?_of_kind hfactory.data (by simp [NodeData.kind]) (by simp [NodeData.kind])
    obtain ⟨d', rfl, -, hname, -⟩ := hslots.of_methodDeclaration
    obtain ⟨heq, htext⟩ := h.identifierText?_of_slot hmem hname
    exact ⟨d', hy, heq, by rw [heq, htext]⟩
  · intro id hid
    exact methodAt?_renamed hf h ((mem_editSet hf).2 (.factoryType hb himplicit hkind hmethod hid))

/-- So do a call that has the key of one, and the method entry of the call. -/
private theorem call_renamed (hf : batch[i]? = some f)
    (h : (r.editSet batch i f).Renames f g) {n : NodeId} {d : MethodInvocation} {id : TypeId}
    {key : MethodKey} (hn : n ∈ f.nodes) (hd : f.store.data? (some n) = some (.methodInvocation d))
    (hid : d.type = some id) (hkey : f.types.methodKey? id = some key)
    (hfactory : r.FactoryKey batch key) :
    (∃ d', g.store.data? (some n) = some (.methodInvocation d') ∧ d'.name = d.name ∧
      d'.type = some id ∧
      g.store.identifierText? d'.name = some r.newName) ∧
    ∃ m, f.types.methodAt? id = some m ∧
      g.types.methodAt? id = some { m with name := r.newName } := by
  have hplan := mem_plan_methods_iff_factoryKey.2 hfactory
  have hmem := (mem_editSet hf).2 (.callName hn hd hid hkey hplan)
  constructor
  · obtain ⟨y, hy, hslots⟩ := h.data?_of_kind hd (by simp [NodeData.kind]) (by simp [NodeData.kind])
    obtain ⟨d', rfl, hid', hname, -⟩ := hslots.of_methodInvocation
    obtain ⟨heq, htext⟩ := h.identifierText?_of_slot hmem hname
    exact ⟨d', hy, heq, by rw [hid', hid], by rw [heq, htext]⟩
  · exact methodAt?_renamed hf h ((mem_editSet hf).2 (.callType hn hd hid hkey hplan))

/-- No other method entry changes. -/
private theorem methodAt?_kept (hf : batch[i]? = some f)
    (h : (r.editSet batch i f).Renames f g) {id : TypeId}
    (hkey : ∀ key, f.types.methodKey? id = some key → ¬ r.FactoryKey batch key)
    (hown : ∀ n d, r.ImpliedFactory f n d → d.type ≠ some id) :
    g.types.methodAt? id = f.types.methodAt? id := by
  have hnone : ∀ name, .renameMethodType id name ∉ (r.editSet batch i f).edits := by
    intro name hmem
    obtain ⟨-, ⟨n, d, hfactory, hid⟩ | ⟨key, hk, hfactory⟩⟩ :=
      origin_renameMethodType_cases ((mem_editSet hf).1 hmem)
    · exact hown n d hfactory hid
    · exact hkey key hk hfactory
  have hsame : ∀ name, .renameMethodType id name ∈ (r.editSet batch i f).edits → name = r.newName :=
    fun name hmem => absurd hmem (hnone name)
  rw [h.methodAt? hsame]
  simp [hnone]

/-- After a run that goes through, every factory method that passed the filter and had the old name
implicitly reads the new name, and so does every call of one, in whatever file; their method entries
have the new name and the types they had, and all other methods of the type tables are as they
were. -/
theorem factoryMethods_renamed {changes : List FileChange} (hrun : r.run batch = .ok changes)
    (hf : batch[i]? = some f) :
    ∃ g, (merge batch changes)[i]? = some g ∧
      (∀ n d, r.ImpliedFactory f n d →
        (∃ d', g.store.data? (some n) = some (.methodDeclaration d') ∧ d'.name = d.name ∧
          g.store.identifierText? d'.name = some r.newName) ∧
        ∀ id, d.type = some id →
          ∃ m, f.types.methodAt? id = some m ∧
            g.types.methodAt? id = some { m with name := r.newName }) ∧
      (∀ n ∈ f.nodes, ∀ d id key, f.store.data? (some n) = some (.methodInvocation d) →
        d.type = some id →
        f.types.methodKey? id = some key → r.FactoryKey batch key →
          (∃ d', g.store.data? (some n) = some (.methodInvocation d') ∧ d'.name = d.name ∧
            d'.type = some id ∧
            g.store.identifierText? d'.name = some r.newName) ∧
          ∃ m, f.types.methodAt? id = some m ∧
            g.types.methodAt? id = some { m with name := r.newName }) ∧
      ∀ id, (∀ key, f.types.methodKey? id = some key → ¬ r.FactoryKey batch key) →
        (∀ n d, r.ImpliedFactory f n d → d.type ≠ some id) →
        g.types.methodAt? id = f.types.methodAt? id := by
  obtain ⟨-, hfiles⟩ :=
    merge_changeFiles (show changeFiles (r.editSet batch) batch = .ok changes from hrun)
  obtain ⟨g, hg, -⟩ := hfiles i f hf
  have h := renames_of_run hrun hf hg
  refine ⟨g, hg, fun n d hfactory => declaration_renamed hf h hfactory, ?_,
    fun id => methodAt?_kept hf h⟩
  intro n hn d id key hd hid hkey hfactory
  exact call_renamed hf h hn hd hid hkey hfactory

/-- A caller of the factory method, with a type table of its own, and of a method of another class
that has the same name. -/
def callerFile : SourceFile :=
  let d : Draft := {}
  let (other, d) := d.classType "sample.Other"
  let (foo, d) := d.classType "sample.Foo"
  let (config, d) := d.classType "sample.Config"
  let (unrelated, d) := d.methodType {
    declaring := other, name := "foo", returns := some foo, params := [] }
  let (method, d) := d.methodType {
    declaring := config, name := "foo", returns := some foo, params := [] }
  let (first, d) := d.invoke none unrelated []
  let (second, d) := d.invoke none method []
  let (body, d) := d.block [some first, some second]
  let (caller, d) := d.method { name := "caller", body := some body }
  let (c, d) := d.classDeclaration { name := "Other", members := [some caller], type := some other }
  d.finish "Other.java" (some "sample") [] [some c]

/-- The call in the other file is renamed with its method, and the method of the other class is
not. -/
theorem factoryMethods_renamed_callerFile : ∃ changes g,
    factoryRename.run [factoryFile, callerFile] = .ok changes ∧
    (merge [factoryFile, callerFile] changes)[1]? = some g ∧
    g.store.identifierText? (some 2) = some "bar" ∧
    g.types.methodAt? 4 = some { declaring := 2, name := "bar", returns := some 1, params := [] } ∧
    g.types.methodAt? 3 =
      some { declaring := 0, name := "foo", returns := some 1, params := [] } := by
  have hrun : factoryRename.run [factoryFile, callerFile] =
      .ok ((factoryRename.run [factoryFile, callerFile]).toOption.getD []) := by decide +kernel
  have hmethods : (factoryRename.plan [factoryFile, callerFile]).methods =
      [{ declaring := "sample.Config", name := "foo", params := [] }] := by decide +kernel
  have hother : callerFile.types.methodKey? 3 =
      some { declaring := "sample.Other", name := "foo", params := [] } := by decide +kernel
  obtain ⟨g, hg, -, hcalls, hkept⟩ := factoryMethods_renamed hrun (i := 1) (f := callerFile) rfl
  obtain ⟨⟨d', hd', hname, -, htext⟩, m, hm, hm'⟩ := hcalls 3 (by decide +kernel)
    { select := none, name := some 2, arguments := [], type := some 4 } 4 _ (by decide +kernel) rfl
    (by decide +kernel) (mem_plan_methods_iff_factoryKey.1 (hmethods ▸ List.mem_singleton_self _))
  have hkept₃ := hkept 3 ?_ ?_
  · refine ⟨_, g, hrun, hg, ?_, ?_, ?_⟩
    · rw [hname] at htext
      exact htext
    · have hentry : callerFile.types.methodAt? 4 =
          some { declaring := 2, name := "foo", returns := some 1, params := [] } := by
            decide +kernel
      obtain rfl := Option.some.inj (hm.symm.trans hentry)
      exact hm'
    · rw [hkept₃]
      decide +kernel
  · intro key hkey hfactory
    obtain rfl := Option.some.inj (hkey.symm.trans hother)
    have hmem := mem_plan_methods_iff_factoryKey.2 hfactory
    simp [hmethods] at hmem
  · intro n d hfactory
    have hnone : factoryRename.beansOf 1 callerFile = [] := by decide +kernel
    obtain ⟨b, hb, -⟩ := (impliedFactory_iff 1).1 hfactory
    simp [hnone] at hb

end RenameBean

end JavaRecipes
