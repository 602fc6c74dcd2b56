import JavaRecipes.Proofs.Tree.Relink
import JavaRecipes.Tree.Draft

/-!
Drafts that were built step by step, each child before the node that holds it. Their links and their
class index are those that would be drawn afresh (`Draft.Built.settled`).
-/

namespace JavaRecipes

namespace Store

@[simp]
theorem fst_add (s : Store) (data : NodeData) : (s.add data).1 = s.size := rfl

theorem holds_add {s : Store} {data : NodeData} {n m : NodeId} :
    (s.add data).2.Holds n m ↔ n = s.size ∧ some m ∈ data.children ∨ n ≠ s.size ∧ s.Holds n m := by
  have hdata := data?_add s data (some n)
  by_cases hn : n = s.size
  · rw [if_pos (congrArg some hn)] at hdata
    rw [Holds, children_eq_of_data? hdata]
    simp [hn]
  · rw [if_neg fun h => hn (Option.some.inj h)] at hdata
    rw [Holds, children_congr hdata]
    simp [hn, Holds]

/-- A new node has no link, and its children are linked to it. -/
theorem parent_add (s : Store) (data : NodeData) {m : NodeId} (hm : m < s.size) :
    (s.add data).2.parent (some m) =
      if some m ∈ data.children then some s.size else s.parent (some m) := by
  have hsize : (s.adopt s.size data.children).nodes.size = s.size := size_adopt s _ _
  have hsome : (s.data? (some m)).isSome := (s.data?_isSome_iff m).2 hm
  have hadopt := parent_adopt s s.size data.children (some m)
  simp only [hsome, and_true] at hadopt
  rw [← hadopt]
  simp [add, parent, get?, Array.getElem?_push, hsize, Nat.ne_of_lt hm]

theorem parent_add_size (s : Store) (data : NodeData) :
    (s.add data).2.parent (some s.size) = none := by
  have hsize : (s.adopt s.size data.children).nodes.size = s.size := size_adopt s _ _
  simp [add, parent, get?, Array.getElem?_push, hsize]

/-- Every child is there. -/
def Closed (s : Store) : Prop := ∀ n m, s.Holds n m → m < s.size

/-- A node whose children are there before it is linked to them as if all links were drawn
afresh. -/
theorem relink_add {s : Store} (hs : s.relink = s) (hclosed : s.Closed) {data : NodeData}
    (hdata : ∀ n, some n ∈ data.children → n < s.size) :
    (s.add data).2.relink = (s.add data).2 := by
  have hlinks := relink_eq_self_iff.1 hs
  refine relink_eq_self_iff.2 fun m hm n => ?_
  rw [size_add] at hm
  rcases Nat.lt_succ_iff_lt_or_eq.1 hm with hm | rfl
  · rw [parent_add s data hm]
    by_cases hchild : some m ∈ data.children
    · -- The new node is the last of all, so it is the last holder of its children.
      have hlast : (s.add data).2.LastHolder s.size m :=
        ⟨holds_add.2 (.inl ⟨rfl, hchild⟩), fun k hk =>
          Nat.le_of_lt_succ ((holds_lt_size hk).trans_eq (size_add s data))⟩
      rw [if_pos hchild]
      exact ⟨fun h => Option.some.inj h ▸ hlast, fun h => congrArg some (hlast.unique h)⟩
    · rw [if_neg hchild, hlinks m hm n]
      have hholds : ∀ k, (s.add data).2.Holds k m ↔ s.Holds k m := by
        intro k
        rw [holds_add]
        exact ⟨fun h => h.elim (fun h => absurd h.2 hchild) (·.2), fun h =>
          .inr ⟨Nat.ne_of_lt (holds_lt_size h), h⟩⟩
      simp only [LastHolder, hholds]
  · rw [parent_add_size]
    refine ⟨(by rintro ⟨⟩), fun h => ?_⟩
    rcases holds_add.1 h.1 with ⟨-, hh⟩ | ⟨-, hh⟩
    · exact absurd (hdata _ hh) (Nat.lt_irrefl _)
    · exact absurd (hclosed _ _ hh) (Nat.lt_irrefl _)

theorem Closed.add {s : Store} (hs : s.Closed) {data : NodeData}
    (hdata : ∀ n, some n ∈ data.children → n < s.size) : (s.add data).2.Closed := by
  intro n m h
  rw [size_add]
  rcases holds_add.1 h with ⟨-, h⟩ | ⟨-, h⟩
  · exact Nat.lt_succ_of_lt (hdata m h)
  · exact Nat.lt_succ_of_lt (hs n m h)

end Store

namespace TypeTable

theorem reindex_push_class (t : TypeTable) (c : ClassType) :
    (t.push (.classType c)).reindex =
      { t.push (.classType c) with classes := t.reindex.classes.put c.name t.size } := by
  simp [reindex, push, List.zipIdx_append, size]

theorem reindex_push {t : TypeTable} {entry : TypeEntry} (h : entry.asClass? = none) :
    (t.push entry).reindex = { t.push entry with classes := t.reindex.classes } := by
  cases entry with
  | classType c => cases h
  | _ => simp [reindex, push, List.zipIdx_append]

theorem reindex_internClass {t : TypeTable} (h : t.reindex = t) (name : String)
    (owner : Option TypeId) :
    (t.internClass name owner).2.reindex = (t.internClass name owner).2 := by
  unfold internClass
  cases t.lookupClass name with
  | some id => exact h
  | none =>
    have hclasses : t.reindex.classes = t.classes := by rw [h]
    have hpush := t.reindex_push_class ⟨name, owner⟩
    rw [hclasses] at hpush
    exact hpush

theorem reindex_internEntry {t : TypeTable} (h : t.reindex = t) {entry : TypeEntry}
    (hentry : entry.asClass? = none) :
    (t.internEntry entry).2.reindex = (t.internEntry entry).2 := by
  unfold internEntry
  split
  · exact h
  · rw [reindex_push hentry, h]
    rfl

end TypeTable

namespace Draft

/-- All that is named is there. -/
def Has (d : Draft) (rs : List Ref) : Prop := ∀ n, some n ∈ rs → n < d.store.size

/-- Drafts built from nothing: a node is added after its children, a type at any time. -/
inductive Built : Draft → Prop
  | empty : Built {}
  | add {d : Draft} {data : NodeData} : Built d → d.Has data.children → Built (d.add data).2
  | classType {d : Draft} (name : String) (owner : Option TypeId) : Built d →
    Built (d.classType name owner).2
  | primitive {d : Draft} (p : Primitive) : Built d → Built (d.primitive p).2
  | methodType {d : Draft} (m : MethodType) : Built d → Built (d.methodType m).2
  | variableType {d : Draft} (v : VariableType) : Built d → Built (d.variableType v).2

namespace Built

/-- Every child is there, and links and index are as they would be drawn afresh. -/
theorem settled {d : Draft} (h : d.Built) :
    d.store.Closed ∧ d.store.relink = d.store ∧ d.types.reindex = d.types := by
  induction h with
  | empty =>
    exact ⟨(by rintro n m ⟨⟩),
      Store.relink_eq_self_iff.2 fun m hm => absurd hm (Nat.not_lt_zero m), rfl⟩
  | add _ hdata ih =>
    obtain ⟨hclosed, hlinks, htypes⟩ := ih
    exact ⟨hclosed.add hdata, Store.relink_add hlinks hclosed hdata, htypes⟩
  | classType name owner _ ih =>
    exact ⟨ih.1, ih.2.1, TypeTable.reindex_internClass ih.2.2 name owner⟩
  | primitive p _ ih => exact ⟨ih.1, ih.2.1, TypeTable.reindex_internEntry ih.2.2 rfl⟩
  | methodType m _ ih => exact ⟨ih.1, ih.2.1, TypeTable.reindex_internEntry ih.2.2 rfl⟩
  | @variableType d v _ ih =>
    obtain ⟨hclosed, hlinks, htypes⟩ := ih
    refine ⟨hclosed, hlinks, ?_⟩
    have hpush : (d.types.push (.variable v)).reindex = _ := TypeTable.reindex_push rfl
    rw [htypes] at hpush
    exact hpush

end Built

/-! ### What the operations of a draft build -/

theorem has_nil (d : Draft) : d.Has [] := by simp [Has]

theorem has_one {d : Draft} {r : Ref} : d.Has (ChildField.one r).children ↔ d.Has [r] := by
  cases r <;> simp [ChildField.children, Has]

theorem has_none (d : Draft) : d.Has [none] := by simp [Has]

theorem Has.mono {d d' : Draft} {rs : List Ref} (h : d.Has rs)
    (hle : d.store.size ≤ d'.store.size) :
    d'.Has rs :=
  fun n hn => (h n hn).trans_le hle

/-- A payload whose fields are there can be added. -/
theorem has_children_iff {d : Draft} {data : NodeData} :
    d.Has data.children ↔ ∀ field ∈ data.childFields, d.Has field.children := by
  simp only [Has, NodeData.children, List.mem_flatMap]
  exact ⟨fun h field hfield n hn => h n ⟨field, hfield, hn⟩,
    fun h n ⟨field, hfield, hn⟩ => h field hfield n hn⟩

theorem has_fst_add (d : Draft) (data : NodeData) : (d.add data).2.Has [some (d.add data).1] := by
  intro n hn
  obtain rfl : n = (d.add data).1 := by simpa using hn
  exact (Nat.lt_succ_self _).trans_eq (d.store.size_add data).symm

theorem size_le_add (d : Draft) (data : NodeData) : d.store.size ≤ (d.add data).2.store.size :=
  (Nat.le_succ _).trans_eq (d.store.size_add data).symm

namespace Built

theorem addWith {d : Draft} {data : NodeData} (h : d.Built)
    (hfields : ∀ field ∈ data.childFields, d.Has field.children) : (d.add data).2.Built :=
  h.add (has_children_iff.2 hfields)

theorem identifier {d : Draft} (h : d.Built) (name : String) (type : Option TypeId) :
    (d.identifier name type).2.Built :=
  h.add (has_nil d)

theorem typeRef {d : Draft} (h : d.Built) (type : TypeId) : (d.typeRef type).2.Built :=
  h.identifier _ _

theorem variableRef {d : Draft} (h : d.Built) (v : TypeId) : (d.variableRef v).2.Built :=
  h.add (has_nil d)

theorem fieldAccess {d : Draft} (h : d.Built) {target : Ref} (htarget : d.Has [target])
    (v : TypeId) :
    (d.fieldAccess target v).2.Built := by
  refine (h.variableRef v).addWith ?_
  simp only [NodeData.childFields, List.forall_mem_cons, has_one]
  exact ⟨htarget.mono (size_le_add d _), has_fst_add d _, by simp⟩

theorem literalType {d : Draft} (h : d.Built) (value : LiteralValue) :
    (d.literalType value).2.Built := by
  cases value with
  | string _ => exact h.classType _ _
  | null => exact h
  | _ => exact h.primitive _

theorem literal {d : Draft} (h : d.Built) (value : LiteralValue) : (d.literal value).2.Built :=
  (h.literalType value).add (has_nil _)

theorem newClass {d : Draft} (h : d.Built) (type : TypeId) {arguments : List Ref}
    (harguments : d.Has arguments) : (d.newClass type arguments).2.Built := by
  refine (h.typeRef type).addWith ?_
  simp only [NodeData.childFields, List.forall_mem_cons, has_one]
  exact ⟨has_fst_add d _, harguments.mono (size_le_add d _), by simp⟩

theorem invoke {d : Draft} (h : d.Built) {select : Ref} (hselect : d.Has [select]) (method : TypeId)
    {arguments : List Ref} (harguments : d.Has arguments) :
    (d.invoke select method arguments).2.Built := by
  refine (h.identifier _ _).addWith ?_
  simp only [NodeData.childFields, List.forall_mem_cons, has_one]
  exact ⟨hselect.mono (size_le_add d _), has_fst_add d _,
    harguments.mono (size_le_add d _), by simp⟩

theorem newArray {d : Draft} (h : d.Built) {elements : List Ref} (helements : d.Has elements) :
    (d.newArray elements).2.Built :=
  h.addWith (by simpa [NodeData.childFields, ChildField.children] using helements)

theorem assignment {d : Draft} (h : d.Built) (name : String) {value : Ref}
    (hvalue : d.Has [value]) :
    (d.assignment name value).2.Built := by
  refine (h.identifier name none).addWith ?_
  simp only [NodeData.childFields, List.forall_mem_cons, has_one]
  exact ⟨has_fst_add d _, hvalue.mono (size_le_add d _), by simp⟩

theorem binary {d : Draft} (h : d.Built) {left right : Ref} (hleft : d.Has [left])
    (operator : BinaryOperator) (hright : d.Has [right]) : (d.binary left operator right).2.Built :=
  h.addWith (by simpa [NodeData.childFields, has_one] using ⟨hleft, hright⟩)

theorem lambda {d : Draft} (h : d.Built) {parameters : List Ref} (hparameters : d.Has parameters)
    {body : Ref} (hbody : d.Has [body]) (type : Option TypeId) :
    (d.lambda parameters body type).2.Built :=
  h.addWith (by simpa [NodeData.childFields, has_one] using ⟨hparameters, hbody⟩)

theorem annotationUse {d : Draft} (h : d.Built) (name : String) {arguments : List Ref}
    (harguments : d.Has arguments) : (d.annotationUse name arguments).2.Built := by
  refine ((h.classType name none).identifier _ _).addWith ?_
  simp only [NodeData.childFields, List.forall_mem_cons, has_one]
  exact ⟨has_fst_add _ _, harguments.mono (size_le_add _ _), by simp⟩

theorem annotationWithValue {d : Draft} (h : d.Built) (name value : String) :
    (d.annotationWithValue name value).2.Built :=
  (h.literal (.string value)).annotationUse name (has_fst_add _ _)

theorem block {d : Draft} (h : d.Built) {statements : List Ref} (hstatements : d.Has statements) :
    (d.block statements).2.Built :=
  h.addWith (by simpa [NodeData.childFields, ChildField.children] using hstatements)

theorem returnStatement {d : Draft} (h : d.Built) {expression : Ref}
    (hexpression : d.Has [expression]) :
    (d.returnStatement expression).2.Built :=
  h.addWith (by simpa [NodeData.childFields, has_one] using hexpression)

theorem forLoop {d : Draft} (h : d.Built) {loop : ForLoop} (hinitial : d.Has loop.initial)
    (hcondition : d.Has [loop.condition]) (hupdate : d.Has loop.update)
    (hbody : d.Has [loop.body]) :
    (d.forLoop loop).2.Built :=
  h.addWith (by simpa [NodeData.childFields, has_one] using ⟨hinitial, hcondition, hupdate, hbody⟩)

theorem tryStatement {d : Draft} (h : d.Built) {resources : List Ref} (hresources : d.Has resources)
    {body cleanup : Ref} (hbody : d.Has [body]) (hcleanup : d.Has [cleanup]) :
    (d.tryStatement resources body cleanup).2.Built :=
  h.addWith (by simpa [NodeData.childFields, has_one] using ⟨hresources, hbody, hcleanup⟩)

/-- The variables of a declaration are there when all of them are added. -/
theorem declareAll {d : Draft} (h : d.Built) (type : Option TypeId) {vs : List NewVariable}
    (hvs : ∀ v ∈ vs, d.Has [v.initializer]) :
    (d.declareAll type vs).2.2.Built ∧ d.store.size ≤ (d.declareAll type vs).2.2.store.size ∧
      (d.declareAll type vs).2.2.Has (d.declareAll type vs).1 := by
  induction vs generalizing d with
  | nil => exact ⟨h, Nat.le_refl _, has_nil d⟩
  | cons v vs ih =>
    obtain ⟨hv, hvs⟩ := List.forall_mem_cons.1 hvs
    let typed := d.variableType { name := v.name, owner := v.owner, type }
    let named := typed.2.variableRef typed.1
    let added := named.2.add (.namedVariable {
      name := some named.1, initializer := v.initializer, type := some typed.1 })
    have hsize : d.store.size ≤ named.2.store.size := size_le_add typed.2 _
    have hadded : d.store.size ≤ added.2.store.size := hsize.trans (size_le_add named.2 _)
    have hbuilt : added.2.Built := by
      refine ((h.variableType _).variableRef typed.1).addWith ?_
      simp only [NodeData.childFields, List.forall_mem_cons, has_one]
      exact ⟨has_fst_add typed.2 _, hv.mono hsize, by simp⟩
    obtain ⟨hrest, hle, hhas⟩ := ih hbuilt fun v hv => (hvs v hv).mono hadded
    refine ⟨hrest, hadded.trans hle, ?_⟩
    intro n hn
    rcases List.mem_cons.1 hn with hn | hn
    · exact ((has_fst_add named.2 _).mono hle) n (hn ▸ List.mem_singleton_self _)
    · exact hhas n hn

theorem typeRef? {d : Draft} (h : d.Built) (type : Option TypeId) :
    (d.typeRef? type).2.Built ∧ d.store.size ≤ (d.typeRef? type).2.store.size ∧
      (d.typeRef? type).2.Has [(d.typeRef? type).1] := by
  cases type with
  | none => exact ⟨h, Nat.le_refl _, has_none d⟩
  | some type => exact ⟨h.typeRef type, size_le_add d _, has_fst_add d _⟩

theorem declaration {d : Draft} (h : d.Built) {annotations : List Ref}
    (hannotations : d.Has annotations) (modifiers : List Modifier) (type : Option TypeId)
    {vs : List NewVariable} (hvs : ∀ v ∈ vs, d.Has [v.initializer]) :
    (d.declaration annotations modifiers type vs).2.2.Built := by
  obtain ⟨hspelled, hsize, htype⟩ := h.typeRef? type
  obtain ⟨hdeclared, hle, hhas⟩ := hspelled.declareAll type fun v hv => (hvs v hv).mono hsize
  refine hdeclared.addWith ?_
  simp only [NodeData.childFields, List.forall_mem_cons, has_one]
  exact ⟨hannotations.mono (hsize.trans hle), htype.mono hle, hhas, by simp⟩

theorem method {d : Draft} (h : d.Built) {m : NewMethod} (hannotations : d.Has m.annotations)
    (hparameters : d.Has m.parameters) (hbody : d.Has [m.body]) : (d.method m).2.Built := by
  obtain ⟨hspelled, hsize, htype⟩ := h.typeRef? m.returns
  have hname := size_le_add (d.typeRef? m.returns).2
    (.identifier { name := m.name, type := none, variableType := none })
  have hle := hsize.trans hname
  refine (hspelled.identifier m.name none).addWith ?_
  simp only [NodeData.childFields, List.forall_mem_cons, has_one]
  exact ⟨hannotations.mono hle, htype.mono hname, has_fst_add _ _, hparameters.mono hle,
    hbody.mono hle,
    by simp⟩

theorem classDeclaration {d : Draft} (h : d.Built) {c : NewClassDeclaration}
    (hannotations : d.Has c.annotations) (hmembers : d.Has c.members) :
    (d.classDeclaration c).2.Built := by
  have hname := size_le_add d (.identifier { name := c.name, type := c.type, variableType := none })
  have hbody := size_le_add (d.identifier c.name c.type).2 (.block { statements := c.members })
  refine ((h.identifier c.name c.type).block (hmembers.mono hname)).addWith ?_
  simp only [NodeData.childFields, List.forall_mem_cons, has_one]
  exact ⟨hannotations.mono (hname.trans hbody), (has_fst_add d _).mono hbody,
    has_fst_add _ _, by simp⟩

/-- A file built with its children before the nodes that hold them is as if it were just loaded. -/
theorem refresh_finish {d : Draft} (h : d.Built) (path : String) (packageName : Option String)
    (imports : List String) {classes : List Ref} (hclasses : d.Has classes) :
    (d.finish path packageName imports classes).refresh =
      d.finish path packageName imports classes := by
  have hbuilt : (d.add (.compilationUnit { packageName, imports, classes })).2.Built :=
    h.addWith (by simpa [NodeData.childFields, ChildField.children] using hclasses)
  obtain ⟨-, hlinks, htypes⟩ := hbuilt.settled
  rw [SourceFile.refresh]
  congr 1

end Built

end Draft

end JavaRecipes
