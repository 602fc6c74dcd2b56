import JavaRecipes.Proofs.Edit.Conflicts
import JavaRecipes.Proofs.Edit.Frame
import JavaRecipes.Proofs.Edit.Templates
import JavaRecipes.Proofs.Recipe.FixedPoint
import JavaRecipes.Proofs.Recipe.Reports

/-!
What the change of the size setters makes of a file. Each call of a setter keeps its place and gets
a call of `DataSize` around its argument, so the text is that of the file with such calls spelled
anew, at any depth (`run_sized`). The one thing that is in the way is a call of a setter that is
itself the argument of another one.
-/

namespace JavaRecipes

namespace NodeData

/-- The argument of a call gives way if nothing before it is the same node. -/
theorem replaceChild_argument {d : MethodInvocation} {old new : Ref} (hselect : d.select ≠ old)
    (hname : d.name ≠ old) (harguments : d.arguments = [old]) :
    (methodInvocation d).replaceChild old new =
      some (.methodInvocation { d with arguments := [new] }) := by
  simp [replaceChild, childFields, ChildField.replaceIn?, ChildField.replace?,
    ChildField.replaceFirst, hselect, hname, harguments, withChildFields]

end NodeData

namespace MultipartSizes

/-! ## Calls of setters -/

/-- The method of `DataSize` for the argument of a setter of the factory: a setter has its number as
its parameter, or a string. -/
def sizeMethod? (types : TypeTable) (id : TypeId) : Option String := do
  let m ← types.methodAt? id
  let numeric ← setters.lookup m.name
  if types.name? m.declaring = some factoryClass then
    if m.params.map types.name? = [some numeric] then some "ofBytes"
    else if m.params.map types.name? = [some stringClass] then some "parse"
    else none
  else none

/-- A call of a setter with one argument, and the method of `DataSize` that takes the argument. -/
structure SizeCall (f : SourceFile) (n : NodeId) (d : MethodInvocation) (argument : Ref)
    (method : String) : Prop where
  data : f.store.data? (some n) = some (.methodInvocation d)
  argument : d.arguments = [argument]
  setter : d.type.bind (sizeMethod? f.types) = some method

/-- How a call of a setter is to be spelled, given the text of what is in it. -/
def sizedCall (f : SourceFile) (n : NodeId) : Option ((Ref → Layout) → Layout) :=
  match f.store.invocation? (some n) with
  | some { select, name, arguments := [argument], type } =>
    (type.bind (sizeMethod? f.types)).map fun method text =>
      Layout.call (select.map fun k => text (some k)) (text name)
        [Layout.call (some [.text "DataSize"]) [.text method] [text argument]]
  | _ => none

theorem sizedCall_eq_some_iff {f : SourceFile} {n : NodeId} {spell : (Ref → Layout) → Layout} :
    sizedCall f n = some spell ↔ ∃ d argument method, SizeCall f n d argument method ∧
      spell = fun text => Layout.call (d.select.map fun k => text (some k)) (text d.name)
        [Layout.call (some [.text "DataSize"]) [.text method] [text argument]] := by
  constructor
  · intro h
    unfold sizedCall at h
    split at h
    · rename_i select name argument type hd
      obtain ⟨method, hmethod, rfl⟩ := Option.map_eq_some_iff.1 h
      exact ⟨_, argument, method, ⟨Store.invocation?_eq_some.1 hd, rfl, hmethod⟩, rfl⟩
    · cases h
  · rintro ⟨⟨select, name, arguments, type⟩, argument, method, ⟨hd, rfl, hmethod⟩, rfl⟩
    simp only [sizedCall, Store.invocation?_eq_some.2 hd]
    rw [hmethod]
    rfl

theorem lookup_setters :
    ∀ s ∈ setters, setters.lookup s.1 = some s.2 ∧ s.2 ≠ stringClass := by decide

theorem sizeMethod?_eq_some_iff {types : TypeTable} {id : TypeId} {method : String} :
    sizeMethod? types id = some method ↔
      ∃ c ∈ conversions, c.setter.holdsOfType types id ∧ c.method = method := by
  constructor
  · intro h
    obtain ⟨m, hm, h⟩ := Option.bind_eq_some_iff.1 h
    obtain ⟨numeric, hnumeric, h⟩ := Option.bind_eq_some_iff.1 h
    have hsetter : (m.name, numeric) ∈ setters := by
      obtain ⟨before, after, heq, -⟩ := List.lookup_eq_some_iff.1 hnumeric
      simp [heq]
    split at h
    · rename_i hclass
      split at h
      · rename_i hparams
        refine ⟨⟨⟨factoryClass, m.name, [numeric]⟩, "ofBytes", "long"⟩, ?_, ?_, Option.some.inj h⟩
        · exact List.mem_flatMap.2 ⟨_, hsetter, by simp⟩
        · simp [MethodPattern.holdsOfType, hm, hclass, hparams]
      · split at h
        · rename_i hparams
          refine ⟨⟨⟨factoryClass, m.name, [stringClass]⟩, "parse",
            "java.lang.CharSequence"⟩, ?_, ?_, Option.some.inj h⟩
          · exact List.mem_flatMap.2 ⟨_, hsetter, by simp⟩
          · simp [MethodPattern.holdsOfType, hm, hclass, hparams]
        · cases h
    · cases h
  · rintro ⟨c, hc, hholds, rfl⟩
    obtain ⟨⟨setter, numeric⟩, hsetter, hc⟩ := List.mem_flatMap.1 hc
    obtain ⟨hlookup, hne⟩ := lookup_setters _ hsetter
    cases hm : types.methodAt? id with
    | none => simp [MethodPattern.holdsOfType, hm] at hholds
    | some m =>
      simp only [List.mem_cons, List.not_mem_nil, or_false] at hc
      rcases hc with rfl | rfl
      · simp only [MethodPattern.holdsOfType, hm, Bool.and_eq_true, beq_iff_eq] at hholds
        obtain ⟨⟨rfl, hclass⟩, hparams⟩ := hholds
        simp [sizeMethod?, hm, hlookup, hclass, hparams]
      · simp only [MethodPattern.holdsOfType, hm, Bool.and_eq_true, beq_iff_eq] at hholds
        obtain ⟨⟨rfl, hclass⟩, hparams⟩ := hholds
        simp [sizeMethod?, hm, hlookup, hclass, hparams, Ne.symm hne]

section

variable {f : SourceFile} {n : NodeId} {d : MethodInvocation} {argument : Ref} {method : String}
  {c : Conversion}

theorem Matched.sizeCall (h : Matched f n d argument c) : SizeCall f n d argument c.method := by
  obtain ⟨hc, hholds⟩ := conversion?_eq_some h.conversion
  obtain ⟨id, hid, hholds⟩ := (MethodPattern.holds_iff h.data).1 hholds
  refine ⟨h.data, h.argument, ?_⟩
  rw [hid, Option.bind_some]
  exact sizeMethod?_eq_some_iff.2 ⟨c, hc, hholds, rfl⟩

theorem SizeCall.matched (h : SizeCall f n d argument method) :
    ∃ c, Matched f n d argument c ∧ c.method = method := by
  obtain ⟨id, hid, hmethod⟩ := Option.bind_eq_some_iff.1 h.setter
  obtain ⟨c, hc, hholds, -⟩ := sizeMethod?_eq_some_iff.1 hmethod
  obtain ⟨c', hc'⟩ := conversion_of_holds hc ((MethodPattern.holds_iff h.data).2 ⟨id, hid, hholds⟩)
  have hmatched : Matched f n d argument c' := ⟨h.data, h.argument, hc'⟩
  exact ⟨c', hmatched, Option.some.inj (hmatched.sizeCall.setter.symm.trans h.setter)⟩

theorem Matched.holds {m : NodeId} (h : Matched f n d (some m) c) : f.store.Holds n m :=
  (Store.holds_iff h.data).2
    (NodeData.mem_children_methodInvocation.2 (.inr (.inr (by simp [h.argument]))))

/-- A node is one call, with one argument and one conversion. -/
theorem Matched.unique {d' : MethodInvocation} {argument' : Ref} {c' : Conversion}
    (h : Matched f n d argument c) (h' : Matched f n d' argument' c') :
    d = d' ∧ argument = argument' ∧ c = c' := by
  obtain rfl := NodeData.methodInvocation.inj (Option.some.inj (h.data.symm.trans h'.data))
  refine ⟨rfl, ?_, Option.some.inj (h.conversion.symm.trans h'.conversion)⟩
  simpa using h.argument.symm.trans h'.argument

end

/-! ## The plan -/

theorem declaring_conversions : ∀ c ∈ conversions, c.setter.declaring = factoryClass := by decide

section

variable {f : SourceFile} {n : NodeId} {d : MethodInvocation} {argument : Ref} {c : Conversion}

/-- The index of a file with a call of a setter has the factory. -/
theorem Matched.usesType (h : Matched f n d argument c) (hindex : f.types.reindex = f.types) :
    f.usesType factoryClass := by
  obtain ⟨hc, hholds⟩ := conversion?_eq_some h.conversion
  obtain ⟨id, -, hholds⟩ := (MethodPattern.holds_iff h.data).1 hholds
  cases hm : f.types.methodAt? id with
  | none => simp [MethodPattern.holdsOfType, hm] at hholds
  | some m =>
    simp only [MethodPattern.holdsOfType, hm, Bool.and_eq_true, beq_iff_eq] at hholds
    have hindexed := hindex ▸ TypeTable.indexed_reindex f.types
    refine hindexed.lookupClass_isSome (hholds.1.2.trans ?_) (by decide)
    rw [declaring_conversions c hc]

theorem mem_plan_iff (hf : f.Acyclic) (hindex : f.types.reindex = f.types) {e : Edit} :
    e ∈ (plan f).edits ↔ ∃ n d argument c, f.Reaches n ∧ Matched f n d argument c ∧
      (e = .replaceExpression argument (wrapped argument c) ∨
        e = .retypeInvocation (some n) (resized f d c)) := by
  constructor
  · intro he
    obtain ⟨n, hn, hmem⟩ := mem_plan he
    obtain ⟨d, argument, c, hmatched, he⟩ := mem_nodeEdits.1 hmem
    exact ⟨n, d, argument, c, SourceFile.reaches_of_mem_nodes hn, hmatched, he⟩
  · rintro ⟨n, d, argument, c, hn, hmatched, he⟩
    rw [plan, if_pos (hmatched.usesType hindex), EditSet.mem_ofList, List.mem_flatMap]
    exact ⟨n, (SourceFile.mem_nodes_iff hf n).2 hn, mem_nodeEdits.2 ⟨d, argument, c, hmatched, he⟩⟩

theorem nodup_plan (f : SourceFile) : (plan f).edits.Nodup :=
  Recipe.nodup_editSet .multipartSizes [] 0 f

/-- A node is the argument of one call. -/
theorem Matched.eq_of_argument (h : Matched f n d argument c) (hheld : f.Held) {m n' : NodeId}
    (hm : argument = some m) (hn : f.Reaches n) (hn' : f.Reaches n') {d' : MethodInvocation}
    {c' : Conversion} (h' : Matched f n' d' (some m) c') : n = n' := by
  subst hm
  exact hheld.holder_eq hn' hn h'.holds h.holds

end

/-- A call of a setter is the argument of another one. -/
def Nested (f : SourceFile) : Prop :=
  ∃ n d m method, f.Reaches n ∧ SizeCall f n d (some m) method ∧
    ∃ d' argument' method', SizeCall f m d' argument' method'

section

variable {f : SourceFile} (hheld : f.Held) (hindex : f.types.reindex = f.types)

include hheld

theorem exists_argument (hfull : ∀ n, f.Reaches n → none ∉ f.store.children (some n)) {n : NodeId}
    {d : MethodInvocation} {argument : Ref} {c : Conversion} (hn : f.Reaches n)
    (h : Matched f n d argument c) :
    ∃ m, argument = some m ∧ f.Reaches m ∧ f.store.parent (some m) = some n := by
  have hmem : argument ∈ (NodeData.methodInvocation d).children :=
    NodeData.mem_children_methodInvocation.2 (.inr (.inr (by simp [h.argument])))
  obtain ⟨m, rfl⟩ : ∃ m, argument = some m := by
    refine Option.ne_none_iff_exists'.1 ?_
    rintro rfl
    exact hfull n hn (by rwa [Store.children_eq_of_data? h.data])
  exact ⟨m, rfl, hheld.reaches hn h.holds, hheld.link hn h.holds⟩

include hindex

/-- Each edit can be made. -/
theorem acceptable_of_mem (hfull : ∀ n, f.Reaches n → none ∉ f.store.children (some n)) {e : Edit}
    (he : e ∈ (plan f).edits) : e.Acceptable f := by
  obtain ⟨n, d, argument, c, hn, h, rfl | rfl⟩ := (mem_plan_iff hheld.acyclic hindex).1 he
  · obtain ⟨m, rfl, hm, hparent⟩ := exists_argument hheld hfull hn h
    have hget := (f.store.get?_isSome_iff m).2 hm.lt_size
    simpa [Edit.Acceptable, hparent, ← Snippet.mem_existingNodes_iff, existingNodes_wrapped] using
      hget
  · simp [Edit.Acceptable, Store.kind?, h.data, NodeData.kind]

/-- Two edits of one node are one, unless the node is a call that is to be retyped and replaced. -/
theorem eq_of_target (hnested : ¬ Nested f) {a b : Edit} {m : NodeId} (ha : a ∈ (plan f).edits)
    (hb : b ∈ (plan f).edits) (ham : a.target? = some (some m))
    (hbm : b.target? = some (some m)) : a = b := by
  have hapart : ∀ {n d c n' d' argument' c'}, f.Reaches n → Matched f n d (some m) c →
      Matched f n' d' argument' c' → n' ≠ m := by
    rintro n d c n' d' argument' c' hn h h' rfl
    exact hnested ⟨n, d, n', c.method, hn, h.sizeCall, d', argument', c'.method, h'.sizeCall⟩
  obtain ⟨n, d, argument, c, hn, h, hae⟩ := (mem_plan_iff hheld.acyclic hindex).1 ha
  obtain ⟨n', d', argument', c', hn', h', hbe⟩ := (mem_plan_iff hheld.acyclic hindex).1 hb
  rcases hae with rfl | rfl <;> rcases hbe with rfl | rfl
  · obtain rfl := Option.some.inj ham
    obtain rfl := Option.some.inj hbm
    obtain rfl := h.eq_of_argument hheld rfl hn hn' h'
    rw [(h.unique h').2.2]
  · obtain rfl := Option.some.inj ham
    exact absurd (Option.some.inj (Option.some.inj hbm)) (hapart hn h h')
  · obtain rfl := Option.some.inj hbm
    exact absurd (Option.some.inj (Option.some.inj ham)) (hapart hn' h' h)
  · obtain rfl := Option.some.inj (Option.some.inj ham)
    obtain rfl := Option.some.inj (Option.some.inj hbm)
    obtain ⟨rfl, -, rfl⟩ := h.unique h'
    rfl

/-- The one thing that is wrong with the edits is a call that is to be retyped and replaced. -/
theorem fault?_plan_eq_none_iff (hfull : ∀ n, f.Reaches n → none ∉ f.store.children (some n)) :
    (plan f).fault? f = none ↔ ¬ Nested f := by
  rw [EditSet.fault?_eq_none_iff (nodup_plan f), EditSet.harmonious_iff]
  simp only [Edit.fault?_eq_none_iff_acceptable]
  constructor
  · rintro ⟨-, hharmonious⟩ ⟨n, d, m, method, hn, hsize, d', argument', method', hsize'⟩
    obtain ⟨c, h, -⟩ := hsize.matched
    obtain ⟨c', h', -⟩ := hsize'.matched
    have hm : f.Reaches m := hheld.reaches hn h.holds
    obtain ⟨⟨r, modifier, hremoves⟩, -⟩ := hharmonious
      (.replaceExpression (some m) (wrapped (some m) c))
      ((mem_plan_iff hheld.acyclic hindex).2 ⟨n, d, some m, c, hn, h, .inl rfl⟩)
      (.retypeInvocation (some m) (resized f d' c'))
      ((mem_plan_iff hheld.acyclic hindex).2 ⟨m, d', argument', c', hm, h', .inr rfl⟩)
      (by simp) (some m) rfl rfl
    cases hremoves
  · intro hnested
    refine ⟨fun e he => acceptable_of_mem hheld hindex hfull he, fun a ha b hb hne r har hbr => ?_⟩
    obtain ⟨m, -, rfl⟩ := exists_target (Edit.fault?_eq_none_iff_acceptable.2
      (acceptable_of_mem hheld hindex hfull ha)) har
    exact absurd (eq_of_target hheld hindex hnested ha hb har hbr) hne

end

/-! ## One edit after another -/

/-- Where a draft stands after some edits: an argument that is still to be put into a call is where
it was, and where that is done its place has a call that builds a size. -/
structure Sized (f : SourceFile) (done : List Edit) (d : Draft) : Prop where
  size_le : f.store.size ≤ d.store.size
  sound : d.types.IndexSound
  pending : ∀ {n call m c}, f.Reaches n → Matched f n call (some m) c →
    .replaceExpression (some m) (wrapped (some m) c) ∉ done →
    d.store.parent (some m) = some n ∧
      ∃ type, d.store.data? (some n) = some (.methodInvocation { call with type })
  settled : ∀ {n call m c}, f.Reaches n → Matched f n call (some m) c →
    .replaceExpression (some m) (wrapped (some m) c) ∈ done → call.select ≠ some m →
      call.name ≠ some m →
    ∃ b type,
      d.store.data? (some n) = some (.methodInvocation { call with arguments := [b], type }) ∧
      d.store.Written f.store.size (wrapped (some m) c) b

namespace Sized

variable {f : SourceFile} {done : List Edit} {d d' : Draft} {n m : NodeId} {call : MethodInvocation}
  {c : Conversion}

theorem start (hheld : f.Held) (hsound : f.types.IndexSound) :
    Sized f [] { store := f.store, types := f.types } where
  size_le := Nat.le_refl _
  sound := hsound
  pending hn h _ := ⟨hheld.link hn h.holds, _, h.data⟩
  settled _ _ hmem := absurd hmem (by simp)

/-- Another method for a call. -/
theorem retype (h : Sized f done d) (hn : n < f.store.size) (signature : MethodSignature) :
    ∃ d', d.applyEdit (.retypeInvocation (some n) signature) = .ok d' ∧
      Sized f (.retypeInvocation (some n) signature :: done) d' := by
  obtain ⟨hgrows, -⟩ := TypeTable.internSignature_spec h.sound signature
  have hkeep : ∀ id {k e}, d.store.data? (some k) = some (.methodInvocation e) → ∃ type,
      (d.store.updateData (some n) (.retypeInvocation id)).data? (some k) =
        some (.methodInvocation { e with type }) := by
    intro id k e hk
    rw [Store.data?_updateData]
    split
    · exact ⟨some id, by simp [hk, NodeData.retypeInvocation]⟩
    · exact ⟨e.type, hk⟩
  refine ⟨_, rfl, h.size_le.trans_eq (d.store.size_updateData _ _).symm, hgrows.sound, ?_, ?_⟩
  · intro k call m c hk hmatched hnot
    obtain ⟨hparent, type, hcall⟩ := h.pending hk hmatched (by simpa using hnot)
    obtain ⟨type', hcall'⟩ := hkeep _ hcall
    exact ⟨(d.store.parent_updateData _ _ _).trans hparent, type', hcall'⟩
  · intro k call m c hk hmatched hmem hselect hname
    obtain ⟨b, type, hcall, hwritten⟩ := h.settled hk hmatched (by simpa using hmem) hselect hname
    obtain ⟨type', hcall'⟩ := hkeep _ hcall
    exact ⟨b, type', hcall', hwritten.retained (Store.retains_updateData hn _) (List.Subset.refl _)⟩

/-- Another argument for a call. -/
theorem replace (h : Sized f done d) (hheld : f.Held) (hn : f.Reaches n)
    (hmatched : Matched f n call (some m) c)
    (hnot : .replaceExpression (some m) (wrapped (some m) c) ∉ done) :
    ∃ d', d.applyEdit (.replaceExpression (some m) (wrapped (some m) c)) = .ok d' ∧
      Sized f (.replaceExpression (some m) (wrapped (some m) c) :: done) d' := by
  obtain ⟨hparent, type, hcall⟩ := h.pending hn hmatched hnot
  have hm : m < f.store.size := hheld.lt_size hn hmatched.holds
  have hmd := hm.trans_le h.size_le
  have hmember : d.store.Holds n m := (Store.holds_iff hcall).2
    (NodeData.mem_children_methodInvocation.2 (.inr (.inr (by simp [hmatched.argument]))))
  have hused : Snippet.Usable d.store.size (wrapped (some m) c).existingNodes := by
    rw [existingNodes_wrapped]
    exact ⟨by simpa using hmd, fun k => List.count_le_length⟩
  obtain ⟨d', t, k, hd, hgrows, hgraft, hwritten⟩ :=
    Draft.exists_replacement h.sound h.size_le hparent hmember
      (by simp [wrapped]) hused (by simp [existingNodes_wrapped]) (.inl hn.lt_size)
  have hretains : ∀ used, d.store.Retains d'.store f.store.size used :=
    fun used => hgraft.retains (.inl hn.lt_size)
  -- The other calls are not touched.
  have hother : ∀ {n' m' c' call'}, f.Reaches n' → Matched f n' call' (some m') c' → m' ≠ m →
      d'.store.data? (some n') = d.store.data? (some n') ∧
        d'.store.parent (some m') = d.store.parent (some m') := by
    intro n' m' c' call' hn' hmatched' hne
    have hne' : n' ≠ n := by
      rintro rfl
      exact hne (Option.some.inj (hmatched'.unique hmatched).2.1)
    have hm' := (hheld.lt_size hn' hmatched'.holds).trans_le h.size_le
    exact ⟨hgraft.data?_old (hn'.lt_size.trans_le h.size_le) hne',
      hgraft.parent_old hm' hne (by simpa [existingNodes_wrapped] using hne)⟩
  refine ⟨d', hd, h.size_le.trans hgraft.size_le, hgrows.sound, ?_, ?_⟩
  · intro n' call' m' c' hn' hmatched' hnot'
    obtain ⟨hne, hnot'⟩ := not_or.1 fun h => hnot' (List.mem_cons.2 h)
    have hmne : m' ≠ m := by
      rintro rfl
      obtain rfl := hmatched'.eq_of_argument hheld rfl hn' hn hmatched
      exact hne (by rw [(hmatched'.unique hmatched).2.2])
    obtain ⟨hdata, hlink⟩ := hother hn' hmatched' hmne
    rw [hdata, hlink]
    exact h.pending hn' hmatched' hnot'
  · intro n' call' m' c' hn' hmatched' hmem hselect hname
    by_cases hmm : m' = m
    · subst hmm
      obtain rfl := hmatched'.eq_of_argument hheld rfl hn' hn hmatched
      obtain ⟨rfl, -, rfl⟩ := hmatched'.unique hmatched
      obtain ⟨y, hy, hdata⟩ := hgraft.data?_holder hcall
      obtain rfl := Option.some.inj ((NodeData.replaceChild_argument (d := { call' with type })
        hselect hname hmatched.argument).symm.trans hy)
      exact ⟨some k, type, hdata, hwritten⟩
    · obtain ⟨b, type', hcall', hwritten'⟩ := h.settled hn' hmatched'
        ((List.mem_cons.1 hmem).resolve_left (by simpa using fun heq => absurd heq hmm))
        hselect hname
      exact ⟨b, type', (hother hn' hmatched' hmm).1.trans hcall',
        hwritten'.retained (hretains _) (List.Subset.refl _)⟩

end Sized

/-! ## All edits -/

section

variable {f g : SourceFile}

/-- Without nested calls all edits are made. -/
theorem exists_sized (hheld : f.Held) (hindex : f.types.reindex = f.types)
    (hfull : ∀ n, f.Reaches n → none ∉ f.store.children (some n)) :
    ∃ d, Draft.applyEdits { store := f.store, types := f.types } (plan f).edits = .ok d ∧
      Sized f (plan f).edits.reverse d := by
  have hsound : f.types.IndexSound := hindex ▸ (TypeTable.indexed_reindex f.types).sound
  refine Draft.exists_applyEdits (.start hheld hsound) fun {done e rest d} hsplit h => ?_
  have hmem : e ∈ (plan f).edits := by simp [hsplit]
  have hnot : e ∉ done := by
    have hnodup := nodup_plan f
    rw [hsplit] at hnodup
    intro he
    exact (List.nodup_append.1 hnodup).2.2 e (List.mem_reverse.2 he) e List.mem_cons_self rfl
  obtain ⟨n, call, argument, c, hn, hmatched, rfl | rfl⟩ :=
    (mem_plan_iff hheld.acyclic hindex).1 hmem
  · obtain ⟨m, rfl, -⟩ := exists_argument hheld hfull hn hmatched
    exact h.replace hheld hn hmatched hnot
  · exact h.retype hn.lt_size _

theorem apply_plan_ok_iff (hheld : f.Held) (hindex : f.types.reindex = f.types)
    (hfull : ∀ n, f.Reaches n → none ∉ f.store.children (some n)) :
    (∃ g, (plan f).apply f = .ok g) ↔ ¬ Nested f := by
  rw [← fault?_plan_eq_none_iff hheld hindex hfull]
  constructor
  · rintro ⟨g, hg⟩
    exact (EditSet.apply_eq_ok hg).1
  · intro hfault
    obtain ⟨d, hd, -⟩ := exists_sized hheld hindex hfull
    exact EditSet.exists_apply hfault hd

/-- A node that is no call of a setter keeps its payload. -/
theorem data?_eq_of_unmatched (hheld : f.Held) (hindex : f.types.reindex = f.types)
    (happly : (plan f).apply f = .ok g) {n : NodeId} (hn : f.Reaches n)
    (hno : ∀ d argument c, ¬ Matched f n d argument c) :
    g.store.data? (some n) = f.store.data? (some n) := by
  have hsound : f.types.IndexSound := hindex ▸ (TypeTable.indexed_reindex f.types).sound
  refine (EditSet.apply_frame hsound happly).data?_eq hn.lt_size (fun e he htarget => ?_) ?_
  · obtain ⟨n', d, argument, c, -, hmatched, rfl | rfl⟩ := (mem_plan_iff hheld.acyclic hindex).1 he
    · rfl
    · obtain rfl : n' = n := by simpa [Edit.target?] using htarget
      exact absurd hmatched (hno d argument c)
  · rintro ⟨r, ⟨snippet, he⟩, hparent⟩
    obtain ⟨n', d, argument, c, hn', hmatched, heq | heq⟩ :=
      (mem_plan_iff hheld.acyclic hindex).1 he
    · obtain ⟨rfl, -⟩ := Edit.replaceExpression.inj heq
      obtain ⟨m, rfl⟩ : ∃ m, r = some m := by
        cases r with
        | none => simp [Store.parent, Store.get?] at hparent
        | some m => exact ⟨m, rfl⟩
      obtain rfl : n' = n := Option.some.inj ((hheld.link hn' hmatched.holds).symm.trans hparent)
      exact hno d _ c hmatched
    · cases heq

/-- The arguments of calls of setters are in no other slots of the calls. -/
def Apart (f : SourceFile) : Prop :=
  ∀ n d argument method, f.Reaches n → SizeCall f n d argument method →
    d.select ≠ argument ∧ d.name ≠ argument

/-- A call whose argument has been put into a call prints so. -/
theorem layout_settled {t : Store} {n m limit : NodeId} {call : MethodInvocation} {b : Ref}
    {type : Option TypeId} {c : Conversion}
    (hdata : t.data? (some n) = some (.methodInvocation { call with arguments := [b], type }))
    (hargument : call.arguments = [some m]) (hwritten : t.Written limit (wrapped (some m) c) b)
    (hacyclic : ∀ r ∈ (NodeData.methodInvocation call).children, t.Acyclic r) :
    t.Acyclic (some n) ∧ t.layout .expression (some n) =
      Layout.call (call.select.map fun k => t.layout .expression (some k))
        (t.layout .expression call.name)
        [Layout.call (some [.text "DataSize"]) [.text c.method]
          [t.layout .expression (some m)]] := by
  have hm : t.Acyclic (some m) := hacyclic (some m)
    (NodeData.mem_children_methodInvocation.2 (.inr (.inr (by simp [hargument]))))
  obtain ⟨hb, hblayout⟩ :=
    hwritten.layout_eq (by simpa [Store.Printable, existingNodes_wrapped] using hm)
  have hn : t.Acyclic (some n) := by
    refine Store.acyclic_of_children fun r hr => ?_
    rw [Store.children_eq_of_data? hdata] at hr
    rcases NodeData.mem_children_methodInvocation.1 hr with hr | hr | hr
    · exact hacyclic r (NodeData.mem_children_methodInvocation.2 (.inl hr))
    · exact hacyclic r (NodeData.mem_children_methodInvocation.2 (.inr (.inl hr)))
    · obtain rfl := List.mem_singleton.1 hr
      exact hb
  have hsize : ClassName.simple dataSize = "DataSize" := by decide +kernel
  refine ⟨hn, ?_⟩
  rw [Store.layout_eq_layoutAt hn hdata, Store.layoutAt, Store.layoutExpression_methodInvocation,
    List.map_singleton, hblayout]
  simp only [wrapped, Snippet.template, Snippet.templateOption, Snippet.templateList, hsize]

/-- Each call of a setter is spelled anew, and nothing else. -/
theorem rewrites (hheld : f.Held) (hindex : f.types.reindex = f.types)
    (hfull : ∀ n, f.Reaches n → none ∉ f.store.children (some n)) (hapart : Apart f)
    (happly : (plan f).apply f = .ok g) : f.store.Rewrites g.store f.root id (sizedCall f) := by
  refine ⟨hheld.lt_size, ?_, ?_⟩
  · intro n x hn hx hother
    refine ⟨x, ?_, .refl (fun a => (Option.map_id_apply).symm) x⟩
    refine (data?_eq_of_unmatched hheld hindex happly hn fun d argument c hmatched => ?_).trans hx
    have hsome := sizedCall_eq_some_iff.2 ⟨d, argument, c.method, hmatched.sizeCall, rfl⟩
    simp [hother] at hsome
  · intro n spell hn hother
    obtain ⟨call, argument, method, hsize, rfl⟩ := sizedCall_eq_some_iff.1 hother
    obtain ⟨c, hmatched, rfl⟩ := hsize.matched
    obtain ⟨hselect, hname⟩ := hapart n call argument c.method hn hsize
    obtain ⟨m, rfl, -⟩ := exists_argument hheld hfull hn hmatched
    obtain ⟨hfault, d, hd, rfl⟩ := EditSet.apply_eq_ok happly
    obtain ⟨d', hd', hsized⟩ := exists_sized hheld hindex hfull
    obtain rfl := Except.ok.inj (hd.symm.trans hd')
    obtain ⟨b, type, hdata, hwritten⟩ := hsized.settled hn hmatched (List.mem_reverse.2
      ((mem_plan_iff hheld.acyclic hindex).2 ⟨n, call, some m, c, hn, hmatched, .inl rfl⟩))
      hselect hname
    refine ⟨call, _, hmatched.data, hdata, fun hacyclic => ?_⟩
    obtain ⟨hn, hlayout⟩ := layout_settled hdata hmatched.argument hwritten fun r hr => by
      simpa using hacyclic r hr
    refine ⟨hn, fun text htext => hlayout.trans ?_⟩
    simp only [id, Option.map_id] at htext
    obtain ⟨hselect, hname, harguments⟩ := NodeData.among_methodInvocation call
    have hreceiver : (call.select.map fun k => d.store.layout .expression (some k)) =
        call.select.map fun k => text (some k) :=
      Option.map_congr fun k hk => (htext (some k) (hk ▸ hselect)).symm
    rw [hreceiver, ← htext _ hname, ← htext _ (harguments (some m) (by simp [hmatched.argument]))]

/-- The call has another method, which takes a size and is otherwise spelled as the one that it
had. -/
def TakesSize (f g : SourceFile) (n : NodeId) (d : MethodInvocation) : Prop :=
  ∃ id m d' id' m', d.type = some id ∧ f.types.methodAt? id = some m ∧
    g.store.data? (some n) = some (.methodInvocation d') ∧ d'.type = some id' ∧
    g.types.methodAt? id' = some m' ∧
    g.types.name? m'.declaring = f.types.name? m.declaring ∧ m'.name = m.name ∧
    m'.returns.bind g.types.name? = m.returns.bind f.types.name? ∧
      m'.params.map g.types.name? = [some dataSize]

theorem takesSize (hheld : f.Held) (hindex : f.types.reindex = f.types)
    (happly : (plan f).apply f = .ok g) {n : NodeId} {d : MethodInvocation} {argument : Ref}
    {c : Conversion} (hn : f.Reaches n) (h : Matched f n d argument c) : TakesSize f g n d := by
  have hsound : f.types.IndexSound := hindex ▸ (TypeTable.indexed_reindex f.types).sound
  obtain ⟨hc, hholds⟩ := conversion?_eq_some h.conversion
  obtain ⟨id, hid, hholds⟩ := (MethodPattern.holds_iff h.data).1 hholds
  obtain ⟨m, hm⟩ : ∃ m, f.types.methodAt? id = some m := by
    refine Option.isSome_iff_exists.1 (Option.isSome_iff_ne_none.2 fun hnone => ?_)
    simp [MethodPattern.holdsOfType, hnone] at hholds
  simp only [MethodPattern.holdsOfType, hm, Bool.and_eq_true, beq_iff_eq] at hholds
  obtain ⟨⟨hname, hclass⟩, -⟩ := hholds
  obtain ⟨hfault, draft, hd, rfl⟩ := EditSet.apply_eq_ok happly
  have hwritten := Draft.Rewritten.run hsound (fun e he => isRewriting_of_mem he)
    (fun e he r hr => exists_target ((EditSet.fault?_eq_none hfault).1 e he) hr) hd
  have hretype : .retypeInvocation (some n) (resized f d c) ∈ (plan f).edits.reverse :=
    List.mem_reverse.2 ((mem_plan_iff hheld.acyclic hindex).2 ⟨n, d, argument, c, hn, h, .inr rfl⟩)
  obtain ⟨y, hy, hxy⟩ := hwritten.old h.data
  cases hxy with
  | kept hno => exact absurd hretype (hno _)
  | @retyped signature id' m' hsignature hm' hspells hslots =>
    obtain ⟨n', d', argument', c', -, h', heq | heq⟩ :=
      (mem_plan_iff hheld.acyclic hindex).1 (List.mem_reverse.1 hsignature)
    · cases heq
    · obtain ⟨hnn, rfl⟩ := Edit.retypeInvocation.inj heq
      obtain rfl := Option.some.inj hnn
      obtain ⟨rfl, -, rfl⟩ := h.unique h'
      obtain ⟨d', rfl, htype, -⟩ := hslots.of_methodInvocation
      refine ⟨id, m, d', id', m', hid, hm, hy, htype, hm', ?_, hspells.name.trans hname.symm, ?_,
        hspells.params⟩
      · exact hspells.declaring.trans
          ((congrArg some (declaring_conversions c hc).symm).trans hclass.symm)
      · rw [hspells.bind_returns]
        simp [resized, returnName?, hid, hm]

/-- The run fails just if a call of a setter is the argument of another one. If it goes through, the
text of the file has its calls of setters spelled anew, at any depth, provided their arguments are
in no other slots of theirs; the calls have methods that take sizes, and all other nodes have the
payloads that they had. -/
theorem run_sized {unit : CompilationUnit} (hheld : f.Held)
    (hfull : ∀ n, f.Reaches n → none ∉ f.store.children (some n))
    (hunit : f.store.data? f.root = some (.compilationUnit unit))
    (hindex : f.types.reindex = f.types) :
    ((∃ error, run [f] = .error error) ↔ Nested f) ∧
    ∀ changes, run [f] = .ok changes → ∃ g, merge [f] changes = [g] ∧
      (Apart f → g.print = f.printWith (sizedCall f)) ∧
      (∀ n d argument method, f.Reaches n → SizeCall f n d argument method → TakesSize f g n d) ∧
      ∀ n, f.Reaches n → (∀ d argument method, ¬ SizeCall f n d argument method) →
        g.store.data? (some n) = f.store.data? (some n) := by
  have hok : (∃ changes, run [f] = .ok changes) ↔ ¬ Nested f :=
    changeFiles_singleton_ok_iff.trans (apply_plan_ok_iff hheld hindex hfull)
  refine ⟨⟨?_, ?_⟩, fun changes hrun => ?_⟩
  · rintro ⟨error, herror⟩
    by_contra hnested
    obtain ⟨changes, hchanges⟩ := hok.2 hnested
    rw [herror] at hchanges
    cases hchanges
  · intro hnested
    cases hrun : run [f] with
    | error error => exact ⟨error, rfl⟩
    | ok changes => exact absurd hnested (hok.1 ⟨changes, hrun⟩)
  · obtain ⟨g, hg, happly⟩ := exists_merge_singleton hrun
    refine ⟨g, hg, fun hapart => ?_, fun n d argument method hn hsize => ?_, fun n hn hno => ?_⟩
    · obtain ⟨-, d, -, heq⟩ := EditSet.apply_eq_ok happly
      have hroot : g.root = f.root.map id := by rw [heq, Option.map_id, id]
      exact SourceFile.print_of_rewrites hheld.acyclic hunit hroot
        (rewrites hheld hindex hfull hapart happly)
    · obtain ⟨c, hmatched, -⟩ := hsize.matched
      exact takesSize hheld hindex happly hn hmatched
    · exact data?_eq_of_unmatched hheld hindex happly hn fun d argument c hmatched =>
        hno d argument _ hmatched.sizeCall

end

/-- Three calls of setters: one is the receiver of another one, whose argument has the third one in
it. -/
def settingsFile : SourceFile :=
  let d : Draft := {}
  let (factory, d) := d.classType factoryClass
  let (string, d) := d.classType stringClass
  let (sizes, d) := d.classType "sample.Sizes"
  let (long, d) := d.primitive .long
  let (int, d) := d.primitive .int
  let (threshold, d) := d.methodType {
    declaring := factory, name := "setFileSizeThreshold", returns := some factory, params := [int] }
  let (request, d) := d.methodType {
    declaring := factory, name := "setMaxRequestSize", returns := some long, params := [string] }
  let (file, d) := d.methodType {
    declaring := factory, name := "setMaxFileSize", returns := none, params := [long] }
  let (twice, d) := d.methodType {
    declaring := sizes, name := "twice", returns := some long, params := [long] }
  let (bytes, d) := d.literal (.int 4096)
  let (receiver, d) := d.invoke none threshold [some bytes]
  let (text, d) := d.stringLiteral "10MB"
  let (inner, d) := d.invoke none request [some text]
  let (argument, d) := d.invoke none twice [some inner]
  let (outer, d) := d.invoke (some receiver) file [some argument]
  let (body, d) := d.block [some outer]
  let (method, d) := d.method { name := "configure", body := some body }
  let (c, d) := d.classDeclaration { name := "Settings", members := [some method] }
  d.finish "Settings.java" none [] [some c]

/-- All three are spelled anew. -/
theorem run_sized_settingsFile :
    ∃ changes g, run [settingsFile] = .ok changes ∧ merge [settingsFile] changes = [g] ∧
    g.print = "class Settings \x7b\n    configure() \x7b\n        " ++
      "setFileSizeThreshold(DataSize.ofBytes(4096)).setMaxFileSize(DataSize.ofBytes(" ++
      "twice(setMaxRequestSize(DataSize.parse(\"10MB\")))));\n    \x7d\n\x7d\n" := by
  have hfull : ∀ n < settingsFile.store.size, none ∉ settingsFile.store.children (some n) := by
    decide +kernel
  have hapart : ∀ n < settingsFile.store.size, ∀ d ∈ settingsFile.store.invocation? (some n),
      d.select ∉ d.arguments ∧ d.name ∉ d.arguments := by decide +kernel
  have hunit : settingsFile.store.data? settingsFile.root =
      some (.compilationUnit { packageName := none, imports := [], classes := [some 15] }) := by
        decide +kernel
  have hrun : run [settingsFile] = .ok ((run [settingsFile]).toOption.getD []) := by decide +kernel
  obtain ⟨g, hg, hprint, -⟩ := (run_sized (SourceFile.held_of_forall (by decide +kernel))
    (fun n hn => hfull n hn.lt_size) hunit (by decide +kernel)).2 _ hrun
  refine ⟨_, g, hrun, hg, (hprint fun n d argument method hn hsize => ?_).trans (by decide +kernel)⟩
  obtain ⟨hselect, hname⟩ := hapart n hn.lt_size d (Store.invocation?_eq_some.2 hsize.data)
  simp only [hsize.argument, List.mem_singleton] at hselect hname
  exact ⟨hselect, hname⟩

/-- A call with its receiver as its argument. -/
def sharedFile : SourceFile where
  path := "A.java"
  store := { nodes := #[
    ⟨some 2, .identifier { name := "size", type := none, variableType := none }⟩,
    ⟨some 2, .identifier { name := "setMaxFileSize", type := none, variableType := none }⟩,
    ⟨some 3, .methodInvocation {
      select := some 0, name := some 1, arguments := [some 0], type := some 2 }⟩,
    ⟨none, .compilationUnit { packageName := none, imports := [], classes := [some 2] }⟩] }
  types := {
    entries := #[.classType ⟨factoryClass, none⟩, .primitive .long,
      .method { declaring := 0, name := "setMaxFileSize", returns := none, params := [1] }]
    classes := [(factoryClass, 0)] }
  root := some 3

/-- The receiver gives way, which is the first slot of the call that has the node, and not the
argument. -/
theorem run_sharedFile : sharedFile.Held ∧
    (∀ n, sharedFile.Reaches n → none ∉ sharedFile.store.children (some n)) ∧
    sharedFile.store.data? sharedFile.root =
      some (.compilationUnit { packageName := none, imports := [], classes := [some 2] }) ∧
    sharedFile.types.reindex = sharedFile.types ∧
    ∃ changes g, run [sharedFile] = .ok changes ∧ merge [sharedFile] changes = [g] ∧
      sharedFile.printWith (sizedCall sharedFile) =
        "size.setMaxFileSize(DataSize.ofBytes(size));\n" ∧
      g.print = "DataSize.ofBytes(size).setMaxFileSize(size);\n" := by
  have hfull : ∀ n < sharedFile.store.size, none ∉ sharedFile.store.children (some n) := by
    decide +kernel
  have hrun : run [sharedFile] = .ok ((run [sharedFile]).toOption.getD []) := by decide +kernel
  obtain ⟨g, hg, -⟩ := exists_merge_singleton hrun
  have hprint : (merge [sharedFile] ((run [sharedFile]).toOption.getD [])).map (·.print) =
      ["DataSize.ofBytes(size).setMaxFileSize(size);\n"] := by decide +kernel
  rw [hg] at hprint
  exact ⟨SourceFile.held_of_forall (by decide +kernel), fun n hn => hfull n hn.lt_size,
    by decide +kernel,
    by decide +kernel, _, g, hrun, hg, by decide +kernel, (List.cons.inj hprint).1⟩

end MultipartSizes

end JavaRecipes
