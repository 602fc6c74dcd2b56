import JavaRecipes.Proofs.Edit.Settling

/-!
Which edits of a set have taken effect in the file that it gives. A change of a literal, an
identifier or the modifiers of a declaration always has. A rename in the type table is made on top
of the earlier ones and may be passed over or undone: all edits land when their renames agree and no
edit builds on them (`EditSet.apply_lands`).
-/

namespace JavaRecipes

namespace Edit

/-- What the edit was to do to `f` is so in `g`. Nothing is asked of a replacement, which another
one may move, or of a class that `f` does not know. -/
def Landed (f g : SourceFile) : Edit → Prop
  | .setLiteral r value => (g.store.literal? r).map (·.value) = some value
  | .replaceExpression _ _ => True
  | .renameIdentifier r name => g.store.identifierText? r = some name
  | .removeModifier r kind =>
    ∃ modifiers, (g.store.data? r).bind NodeData.modifiers? = some modifiers ∧
      hasModifier modifiers kind = false
  | .renameClassType source target =>
    ∀ id, f.types.lookupClass source = some id → g.types.className? id = some target
  | .renameMethodType id name => (g.types.methodAt? id).map (·.name) = some name
  | .retypeInvocation r signature =>
    ∃ call id m, g.store.invocation? r = some call ∧ call.type = some id ∧
      g.types.methodAt? id = some m ∧ g.types.Spells m signature

/-- The edit changes one payload and no type. -/
def IsLocal : Edit → Prop
  | .setLiteral _ _ | .renameIdentifier _ _ | .removeModifier _ _ => True
  | _ => False

/-- The class names that an edit takes away or gives. -/
def classNames : Edit → List String
  | .renameClassType source target => [source, target]
  | _ => []

end Edit

namespace TypeTable

/-- An entry still spells a signature if the names in it stay. -/
theorem Spells.of_names {t t' : TypeTable} {m : MethodType} {signature : MethodSignature}
    (h : t.Spells m signature)
    (hkeep : ∀ name ∈ signature.typeNames, ∀ id, t.name? id = some name → t'.name? id = some name) :
    t'.Spells m signature := by
  refine ⟨h.name, hkeep _ List.mem_cons_self _ h.declaring, ?_, ?_⟩
  · rw [← h.returns]
    refine Option.map_congr fun i hi => ?_
    have hreturns : some (t.name? i) = signature.returns.map some := by rw [← h.returns, hi]; rfl
    obtain ⟨name, hname, heq⟩ := Option.map_eq_some_iff.1 hreturns.symm
    rw [← heq]
    exact hkeep name (by simp [MethodSignature.typeNames, hname]) i heq.symm
  · rw [← h.params]
    refine List.map_congr_left fun i hi => ?_
    have hmem : t.name? i ∈ signature.params.map some := h.params ▸ List.mem_map_of_mem hi
    obtain ⟨name, hname, heq⟩ := List.mem_map.1 hmem
    rw [← heq]
    exact hkeep name (by simp [MethodSignature.typeNames, hname]) i heq.symm

theorem exists_renameClass {t : TypeTable} {source target : String} {id : TypeId}
    (hid : t.lookupClass source = some id) (hfree : t.lookupClass target = none) :
    ∃ t', t.renameClass source target = some t' := by
  simp only [renameClass, hid, hfree]
  split
  · exact ⟨_, rfl⟩
  · exact ⟨_, rfl⟩

theorem renameClass_eq_none {t : TypeTable} {source target : String}
    (h : t.lookupClass source = none) :
    t.renameClass source target = none := by
  simp only [renameClass, h]

theorem getD_renameClass_self (t : TypeTable) (name : String) :
    (t.renameClass name name).getD t = t := by
  cases hrename : t.renameClass name name with
  | none => rfl
  | some t' =>
    rcases renameClass_cases hrename with ⟨-, rfl⟩ | ⟨_, hne, -⟩
    · rfl
    · exact absurd rfl hne

end TypeTable

/-! ## Renames that do not compete -/

namespace EditSet

/-- Renames of one method have one name for it, and renames of known classes pair names one to
one. -/
structure Agreed (s : EditSet) (f : SourceFile) : Prop where
  methods : ∀ {id name name'}, .renameMethodType id name ∈ s.edits →
    .renameMethodType id name' ∈ s.edits →
    name = name'
  sources : ∀ {a b b'}, (f.types.lookupClass a).isSome → .renameClassType a b ∈ s.edits →
    .renameClassType a b' ∈ s.edits → b = b'
  targets : ∀ {a a' b}, (f.types.lookupClass a).isSome → (f.types.lookupClass a').isSome →
    .renameClassType a b ∈ s.edits → .renameClassType a' b ∈ s.edits → a = a'

/-- No edit builds on a rename: the new name of a class is not renamed again, class names that
change are not used otherwise, and a method that a call is pointed at does not lose its name. -/
structure Separate (s : EditSet) (f : SourceFile) : Prop where
  chains : ∀ {a b c}, (f.types.lookupClass a).isSome → .renameClassType a b ∈ s.edits →
    .renameClassType b c ∈ s.edits → a = b ∨ b = c
  names : ∀ e ∈ s.edits, ∀ e' ∈ s.edits, ∀ name ∈ e.classNames, name ∉ e'.typeNames
  methods : ∀ {id name r signature m}, .renameMethodType id name ∈ s.edits →
    .retypeInvocation r signature ∈ s.edits → f.types.methodAt? id = some m →
      m.name = signature.name →
    name = signature.name

/-- A set that passes the check, with renames that agree and that no edit builds on. -/
structure Coherent (s : EditSet) (f : SourceFile) : Prop where
  faults : ∀ e ∈ s.edits, e.fault? f = none
  agreed : s.Agreed f
  separate : s.Separate f

end EditSet

/-- By the renames that were made, the name is that of the class at `id`: it was and was not given
up, or it was given. -/
def ComesTo (f : SourceFile) (done : List Edit) (name : String) (id : TypeId) : Prop :=
  f.types.lookupClass name = some id ∧
    (∀ target, .renameClassType name target ∈ done → target = name) ∨
  ∃ source, source ≠ name ∧ f.types.lookupClass source = some id ∧
    .renameClassType source name ∈ done

namespace ComesTo

variable {f : SourceFile} {done : List Edit} {source target name : String} {id : TypeId}

theorem cons_iff_of_mem {e : Edit} (h : e ∈ done) :
    ComesTo f (e :: done) name id ↔ ComesTo f done name id := by
  have hmem : ∀ a, a ∈ e :: done ↔ a ∈ done := by
    intro a
    rw [List.mem_cons]
    exact ⟨fun ha => ha.elim (fun heq => heq ▸ h) fun ha => ha, .inr⟩
  simp only [ComesTo, hmem]

theorem cons_iff_of_ne {e : Edit} (h : ∀ source target, e ≠ .renameClassType source target) :
    ComesTo f (e :: done) name id ↔ ComesTo f done name id := by
  have hmem : ∀ a b, .renameClassType a b ∈ e :: done ↔ .renameClassType a b ∈ done := by
    intro a b
    rw [List.mem_cons]
    exact ⟨fun hab => hab.resolve_left (h a b).symm, .inr⟩
  simp only [ComesTo, hmem]

/-- A rename to the same name does nothing, and so does one of a class that is not known. -/
theorem cons_iff_of_idle (h : source = target ∨ f.types.lookupClass source = none) :
    ComesTo f (.renameClassType source target :: done) name id ↔ ComesTo f done name id := by
  simp only [ComesTo, List.mem_cons, Edit.renameClassType.injEq]
  grind

/-- A rename of a known class takes its name to a free one. -/
theorem cons_iff_of_free (hsource : f.types.lookupClass source = some id)
    (hgiven : ∀ a, a ≠ source → .renameClassType a source ∈ done → f.types.lookupClass a = none)
    (hfree : ∀ id', ¬ComesTo f done target id') (hne : source ≠ target) (id' : TypeId) :
    ComesTo f (.renameClassType source target :: done) name id' ↔
      if name = target then id' = id else if name = source then False
        else ComesTo f done name id' := by
  simp only [ComesTo, List.mem_cons, Edit.renameClassType.injEq] at *
  by_cases ht : name = target
  · subst ht
    grind
  · by_cases hs : name = source
    · subst hs
      grind
    · grind

end ComesTo

namespace EditSet.Coherent

variable {f : SourceFile} {s : EditSet} {done : List Edit} {source target : String} {id : TypeId}

/-- A known class is not the target of another one: the check of the edits looks at that. -/
theorem lookupClass_of_given (hs : s.Coherent f) (hdone : ∀ a ∈ done, a ∈ s.edits)
    (hsource : f.types.lookupClass source = some id) {a : String} (hne : a ≠ source)
    (ha : .renameClassType a source ∈ done) : f.types.lookupClass a = none := by
  by_contra hlive
  have hnone :=
    Edit.lookupClass_of_fault? (hs.faults _ (hdone _ ha)) hne (Option.isSome_iff_ne_none.2 hlive)
  rw [hsource] at hnone
  cases hnone

/-- A class that the file does not know is not known later. -/
theorem not_comesTo_of_none (hs : s.Coherent f) (hdone : ∀ a ∈ done, a ∈ s.edits)
    (he : .renameClassType source target ∈ s.edits) (hne : source ≠ target)
    (hsource : f.types.lookupClass source = none) : ¬ComesTo f done source id := by
  rintro (⟨hid, -⟩ | ⟨b, hb, hlive, hmem⟩)
  · rw [hsource] at hid
    cases hid
  · have hchain := hs.separate.chains (Option.isSome_of_eq_some hlive) (hdone _ hmem) he
    exact hchain.elim hb hne

/-- A class that was renamed has given its name up. -/
theorem not_comesTo_of_mem (hs : s.Coherent f) (hdone : ∀ a ∈ done, a ∈ s.edits)
    (he : .renameClassType source target ∈ done) (hne : source ≠ target) {id₀ : TypeId}
    (hsource : f.types.lookupClass source = some id₀) : ¬ComesTo f done source id := by
  rintro (⟨-, hkept⟩ | ⟨b, hb, hlive, hmem⟩)
  · exact hne (hkept target he).symm
  · rw [hs.lookupClass_of_given hdone hsource hb hmem] at hlive
    cases hlive

/-- A class that is still to be renamed has its name. -/
theorem comesTo_source (hs : s.Coherent f) (hdone : ∀ a ∈ done, a ∈ s.edits)
    (he : .renameClassType source target ∈ s.edits) (hnew : .renameClassType source target ∉ done)
    (hsource : f.types.lookupClass source = some id) : ComesTo f done source id := by
  refine .inl ⟨hsource, fun c hc => ?_⟩
  have heq := hs.agreed.sources (Option.isSome_of_eq_some hsource) he (hdone _ hc)
  exact absurd (heq ▸ hc) hnew

/-- The name that a class is still to get is free. -/
theorem not_comesTo_target (hs : s.Coherent f) (hdone : ∀ a ∈ done, a ∈ s.edits)
    (he : .renameClassType source target ∈ s.edits) (hnew : .renameClassType source target ∉ done)
    (hne : source ≠ target) {id₀ : TypeId} (hsource : f.types.lookupClass source = some id₀) :
    ¬ComesTo f done target id := by
  have hlive := Option.isSome_of_eq_some hsource
  rintro (⟨hknown, -⟩ | ⟨b, -, hb, hmem⟩)
  · rw [Edit.lookupClass_of_fault? (hs.faults _ he) hne hlive] at hknown
    cases hknown
  · have heq := hs.agreed.targets hlive (Option.isSome_of_eq_some hb) he (hdone _ hmem)
    exact hnew (heq ▸ hmem)

end EditSet.Coherent

namespace Draft

/-- What edits that agree and do not build on each other have made of a file: class names stand
where the renames took them, and calls are of the methods that they were pointed at. -/
structure Landing (s : EditSet) (f : SourceFile) (done : List Edit) (d : Draft) : Prop extends
    Settling f done d where
  placed : ∀ e ∈ s.edits, ∀ name ∈ e.classNames, ∀ id,
    d.types.lookupClass name = some id ↔ ComesTo f done name id
  calls : ∀ {n signature}, .retypeInvocation (some n) signature ∈ done → ∃ call id m,
    d.store.data? (some n) = some (.methodInvocation call) ∧ call.type = some id ∧
      d.types.methodAt? id = some m ∧ d.types.Spells m signature

namespace Landing

variable {s : EditSet} {f : SourceFile} {done : List Edit} {d d' : Draft} {e : Edit}

theorem start (hsound : f.types.IndexSound) :
    Landing s f [] { store := f.store, types := f.types } where
  toSettling := .start hsound
  placed := by simp [ComesTo]
  calls := by simp

/-- A class rename takes its class along, or has nothing to do. -/
theorem step_renameClass (h : Landing s f done d) (hs : s.Coherent f)
    (hdone : ∀ a ∈ done, a ∈ s.edits) {source target : String}
    (he : .renameClassType source target ∈ s.edits) {a : Edit} (ha : a ∈ s.edits) {name : String}
    (hname : name ∈ a.classNames) (id : TypeId) :
    ((d.types.renameClass source target).getD d.types).lookupClass name = some id ↔
      ComesTo f (.renameClassType source target :: done) name id := by
  have hold := h.placed a ha name hname id
  have hsource := h.placed _ he source (by simp [Edit.classNames])
  have htarget := h.placed _ he target (by simp [Edit.classNames])
  have hidle : (∀ id, ¬ComesTo f done source id) → d.types.renameClass source target = none := by
    intro hnone
    refine TypeTable.renameClass_eq_none (Option.eq_none_iff_forall_ne_some.2 fun id hid => ?_)
    exact hnone id ((hsource id).1 hid)
  by_cases hne : source = target
  · subst hne
    rwa [TypeTable.getD_renameClass_self, ComesTo.cons_iff_of_idle (.inl rfl)]
  cases hid : f.types.lookupClass source with
  | none =>
    rwa [hidle fun _ => hs.not_comesTo_of_none hdone he hne hid,
      ComesTo.cons_iff_of_idle (.inr hid)]
  | some id₀ =>
    by_cases hmem : .renameClassType source target ∈ done
    · rwa [hidle fun _ => hs.not_comesTo_of_mem hdone hmem hne hid, ComesTo.cons_iff_of_mem hmem]
    · have hfree : ∀ id', ¬ComesTo f done target id' :=
        fun _ => hs.not_comesTo_target hdone he hmem hne hid
      have hstands := (hsource id₀).2 (hs.comesTo_source hdone he hmem hid)
      have hnone : d.types.lookupClass target = none :=
        Option.eq_none_iff_forall_ne_some.2 fun id' hid' => hfree id' ((htarget id').1 hid')
      obtain ⟨t, ht⟩ := TypeTable.exists_renameClass hstands hnone
      rw [ht, Option.getD_some, TypeTable.lookupClass_renameClass ht hne,
        ComesTo.cons_iff_of_free hid (fun _ => hs.lookupClass_of_given hdone hid) hfree hne]
      split
      · rw [hstands, Option.some.injEq, eq_comm]
      · split
        · simp
        · exact hold

theorem step_placed (h : Landing s f done d) (hs : s.Coherent f)
    (hdone : ∀ a ∈ e :: done, a ∈ s.edits) (hd : d.applyEdit e = .ok d') {a : Edit}
    (ha : a ∈ s.edits) {name : String} (hname : name ∈ a.classNames) (id : TypeId) :
    d'.types.lookupClass name = some id ↔ ComesTo f (e :: done) name id := by
  have he := hdone e List.mem_cons_self
  rcases applyEdit_table h.sound hd with ⟨-, hinterns, hne, -⟩ | ⟨source, target, rfl, htypes⟩ |
    ⟨id', name', rfl, htypes⟩
  · rw [hinterns.lookupClass_of_not_mem (hs.separate.names a ha e he name hname),
      ComesTo.cons_iff_of_ne hne]
    exact h.placed a ha name hname id
  · rw [htypes]
    exact h.step_renameClass hs (fun a ha => hdone a (List.mem_cons_of_mem _ ha)) he ha hname id
  · rw [TypeTable.lookupClass_renameMethod htypes, ComesTo.cons_iff_of_ne (by simp)]
    exact h.placed a ha name hname id

/-- A method that a call was pointed at has its first name or that of an edit; the next edit has no
other. -/
theorem name_eq_of_renameMethodType (h : Landing s f done d) (hs : s.Coherent f)
    (hdone : ∀ a ∈ done, a ∈ s.edits) {id : TypeId} {name : String}
    (he : .renameMethodType id name ∈ s.edits) {r : Ref} {signature : MethodSignature}
    (hretype : .retypeInvocation r signature ∈ s.edits) {m : MethodType}
    (hm : d.types.methodAt? id = some m) (hname : m.name = signature.name) :
    name = signature.name := by
  obtain ⟨m₀, hm₀⟩ := Edit.exists_methodAt?_of_fault? (hs.faults _ he)
  obtain ⟨m', hm', hnames⟩ := h.methods hm₀
  obtain rfl := Option.some.inj (hm.symm.trans hm')
  rcases hnames with ⟨hfirst, -⟩ | hgiven
  · exact hs.separate.methods he hretype hm₀ (hfirst.symm.trans hname)
  · rw [hs.agreed.methods he (hdone _ hgiven), hname]

/-- A method that spells a signature does so after an edit. -/
theorem step_spells (h : Landing s f done d) (hs : s.Coherent f)
    (hdone : ∀ a ∈ e :: done, a ∈ s.edits) (hd : d.applyEdit e = .ok d') {r : Ref}
    {signature : MethodSignature} (hmem : .retypeInvocation r signature ∈ done) {id : TypeId}
    {m : MethodType} (hm : d.types.methodAt? id = some m) (hspells : d.types.Spells m signature) :
    ∃ m', d'.types.methodAt? id = some m' ∧ d'.types.Spells m' signature := by
  obtain ⟨he, hbefore⟩ := List.forall_mem_cons.1 hdone
  rcases applyEdit_table h.sound hd with
    ⟨hgrows, -⟩ | ⟨source, target, rfl, htypes⟩ | ⟨id', name, rfl, htypes⟩
  · exact ⟨m, hgrows.methodAt? hm, hspells.grows hgrows⟩
  · rw [htypes]
    refine ⟨m, by rw [TypeTable.methodAt?_getD_renameClass, hm],
      hspells.of_names fun name hname id => ?_⟩
    cases hrename : d.types.renameClass source target with
    | none => exact fun hid => hid
    | some t =>
      have hapart : ∀ key ∈ [source, target], name ≠ key := by
        rintro key hkey rfl
        exact hs.separate.names _ he _ (hbefore _ hmem) name hkey hname
      exact (TypeTable.name?_renameClass h.sound hrename (hapart source (by simp))
        (hapart target (by simp))).2
  · have hkept : d'.types.Spells m signature :=
      hspells.of_names fun key _ i hi => by rw [TypeTable.name?_renameMethod htypes, hi]
    rw [TypeTable.methodAt?_renameMethod htypes]
    by_cases hid : id = id'
    · subst hid
      have hname := h.name_eq_of_renameMethodType hs hbefore he (hbefore _ hmem) hm hspells.name
      rw [if_pos rfl, hm]
      exact ⟨_, rfl, hname, hkept.declaring, hkept.returns, hkept.params⟩
    · rw [if_neg hid]
      exact ⟨m, hm, hkept⟩

/-- A call that is pointed at a method stays there. -/
theorem step_calls (h : Landing s f done d) (hs : s.Coherent f)
    (hdone : ∀ a ∈ e :: done, a ∈ s.edits)
    (hagrees : ∀ a ∈ e :: done, ∀ r, e.target? = some r → a.target? = some r → e.Agrees a)
    (hd : d.applyEdit e = .ok d') {n : NodeId} {signature : MethodSignature}
    (hmem : .retypeInvocation (some n) signature ∈ e :: done) : ∃ call id m,
      d'.store.data? (some n) = some (.methodInvocation call) ∧ call.type = some id ∧
        d'.types.methodAt? id = some m ∧ d'.types.Spells m signature := by
  by_cases htarget : e.target? = some (some n)
  · obtain rfl := (hagrees _ hmem _ htarget rfl).symm.eq (by simp)
    have hfault := hs.faults _ (hdone _ List.mem_cons_self)
    obtain ⟨k, hk, heq⟩ := exists_target hfault htarget
    obtain rfl := Option.some.inj heq
    obtain ⟨x, hx⟩ := Store.exists_data? hk
    obtain ⟨y, hy, hkind, -⟩ := h.nodes hx
    have hadmits := Edit.admits_of_roleFault? hfault hx
    obtain ⟨call, rfl⟩ :=
      NodeData.exists_of_kind (hkind.trans (by simpa [NodeRole.admits] using hadmits))
    obtain ⟨z, hz, hyz⟩ := applyEdit_payload h.sound hd hy
    rw [if_pos htarget] at hyz
    obtain ⟨call', rfl, htype, -⟩ := hyz.of_methodInvocation
    obtain ⟨-, m, hm, hspells⟩ := TypeTable.internSignature_spec h.sound signature
    obtain rfl := Except.ok.inj hd
    exact ⟨call', _, m, hz, htype, hm, hspells⟩
  · have hbefore : .retypeInvocation (some n) signature ∈ done := by
      rcases List.mem_cons.1 hmem with rfl | hmem
      · exact absurd rfl htarget
      · exact hmem
    obtain ⟨call, id, m, hcall, htype, hm, hspells⟩ := h.calls hbefore
    obtain ⟨z, hz, hyz⟩ := applyEdit_payload h.sound hd hcall
    rw [if_neg htarget] at hyz
    obtain ⟨call', rfl, htype', -⟩ := hyz.of_methodInvocation
    obtain ⟨m', hm', hspells'⟩ := h.step_spells hs hdone hd hbefore hm hspells
    exact ⟨call', id, m', hz, htype'.trans htype, hm', hspells'⟩

/-- One more edit of the set. -/
theorem step (h : Landing s f done d) (hs : s.Coherent f) (hdone : ∀ a ∈ e :: done, a ∈ s.edits)
    (hagrees : ∀ a ∈ e :: done, ∀ r, e.target? = some r → a.target? = some r → e.Agrees a)
    (hd : d.applyEdit e = .ok d') : Landing s f (e :: done) d' where
  toSettling := h.toSettling.step (hs.faults e (hdone e List.mem_cons_self)) hagrees hd
  placed _ ha _ hname := h.step_placed hs hdone hd ha hname
  calls := h.step_calls hs hdone hagrees hd

end Landing

end Draft

/-! ## The whole set -/

namespace EditSet

variable {s : EditSet} {f g : SourceFile}

theorem landing (hsound : f.types.IndexSound) (hs : s.Coherent f) (h : s.apply f = .ok g) :
    Draft.Landing s f s.edits.reverse { store := g.store, types := g.types } :=
  apply_induction h (.start hsound) fun _ hdone hagrees h he => h.step hs hdone hagrees he

/-- A local edit has taken effect. -/
theorem landed_of_isLocal (hsound : f.types.IndexSound) (h : s.apply f = .ok g) {e : Edit}
    (he : e ∈ s.edits) (hlocal : e.IsLocal) : e.Landed f g := by
  have hfault := (fault?_eq_none (apply_eq_ok h).1).1 e he
  have hshown : ∀ r, e.target? = some r → ∃ y, g.store.data? r = some y ∧ e.Shown y := by
    intro r hr
    obtain ⟨n, hn, rfl⟩ := exists_target hfault hr
    obtain ⟨x, hx⟩ := Store.exists_data? hn
    obtain ⟨y, hy, -, hy'⟩ := (settling hsound h).nodes hx
    exact ⟨y, hy, hy' e (by simpa using he) hr⟩
  cases e with
  | setLiteral r value =>
    obtain ⟨y, hy, hshown⟩ := hshown r rfl
    simpa [Edit.Landed, Edit.Shown, Store.literal?, hy] using hshown
  | renameIdentifier r name =>
    obtain ⟨y, hy, hshown⟩ := hshown r rfl
    simpa [Edit.Landed, Edit.Shown, Store.identifierText?, Store.identifier?, hy] using hshown
  | removeModifier r kind =>
    obtain ⟨y, hy, hshown⟩ := hshown r rfl
    simpa [Edit.Landed, Edit.Shown, hy] using hshown
  | _ => cases hlocal

/-- Where all edits have taken effect, renames agree. -/
theorem agreed_of_landed (hsound : f.types.IndexSound) (h : s.apply f = .ok g)
    (hlanded : ∀ e ∈ s.edits, e.Landed f g) : s.Agreed f where
  methods := by
    intro id name name' hname hname'
    exact Option.some.inj ((hlanded _ hname).symm.trans (hlanded _ hname'))
  sources := by
    intro a b b' ha hb hb'
    obtain ⟨id, hid⟩ := Option.isSome_iff_exists.1 ha
    exact Option.some.inj ((hlanded _ hb id hid).symm.trans (hlanded _ hb' id hid))
  targets := by
    intro a a' b ha ha' hb hb'
    obtain ⟨id, hid⟩ := Option.isSome_iff_exists.1 ha
    obtain ⟨id', hid'⟩ := Option.isSome_iff_exists.1 ha'
    have hsettling := settling hsound h
    -- both classes are still in the index, under the names that they have
    have hfound : ∀ {name id}, f.types.lookupClass name = some id → g.types.className? id = some b →
        g.types.lookupClass b = some id := by
      intro name id hname hb
      obtain ⟨name', hname'⟩ := hsettling.indexed hname
      have hnamed := hsettling.sound _ _ hname'
      rw [← Option.some.inj (hnamed.symm.trans hb)]
      exact hname'
    have hsame :=
      (hfound hid (hlanded _ hb id hid)).symm.trans (hfound hid' (hlanded _ hb' id' hid'))
    rw [← Option.some.inj hsame] at hid'
    exact Option.some.inj ((hsound _ _ hid).symm.trans (hsound _ _ hid'))

/-- Renames that agree and that no edit builds on have all taken effect, as the other edits have. -/
theorem landed_of_agreed (hsound : f.types.IndexSound) (hagreed : s.Agreed f)
    (hseparate : s.Separate f) (h : s.apply f = .ok g) {e : Edit} (he : e ∈ s.edits) :
    e.Landed f g := by
  have hfaults := (fault?_eq_none (apply_eq_ok h).1).1
  have hlanding := landing hsound ⟨hfaults, hagreed, hseparate⟩ h
  have hfault := hfaults e he
  cases e with
  | renameClassType source target =>
    intro id hid
    refine hlanding.sound target id
      ((hlanding.placed _ he target (by simp [Edit.classNames]) id).2 ?_)
    by_cases hne : source = target
    · subst hne
      refine .inl ⟨hid, fun target htarget => ?_⟩
      exact hagreed.sources (Option.isSome_of_eq_some hid) (List.mem_reverse.1 htarget) he
    · exact .inr ⟨source, hne, hid, List.mem_reverse.2 he⟩
  | renameMethodType id name =>
    obtain ⟨m, hm⟩ := Edit.exists_methodAt?_of_fault? hfault
    obtain ⟨m', hm', hname⟩ := hlanding.methods hm
    have hmem : .renameMethodType id m'.name ∈ s.edits := by
      rcases hname with ⟨-, hnone⟩ | hname
      · exact absurd (List.mem_reverse.2 he) (hnone name)
      · exact List.mem_reverse.1 hname
    rw [hagreed.methods he hmem]
    exact congrArg (Option.map (·.name)) hm'
  | retypeInvocation r signature =>
    obtain ⟨n, -, rfl⟩ := exists_target hfault rfl
    obtain ⟨call, id, m, hcall, hrest⟩ := hlanding.calls (List.mem_reverse.2 he)
    exact ⟨call, id, m, by simp only [Store.invocation?, hcall]; rfl, hrest⟩
  | replaceExpression r snippet => trivial
  | _ => exact landed_of_isLocal hsound h he trivial

/-- In the file that a set gives, local edits have taken effect. All edits have only if the renames
agree, and if they agree and no edit builds on a rename. -/
theorem apply_lands (hsound : f.types.IndexSound) (h : s.apply f = .ok g) :
    (∀ e ∈ s.edits, e.IsLocal → e.Landed f g) ∧
    ((∀ e ∈ s.edits, e.Landed f g) → s.Agreed f) ∧
    (s.Separate f → s.Agreed f → ∀ e ∈ s.edits, e.Landed f g) :=
  ⟨fun _ he hlocal => landed_of_isLocal hsound h he hlocal, agreed_of_landed hsound h,
    fun hseparate hagreed _ he => landed_of_agreed hsound hagreed hseparate h he⟩

/-- A class of its own, another one that it knows, and a call of its method. -/
def serverFile : SourceFile :=
  let d : Draft := {}
  let (server, d) := d.classType "a.Server"
  let (client, d) := d.classType "a.Client"
  let (accept, d) := d.methodType {
    declaring := server, name := "accept", returns := some client, params := [] }
  let (port, d) := d.literal (.int 80)
  let (call, d) := d.invoke none accept [some port]
  let (body, d) := d.block [some call]
  let (start, d) := d.method {
    modifiers := [{ kind := .isPublic }, { kind := .isFinal }], name := "start", body := some body }
  let (c, d) := d.classDeclaration {
    name := "Server", members := [some start], type := some server }
  d.finish "Server.java" (some "a") [] [some c]

theorem indexSound_serverFile : serverFile.types.IndexSound := by
  have hindex : serverFile.types.reindex = serverFile.types := by decide +kernel
  rw [← hindex]
  exact (TypeTable.indexed_reindex _).sound

/-- An edit of each kind that can fail to land, with renames of both classes to different names. -/
def serverEdits : EditSet where
  edits := [.setLiteral (some 0) (.int 8080), .renameIdentifier (some 1) "listen",
    .removeModifier (some 5) .isPublic, .removeModifier (some 5) .isFinal,
    .renameClassType "a.Server" "a.Host", .renameClassType "a.Client" "a.Guest",
      .renameMethodType 2 "listen",
    .retypeInvocation (some 2) ⟨"net.Port", "bind", none, ["int"]⟩]

theorem apply_lands_serverFile : serverFile.types.IndexSound ∧ serverEdits.Separate serverFile ∧
    serverEdits.Agreed serverFile ∧
    ∃ g, serverEdits.apply serverFile = .ok g ∧ ∀ e ∈ serverEdits.edits, e.Landed serverFile g := by
  have hclasses : ∀ {a b}, .renameClassType a b ∈ serverEdits.edits →
      a = "a.Server" ∧ b = "a.Host" ∨ a = "a.Client" ∧ b = "a.Guest" := by
    intro a b hab
    simpa [serverEdits] using hab
  have hmethods : ∀ {id name}, .renameMethodType id name ∈ serverEdits.edits →
      id = 2 ∧ name = "listen" := by
    intro id name hname
    simpa [serverEdits] using hname
  have hseparate : serverEdits.Separate serverFile := by
    refine ⟨fun _ hab hbc => ?_, by decide +kernel, fun hname hretype hm heq => ?_⟩
    · grind
    · obtain ⟨rfl, rfl⟩ := hmethods hname
      obtain ⟨rfl, rfl⟩ : _ ∧ _ := by simpa [serverEdits] using hretype
      have haccept : serverFile.types.methodAt? 2 = some ⟨0, "accept", some 1, []⟩ := by
        decide +kernel
      rw [haccept] at hm
      obtain rfl := Option.some.inj hm
      exact absurd heq (by decide)
  have hagreed : serverEdits.Agreed serverFile := by
    refine ⟨fun hname hname' => ?_, fun _ hb hb' => ?_, fun _ _ hb hb' => ?_⟩
    · rw [(hmethods hname).2, (hmethods hname').2]
    · grind
    · grind
  have hrun : ∃ g, serverEdits.apply serverFile = .ok g :=
    ⟨(serverEdits.apply serverFile).toOption.getD serverFile, by decide +kernel⟩
  obtain ⟨g, hg⟩ := hrun
  exact ⟨indexSound_serverFile, hseparate, hagreed, g, hg,
    (apply_lands indexSound_serverFile hg).2.2 hseparate hagreed⟩

/-- Two classes are to have one name: the second rename is passed over. -/
theorem not_landed_serverFile : ∃ g, (EditSet.mk [.renameClassType "a.Server" "a.Host",
      .renameClassType "a.Client" "a.Host"]).apply serverFile = .ok g ∧
    g.types.className? 0 = some "a.Host" ∧ g.types.className? 1 = some "a.Client" ∧
    ¬(Edit.renameClassType "a.Client" "a.Host").Landed serverFile g := by
  refine ⟨((EditSet.mk [.renameClassType "a.Server" "a.Host",
      .renameClassType "a.Client" "a.Host"]).apply serverFile).toOption.getD serverFile,
      by decide +kernel,
      by decide +kernel, by decide +kernel, ?_⟩
  intro hlanded
  have hname := hlanded 1 (by decide +kernel)
  revert hname
  decide +kernel

end EditSet

end JavaRecipes
