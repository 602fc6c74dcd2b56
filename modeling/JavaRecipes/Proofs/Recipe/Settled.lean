import JavaRecipes.Proofs.Edit.Rewriting
import JavaRecipes.Proofs.Recipe.CallMoves
import JavaRecipes.Proofs.Scope.Mirror

/-!
Runs that leave nothing to do. A factory method that has lost its modifier, a setter that takes a
size and a media type that is made from a version are no longer matched; what is new is not matched
either, and all else was not matched before.
-/

namespace JavaRecipes

/-! ## Patterns -/

/-- A pattern holds of a method no matter how the table has grown. -/
theorem MethodPattern.holdsOfType_grows {t t' : TypeTable} (h : t.Grows t') (hrange : t.InRange)
    (p : MethodPattern) {id : TypeId} (hid : id < t.size) :
    p.holdsOfType t' id = p.holdsOfType t id := by
  unfold holdsOfType
  rw [h.methodAt?_eq hid]
  cases hm : t.methodAt? id with
  | none => rfl
  | some m =>
    have hlt := hrange.of_methodAt? hm
    simp only [TypeEntry.typeIds, List.cons_append, List.mem_cons, List.mem_append] at hlt
    have hparams : m.params.map t'.name? = m.params.map t.name? :=
      List.map_congr_left fun i hi => h.name?_eq (hlt i (.inr (.inr hi)))
    simp only [h.name?_eq (hlt m.declaring (.inl rfl)), hparams]

/-- A pattern that holds of a spelled method has its name and parameters. -/
theorem MethodPattern.holdsOfType_of_spells {t : TypeTable} {p : MethodPattern} {id : TypeId}
    {m : MethodType} {signature : MethodSignature} (hm : t.methodAt? id = some m)
    (hspells : t.Spells m signature) (h : p.holdsOfType t id) :
    signature.name = p.name ∧ signature.params = p.params := by
  simp only [holdsOfType, hm, Bool.and_eq_true, beq_iff_eq] at h
  obtain ⟨⟨hname, -⟩, hparams⟩ := h
  rw [hspells.params] at hparams
  exact ⟨hspells.name.symm.trans hname, List.map_injective_iff.2 (Option.some_injective _) hparams⟩

/-- A pattern that holds of the method of a call holds of the call before the table grew. -/
theorem MethodPattern.holds_of_grows {f : SourceFile} {types : TypeTable} (hrange : f.TypesInRange)
    (hgrows : f.types.Grows types) {p : MethodPattern} {n : NodeId}
    {c : MethodInvocation} {id : TypeId} (hc : f.store.data? (some n) = some (.methodInvocation c))
    (hid : c.type = some id) (h : p.holdsOfType types id) : p.holds f.store f.types (some n) := by
  have hlt : id < f.types.size := hrange.nodes hc id (by simp [NodeData.typeIds, hid])
  rw [holdsOfType_grows hgrows hrange.entries p hlt] at h
  exact (holds_iff hc).2 ⟨id, hid, h⟩

/-- A pattern holds of no new call if no signature in the edits has its name. -/
theorem Draft.Rewritten.not_holds_new {f : SourceFile} {done : List Edit} {d : Draft}
    (h : Draft.Rewritten f done d) {p : MethodPattern}
    (hname : ∀ e ∈ done, ∀ signature ∈ e.signatures, signature.name ≠ p.name) {n : NodeId}
    (hle : f.store.size ≤ n) {c : MethodInvocation}
    (hc : d.store.data? (some n) = some (.methodInvocation c)) {id : TypeId}
    (hid : c.type = some id) : ¬ p.holdsOfType d.types id := by
  intro hholds
  obtain ⟨id', m, hid', hm, e, he, signature, hs, hspells⟩ := h.calls hle hc
  obtain rfl : id' = id := Option.some.inj (hid'.symm.trans hid)
  exact hname e he signature hs (MethodPattern.holdsOfType_of_spells hm hspells hholds).1

/-! ## Factory methods -/

namespace NodeData

theorem removeModifier_removeModifier (kind : ModifierKind) (x : NodeData) :
    (x.removeModifier kind).removeModifier kind = x.removeModifier kind := by
  have hkept : ∀ ms, keptModifiers kind (keptModifiers kind ms) = keptModifiers kind ms := by
    simp [keptModifiers]
  have hfreed : ∀ ms, freedComments kind (keptModifiers kind ms) = [] := by
    simp +contextual [freedComments, keptModifiers]
  cases x <;> simp [removeModifier, hkept, hfreed]

theorem annotationUse?_removeModifier (kind : ModifierKind) (x : NodeData) :
    (x.removeModifier kind).annotationUse? = x.annotationUse? := by
  cases x <;> rfl

end NodeData

/-- Taking modifiers away changes the payloads concerned and nothing else. -/
theorem Draft.applyEdits_removeModifier {d d' : Draft} {kind : ModifierKind} {es : List Edit}
    (hes : ∀ e ∈ es, ∃ r, e = .removeModifier r kind) (hd : d.applyEdits es = .ok d') :
    d'.types = d.types ∧ ∀ r, d'.store.data? r =
      (d.store.data? r).map fun x =>
        if .removeModifier r kind ∈ es then x.removeModifier kind else x := by
  induction es generalizing d with
  | nil =>
    obtain rfl := Except.ok.inj hd
    simp
  | cons e es ih =>
    obtain ⟨d₁, he, hrest⟩ := applyEdits_cons hd
    rw [List.forall_mem_cons] at hes
    obtain ⟨⟨r, rfl⟩, hes⟩ := hes
    obtain rfl := Except.ok.inj he
    obtain ⟨htypes, hdata⟩ := ih hes hrest
    refine ⟨htypes, fun r' => ?_⟩
    have hfirst := d.store.data?_updateData r r' (NodeData.removeModifier kind)
    rw [hdata]
    change ((d.store.updateData r _).data? r').map _ = _
    rw [hfirst]
    by_cases hr : r' = r
    · subst hr
      cases d.store.data? r' with
      | none => simp
      | some x =>
        by_cases hmem : .removeModifier r' kind ∈ es <;>
          simp [NodeData.removeModifier_removeModifier]
    · simp [hr]

namespace BeanVisibility

/-- Annotations have no modifiers. -/
theorem find?_eq {s s' : Store} {types : TypeTable} {kind : ModifierKind} {es : List Edit}
    (hdata : ∀ r, s'.data? r =
      (s.data? r).map fun x => if .removeModifier r kind ∈ es then x.removeModifier kind else x)
    (p : AnnotationPattern) (annotations : List Ref) :
    p.find? s' types annotations = p.find? s types annotations := by
  have huse : ∀ r, s'.annotationUse? r = s.annotationUse? r := by
    intro r
    unfold Store.annotationUse?
    rw [hdata]
    cases s.data? r with
    | none => rfl
    | some x =>
      by_cases h : .removeModifier r kind ∈ es <;> simp [h, NodeData.annotationUse?_removeModifier]
  have htype : ∀ r, s'.expressionType types r = s.expressionType types r := by
    intro r
    unfold Store.expressionType
    rw [hdata]
    cases s.data? r with
    | none => rfl
    | some x =>
      by_cases h : .removeModifier r kind ∈ es
      · simp only [Option.map_some, h, if_true]
        cases x <;> rfl
      · simp only [Option.map_some, h, if_false]
  have hholds : p.holds s' types = p.holds s types := by
    funext mark
    simp only [AnnotationPattern.holds, Store.annotationName?, huse, htype]
  rw [AnnotationPattern.find?, AnnotationPattern.find?, hholds]

/-- A method that was matched is not public any more, and none is matched that was not. -/
theorem plan_eq_nil {f g : SourceFile} (hf : f.Acyclic) (happly : (plan f).apply f = .ok g) :
    (plan g).edits = [] := by
  obtain ⟨-, d, hd, rfl⟩ := EditSet.apply_eq_ok happly
  have hconfined := Draft.Confined.run (grafts f).each hd
  have hremove : ∀ e ∈ (plan f).edits, ∃ r, e = .removeModifier r .isPublic := by
    intro e he
    obtain ⟨n, -, _, -, -, rfl⟩ := mem_plan.1 he
    exact ⟨_, rfl⟩
  obtain ⟨htypes, hdata⟩ := Draft.applyEdits_removeModifier hremove hd
  refine List.eq_nil_iff_forall_not_mem.2 fun e he => ?_
  obtain ⟨n, hn, method, hmethod, hpublic, rfl⟩ := mem_plan.1 he
  have hn := SourceFile.reaches_of_mem_nodes hn
  simp only [isPublicBean, Bool.and_eq_true] at hpublic
  have hmethod : d.store.data? (some n) = some (.methodDeclaration method) := hmethod
  rw [hdata] at hmethod
  obtain ⟨x, hx, hxm⟩ := Option.map_eq_some_iff.1 hmethod
  by_cases hmem : .removeModifier (some n) .isPublic ∈ (plan f).edits
  · rw [if_pos hmem] at hxm
    cases x <;> simp only [NodeData.removeModifier, reduceCtorEq] at hxm
    obtain rfl := NodeData.methodDeclaration.inj hxm
    simp [hasModifier, NodeData.keptModifiers] at hpublic
  · rw [if_neg hmem] at hxm
    subst hxm
    refine hmem (mem_plan.2 ⟨n, ?_, method, hx, ?_, rfl⟩)
    · exact (SourceFile.mem_nodes_iff hf n).2 (hconfined.reaches hn (Store.lt_size_of_data? hx))
    · rw [find?_eq hdata, htypes] at hpublic
      simpa [isPublicBean] using hpublic

end BeanVisibility

/-! ## Sizes -/

namespace MultipartSizes

/-- A call that builds a size is none of a setter. -/
theorem setter_name_ne :
    ∀ c ∈ conversions, ∀ c' ∈ conversions, c.method ≠ c'.setter.name := by decide

/-- No setter to be changed takes a size. -/
theorem setter_params_ne : ∀ c ∈ conversions, [dataSize] ≠ c.setter.params := by decide

theorem conversion_of_holds {f : SourceFile} {n : NodeId} {c : Conversion} (hc : c ∈ conversions)
    (h : c.setter.holds f.store f.types (some n)) : ∃ c', conversion? f n = some c' := by
  cases hfind : conversion? f n with
  | none => exact absurd h (List.find?_eq_none.1 hfind c hc)
  | some c' => exact ⟨c', rfl⟩

theorem conversion?_eq_some {f : SourceFile} {n : NodeId} {c : Conversion}
    (h : conversion? f n = some c) :
    c ∈ conversions ∧ c.setter.holds f.store f.types (some n) := by
  unfold conversion? at h
  exact ⟨List.mem_of_find?_eq_some h, by simpa using List.find?_some h⟩

theorem isRewriting_of_mem {f : SourceFile} {e : Edit} (he : e ∈ (plan f).edits) :
    e.IsRewriting := by
  obtain ⟨n, -, hmem⟩ := mem_plan he
  obtain ⟨d, argument, c, -, rfl | rfl⟩ := mem_nodeEdits.1 hmem
  · exact .replaceExpression _ _
  · exact .retypeInvocation _ _

/-- A new call builds a size. -/
theorem signature_of_mem {f : SourceFile} {e : Edit} (he : e ∈ (plan f).edits)
    {signature : MethodSignature} (hs : signature ∈ e.signatures) :
    ∃ c ∈ conversions, signature.name = c.method := by
  obtain ⟨n, -, hmem⟩ := mem_plan he
  obtain ⟨d, argument, c, hmatched, rfl | rfl⟩ := mem_nodeEdits.1 hmem
  · refine ⟨c, (conversion?_eq_some hmatched.conversion).1, ?_⟩
    simp only [Edit.signatures, wrapped, Snippet.signatures, Snippet.signaturesOption,
      Snippet.signaturesList, List.append_nil, List.mem_singleton] at hs
    rw [hs]
  · simp [Edit.signatures] at hs

/-- A call that has been given another method takes a size. -/
theorem params_of_mem {f : SourceFile} {r : Ref} {signature : MethodSignature}
    (he : .retypeInvocation r signature ∈ (plan f).edits) : signature.params = [dataSize] := by
  obtain ⟨n, -, hmem⟩ := mem_plan he
  obtain ⟨d, argument, c, -, h | h⟩ := mem_nodeEdits.1 hmem
  · cases h
  · obtain ⟨-, rfl⟩ := Edit.retypeInvocation.inj h
    rfl

/-- A call of a setter was one before, and has not been given another method. -/
theorem matched_before {f : SourceFile} {done : List Edit} {d : Draft}
    (hwritten : Draft.Rewritten f done d) (hdone : ∀ e ∈ done, e ∈ (plan f).edits)
    (hrange : f.TypesInRange) {n : NodeId} (hlt : n < f.store.size) {call : MethodInvocation}
    (hcall : d.store.data? (some n) = some (.methodInvocation call)) {argument : Ref}
    (hargument : call.arguments = [argument]) {id : TypeId} (hid : call.type = some id)
    {c : Conversion} (hc : c ∈ conversions) (hholds : c.setter.holdsOfType d.types id) :
    (∃ call₀ argument₀ c₀, Matched f n call₀ argument₀ c₀) ∧
      ∀ signature, .retypeInvocation (some n) signature ∉ done := by
  obtain ⟨x, hx⟩ := Store.exists_data? hlt
  obtain ⟨y, hy, hxy⟩ := hwritten.old hx
  obtain rfl := Option.some.inj (hy.symm.trans hcall)
  cases hxy with
  | kept hno hslots =>
    obtain ⟨call₀, rfl, htype, harguments⟩ := hslots.methodInvocation_right
    rw [hargument] at harguments
    obtain ⟨argument₀, hargument₀⟩ : ∃ a, call₀.arguments = [a] :=
      List.length_eq_one_iff.1 harguments.length_eq
    obtain ⟨c₀, hc₀⟩ := conversion_of_holds hc
      (MethodPattern.holds_of_grows hrange hwritten.types hx (htype ▸ hid) hholds)
    exact ⟨⟨call₀, argument₀, c₀, hx, hargument₀, hc₀⟩, hno⟩
  | @retyped signature id' m hsig hm hspells hslots =>
    -- A call that has been given another method takes a size.
    obtain ⟨call₀, hcall₀, htype, -⟩ := hslots.methodInvocation_right
    have hid' : call₀.type = some id' := by
      cases x <;> simp only [NodeData.retypeInvocation, reduceCtorEq] at hcall₀
      obtain rfl := NodeData.methodInvocation.inj hcall₀
      rfl
    obtain rfl : id' = id := Option.some.inj (hid'.symm.trans (htype.symm.trans hid))
    have hparams := params_of_mem (hdone _ hsig)
    have hspelled := (MethodPattern.holdsOfType_of_spells hm hspells hholds).2
    exact absurd (hparams.symm.trans hspelled) (setter_params_ne c hc)

/-- Calls of setters take sizes afterwards, and there are no others: neither among the new ones nor
among those that were not matched. -/
theorem plan_eq_nil {f g : SourceFile} (hf : f.Acyclic) (hrange : f.TypesInRange)
    (hsound : f.types.IndexSound) (hnodup : (plan f).edits.Nodup)
    (happly : (plan f).apply f = .ok g) :
    (plan g).edits = [] := by
  by_cases huses : f.usesType factoryClass
  · obtain ⟨hfault, d, hd, rfl⟩ := EditSet.apply_eq_ok happly
    have hconfined := Draft.Confined.run (grafts hnodup hfault).each hd
    have hwritten := Draft.Rewritten.run hsound (fun e he => isRewriting_of_mem he)
      (fun e he r hr => exists_target ((EditSet.fault?_eq_none hfault).1 e he) hr) hd
    have hdone : ∀ e ∈ (plan f).edits.reverse, e ∈ (plan f).edits := by simp
    refine List.eq_nil_iff_forall_not_mem.2 fun e he => ?_
    obtain ⟨n, hn, hmem⟩ := mem_plan he
    obtain ⟨call, argument, c, hmatched, -⟩ := mem_nodeEdits.1 hmem
    obtain ⟨hc, hholds⟩ := conversion?_eq_some hmatched.conversion
    obtain ⟨id, hid, hholds⟩ := (MethodPattern.holds_iff hmatched.data).1 hholds
    by_cases hlt : n < f.store.size
    · obtain ⟨⟨call₀, argument₀, c₀, hmatched₀⟩, hno⟩ :=
        matched_before hwritten hdone hrange hlt hmatched.data hmatched.argument hid hc hholds
      have hnf := hconfined.reaches (SourceFile.reaches_of_mem_nodes hn) hlt
      refine hno (resized f call₀ c₀) (List.mem_reverse.2 ?_)
      rw [plan, if_pos huses, EditSet.mem_ofList, List.mem_flatMap]
      exact ⟨n, (SourceFile.mem_nodes_iff hf n).2 hnf,
        mem_nodeEdits.2 ⟨call₀, argument₀, c₀, hmatched₀, .inr rfl⟩⟩
    · refine hwritten.not_holds_new (fun a ha signature hs hname => ?_) (Nat.not_lt.1 hlt)
        hmatched.data hid hholds
      obtain ⟨c₀, hc₀, hmethod⟩ := signature_of_mem (hdone a ha) hs
      exact setter_name_ne c₀ hc₀ c hc (hmethod.symm.trans hname)
  · have hempty : plan f = .empty := if_neg huses
    rw [hempty] at happly
    obtain rfl := Except.ok.inj happly
    rw [hempty]
    rfl

end MultipartSizes

/-! ## Media types -/

namespace ActuatorMediaType

section

variable {f g : SourceFile} {Sim : NodeId → NodeId → Prop} {a b : Ref} {version : String}

/-- No call of the edited file that is not of the file has the type of the constants. -/
def NewCallsDiffer (f g : SourceFile) : Prop :=
  ∀ m c, f.store.size ≤ m → g.store.data? (some m) = some (.methodInvocation c) →
    ¬ g.types.isNamed (g.store.expressionType g.types (some m)) actuatorMediaType

theorem constantVersion?_of_mirrors (h : Mirrors f g Sim) (hnew : NewCallsDiffer f g)
    (hab : Option.Rel Sim a b) (hversion : constantVersion? g b = some version) :
    constantVersion? f a = some version := by
  unfold constantVersion? at hversion
  split at hversion
  · rename_i e hy
    split at hversion
    · rename_i hnamed
      cases hab with
      | none => simp [Store.data?, Store.get?] at hy
      | some hnm =>
        obtain ⟨x, y, hx, hy', hslots | ⟨-, hyk, -⟩⟩ := h.payload hnm
        · obtain rfl := Option.some.inj (hy.symm.trans hy')
          cases x with
          | fieldAccess d =>
            obtain ⟨_, heq, htarget, hname⟩ := hslots.of_fieldAccess
            obtain rfl := NodeData.fieldAccess.inj heq
            rw [h.identifierText?_eq hname] at hversion
            simpa [constantVersion?, hx, h.isNamed_expressionType hnew htarget hnamed] using
              hversion
          | _ => simpa [NodeData.kind] using hslots.kind
        · obtain rfl := Option.some.inj (hy.symm.trans hy')
          simp [NodeData.kind] at hyk
    · cases hversion
  · cases hversion

/-- An argument stands for a version only if the related one does. -/
theorem version?_of_mirrors (h : Mirrors f g Sim) (hnew : NewCallsDiffer f g)
    (hab : Option.Rel Sim a b) (hversion : version? g b = some version) :
    ∃ version', version? f a = some version' := by
  unfold version? at hversion ⊢
  cases hf : constantVersion? f a with
  | some version' => exact ⟨version', rfl⟩
  | none =>
    cases hg : constantVersion? g b with
    | some version' => simp [constantVersion?_of_mirrors h hnew hab hg] at hf
    | none =>
      have hresolved := h.resolve_rel hab
      simp only [hg] at hversion
      split at hversion
      · cases hversion
      · rename_i hne
        refine ⟨version, ?_⟩
        simp only [if_neg (mt (h.eq_iff hresolved hab).1 hne)]
        exact constantVersion?_of_mirrors h hnew hresolved hversion

end

theorem isRewriting_of_mem {f : SourceFile} {e : Edit} (he : e ∈ (plan f).edits) :
    e.IsRewriting := by
  obtain ⟨n, -, hmem⟩ := mem_plan he
  obtain ⟨d, version, -, rfl⟩ := mem_nodeEdits.1 hmem
  exact .replaceExpression _ _

/-- No new call is of the replaced method, or of the type of the constants. -/
theorem signature_of_mem {f : SourceFile} {e : Edit} (he : e ∈ (plan f).edits)
    {signature : MethodSignature} (hs : signature ∈ e.signatures) :
    signature.name ≠ parseMediaType.name ∧ signature.returns ≠ some actuatorMediaType := by
  obtain ⟨n, -, hmem⟩ := mem_plan he
  obtain ⟨d, version, -, rfl⟩ := mem_nodeEdits.1 hmem
  have hselect :
      Snippet.signatures (if d.select.isSome then .existing d.select
        else .typeName mediaType) = [] := by
    split <;> rfl
  simp only [Edit.signatures, replacement, producedMimeType, Snippet.signatures,
    Snippet.signaturesOption, Snippet.signaturesList, hselect, List.nil_append, List.append_nil,
    List.mem_cons, List.not_mem_nil,
    or_false] at hs
  rcases hs with rfl | rfl
  · exact ⟨by decide, by decide⟩
  · exact ⟨by decide, by decide⟩

section

variable {f : SourceFile} {done : List Edit} {d : Draft} {n : NodeId}

theorem newCallsDiffer (hwritten : Draft.Rewritten f done d)
    (hdone : ∀ e ∈ done, e ∈ (plan f).edits) :
    NewCallsDiffer f { f with store := d.store, types := d.types } := by
  intro m c hm hc hnamed
  obtain ⟨id, method, hid, hmethod, e, he, signature, hs, hspells⟩ := hwritten.calls hm hc
  refine (signature_of_mem (hdone e he) hs).2 (hspells.bind_returns.symm.trans ?_)
  have hc : d.store.data? (some m) = some (.methodInvocation c) := hc
  simpa [TypeTable.isNamed, Store.expressionType, hc, hid, hmethod] using hnamed

/-- A call that is matched was so before, if it is an old one. -/
theorem matched_before {g : SourceFile} {Sim : NodeId → NodeId → Prop} (h : Mirrors f g Sim)
    (hnew : NewCallsDiffer f g) (hnn : Sim n n) (hlt : n < f.store.size) {call : MethodInvocation}
    {version : String} (hmatched : Matched g n call version) :
    ∃ call₀ version₀, Matched f n call₀ version₀ := by
  obtain ⟨id, hid, hholds⟩ := (MethodPattern.holds_iff hmatched.data).1 hmatched.holds
  obtain ⟨x, y, hx, hy, hslots | ⟨-, -, hle⟩⟩ := h.payload hnn
  · obtain rfl := Option.some.inj (hy.symm.trans hmatched.data)
    obtain ⟨call₀, rfl, htype, harguments⟩ := hslots.methodInvocation_right
    obtain ⟨argument, hargument, hversion⟩ := hmatched.argument
    rw [hargument] at harguments
    obtain ⟨argument₀, _, hrel, hnil, hargument₀⟩ := List.forall₂_cons_right_iff.1 harguments
    obtain rfl := List.forall₂_nil_right_iff.1 hnil
    obtain ⟨version₀, hversion₀⟩ := version?_of_mirrors h hnew hrel hversion
    exact ⟨call₀, version₀, hx,
      MethodPattern.holds_of_grows h.range h.types hx (htype ▸ hid) hholds,
      argument₀, hargument₀, hversion₀⟩
  · exact absurd hlt (Nat.not_lt.2 hle)

end

/-! ### What lasts -/

/-- The nodes in reach that are in no argument of a call that stands for a version: of what such a
call holds, only its receiver lasts. -/
inductive Lasting (f : SourceFile) : NodeId → Prop
  | root {n : NodeId} : f.root = some n → f.Reaches n → Lasting f n
  | child {q m : NodeId} : Lasting f q → f.store.Holds q m →
    (∀ d version, Matched f q d version → d.select = some m) → Lasting f m

theorem Lasting.reaches {f : SourceFile} {n : NodeId} (hheld : f.Held) (h : Lasting f n) :
    f.Reaches n := by
  induction h with
  | root _ hreach => exact hreach
  | child _ hh _ ih => exact hheld.reaches ih hh

namespace Moved

variable {f : SourceFile} {σ : NodeId → NodeId} {d : Draft} (hheld : f.Held)
  (hindex : f.types.reindex = f.types) (h : Moved f (plan f).edits.reverse σ d)

include hheld hindex h

/-- Below the place of a lasting node, what was there before lasts and is no call that stood for a
version. -/
theorem lasting_of_reaches (depth : Nat) : ∀ {n k : NodeId}, f.store.Shallow depth (some n) →
    Lasting f n → d.store.Reaches (some (σ n)) k → k < f.store.size →
      Lasting f k ∧ Edit.Spare (plan f).edits.reverse k := by
  induction depth with
  | zero =>
    intro n k hshallow hn
    obtain ⟨x, hx⟩ := Store.exists_data? (hn.reaches hheld).lt_size
    rw [Store.Shallow, hx] at hshallow
    cases hshallow
  | succ depth ih =>
    intro n k hshallow hn hk hlt
    have hreach := hn.reaches hheld
    obtain ⟨x, hx⟩ := Store.exists_data? hreach.lt_size
    by_cases hspare : Edit.Spare (plan f).edits.reverse n
    · have hunmatched := (spare_iff hheld hindex hreach).1 hspare
      rw [h.spare hspare] at hk
      rcases hk.eq_or_child with heq | ⟨c, hc, hk⟩
      · rw [← Option.some.inj heq]
        exact ⟨hn, hspare⟩
      · -- the slots have what has moved there
        obtain ⟨y, hy, hxy⟩ := h.kept hreach hspare hx
        rw [Store.children_eq_of_data? hy, hxy.children_map] at hc
        obtain ⟨a, ha, rfl⟩ := List.mem_map.1 hc
        obtain ⟨m, hm, -⟩ := hk.exists_root
        obtain ⟨m', rfl, -⟩ := Option.map_eq_some_iff.1 hm
        have hchild : f.store.Holds n m' := (Store.holds_iff hx).2 ha
        exact ih (hshallow _ hchild)
          (.child hn hchild fun d version hmatched => absurd hmatched (hunmatched d version)) hk hlt
    · -- a new call has nothing old below it but what is below its receiver
      obtain ⟨call, version, hmatched⟩ := exists_matched hheld hindex hreach hspare
      obtain ⟨a, ha, hk⟩ := (h.called hreach hmatched hspare).exists_reaches hk hlt
      obtain ⟨_, hselect, rfl⟩ := mem_existingNodes_replacement.1 ha
      obtain ⟨m, hm, rfl⟩ := Option.map_eq_some_iff.1 hselect
      have hchild := hmatched.holds_select hm
      refine ih (hshallow _ hchild) (.child hn hchild fun call' version' hmatched' => ?_) hk hlt
      rw [← (hmatched.unique hmatched').1, hm]

/-- Along the moves the edited file mirrors the file as it was, as far as this lasts: the link of
the root does not matter if there is none, or if walks outward end there. -/
theorem mirrors (hrange : f.TypesInRange) (htypes : f.types.Grows d.types)
    (hroot : ∀ {n d version}, Matched f n d version → f.root ≠ some n)
    (htop : f.store.parent f.root = none ∨
      f.store.kind? f.root = some .compilationUnit) :
    Mirrors f { f with store := d.store, types := d.types }
      fun n m => m = σ n ∧ Lasting f n := by
  refine ⟨hrange, htypes, ?_, ?_, ?_⟩
  · rintro n n' _ _ ⟨rfl, hn⟩ ⟨rfl, hn'⟩
    exact ⟨congrArg σ, h.inj (hn.reaches hheld) (hn'.reaches hheld)⟩
  · rintro n _ ⟨rfl, hn⟩
    have hreach := hn.reaches hheld
    by_cases hspare : Edit.Spare (plan f).edits.reverse n
    · have hunmatched := (spare_iff hheld hindex hreach).1 hspare
      rw [h.spare hspare]
      obtain ⟨x, hx⟩ := Store.exists_data? hreach.lt_size
      obtain ⟨y, hy, hxy⟩ := h.kept hreach hspare hx
      refine ⟨x, y, hx, hy, .inl (hxy.imp_of_mem ?_)⟩
      rintro a _ ha - rfl
      cases a with
      | none => exact .none
      | some m =>
        have hchild : f.store.Holds n m := (Store.holds_iff hx).2 (ha.resolve_left (by simp))
        exact .some ⟨rfl, .child hn hchild fun d version hm => absurd hm (hunmatched d version)⟩
    · obtain ⟨call, version, hmatched⟩ := exists_matched hheld hindex hreach hspare
      obtain ⟨_, e, hk, -, he, -⟩ := h.called hreach hmatched hspare
      rw [← Option.some.inj hk] at he
      exact ⟨_, _, hmatched.data, he, .inr ⟨rfl, rfl, h.fresh hspare⟩⟩
  · rintro n _ ⟨rfl, hn⟩ hkind
    change Option.Rel _ (f.store.parent (some n)) (d.store.parent (some (σ n)))
    cases hn with
    | root hstart hreach =>
      have hspare := (spare_iff hheld hindex hreach).2 fun call version hm => hroot hm hstart
      have hparent := h.top
      rw [hstart] at hparent htop
      rw [h.spare hspare, hparent, htop.resolve_right hkind]
      exact .none
    | @child q _ hq hh hreceiver =>
      have hreach := hq.reaches hheld
      have hholder : holderOf f σ q n = σ q := by
        by_cases hspare : Edit.Spare (plan f).edits.reverse q
        · rw [holderOf, h.spare hspare, ite_self]
        · obtain ⟨call, version, hmatched⟩ := exists_matched hheld hindex hreach hspare
          rw [holderOf, if_pos (hmatched.receiver?_eq.trans (hreceiver call version hmatched))]
      rw [hheld.link hreach hh, h.linked hreach hh, hholder]
      exact .some ⟨rfl, hq⟩

end Moved

/-- Calls that stand for a version can give way to others for good: each is in one slot of what
holds it, and the root has no parent, unless it is a compilation unit, where walks outward end. -/
structure Replaceable (f : SourceFile) : Prop where
  once : Once f
  top : f.store.parent f.root = none ∨ f.store.kind? f.root = some .compilationUnit

/-- If all edits can be made, the root is no call that stands for a version: the edit of a node
without a parent cannot be made. -/
theorem Replaceable.root_ne {f : SourceFile} (h : Replaceable f) (hf : f.Acyclic)
    (hindex : f.types.reindex = f.types) (hfault : (plan f).fault? f = none) {n : NodeId}
    {d : MethodInvocation} {version : String} (hmatched : Matched f n d version) :
    f.root ≠ some n := by
  intro hroot
  have hreach : f.Reaches n := .start hroot (Store.lt_size_of_data? hmatched.data)
  have hedit := (mem_plan_iff hf hindex).2 ⟨n, d, version, hreach, hmatched, rfl⟩
  have hparent : (f.store.parent (some n)).isSome :=
    (Edit.fault?_eq_none_iff_acceptable.1 ((EditSet.fault?_eq_none hfault).1 _ hedit)).2.1
  have htop := h.top
  rw [hroot] at htop
  rcases htop with hnone | hunit
  · simp [hnone] at hparent
  · simp [Store.kind?, hmatched.data, NodeData.kind] at hunit

/-- A call that stands for a version is replaced, and no other one does afterwards: none of the new
calls is matched, and what an argument stands for in the edited tree it stood for before. -/
theorem plan_eq_nil {f g : SourceFile} (hheld : f.Held) (hready : Replaceable f)
    (hrange : f.TypesInRange) (hindex : f.types.reindex = f.types)
    (happly : (plan f).apply f = .ok g) : (plan g).edits = [] := by
  obtain ⟨hfault, d, hd, rfl⟩ := EditSet.apply_eq_ok happly
  by_cases hempty : (plan f).edits = []
  · rw [hempty] at hd
    obtain rfl := Except.ok.inj hd
    exact hempty
  · obtain ⟨e, he⟩ := List.exists_mem_of_ne_nil _ hempty
    obtain ⟨_, _, _, hreach, -⟩ := (mem_plan_iff hheld.acyclic hindex).1 he
    obtain ⟨r, hr, hstart⟩ := hreach.exists_root
    have hroot {n : NodeId} {c : MethodInvocation} {version : String}
        (hmatched : Matched f n c version) : f.root ≠ some n :=
      hready.root_ne hheld.acyclic hindex hfault hmatched
    obtain ⟨d', hd', σ, hmoved⟩ := exists_moved hheld hindex hroot hready.once
    obtain rfl := Except.ok.inj (hd.symm.trans hd')
    have hspare := (spare_iff hheld hindex hstart).2 fun _ _ hmatched => hroot hmatched hr
    have hsound : f.types.IndexSound := hindex ▸ (TypeTable.indexed_reindex f.types).sound
    have hwritten := Draft.Rewritten.run hsound (fun e he => isRewriting_of_mem he)
      (fun e he r hr => exists_target ((EditSet.fault?_eq_none hfault).1 e he) hr) hd
    have hmirrors := hmoved.mirrors hheld hindex hrange hwritten.types hroot hready.top
    have hdone : ∀ e ∈ (plan f).edits.reverse, e ∈ (plan f).edits := by simp
    refine List.eq_nil_iff_forall_not_mem.2 fun e he => ?_
    obtain ⟨n, hn, hmem⟩ := mem_plan he
    have hn : d.store.Reaches f.root n := SourceFile.reaches_of_mem_nodes hn
    obtain ⟨call, version, hmatched, -⟩ := mem_nodeEdits.1 hmem
    by_cases hlt : n < f.store.size
    · rw [hr, ← hmoved.spare hspare] at hn
      have hshallow := Store.shallow_of_acyclic hheld.acyclic
      rw [hr] at hshallow
      obtain ⟨hlasting, hstays⟩ :=
        hmoved.lasting_of_reaches hheld hindex _ hshallow (.root hr hstart) hn hlt
      obtain ⟨call₀, version₀, hmatched₀⟩ := matched_before hmirrors
        (newCallsDiffer hwritten hdone) ⟨(hmoved.spare hstays).symm, hlasting⟩ hlt hmatched
      exact (spare_iff hheld hindex (hlasting.reaches hheld)).1 hstays call₀ version₀ hmatched₀
    · obtain ⟨id, hid, hholds⟩ := (MethodPattern.holds_iff hmatched.data).1 hmatched.holds
      exact hwritten.not_holds_new (fun a ha signature hs => (signature_of_mem (hdone a ha) hs).1)
        (Nat.not_lt.1 hlt) hmatched.data hid hholds

end ActuatorMediaType

end JavaRecipes
