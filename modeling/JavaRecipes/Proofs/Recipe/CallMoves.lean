import JavaRecipes.Proofs.Edit.Conflicts
import JavaRecipes.Proofs.Edit.Templates
import JavaRecipes.Proofs.Recipe.Grafting

/-!
Calls that stand for a version, and how they give way to new ones. The edits are made from the
outside to the inside; after any number of them a node that was replaced has moved to its new call,
and everything else is where it was, with slots and links to what has moved there (`Moved`). So all
edits can be made, if each of these calls is in one slot and none is the root (`exists_moved`).
-/

namespace JavaRecipes

namespace NodeData

/-- The receiver of a call is the first of its slots. -/
theorem replaceChild_select {d : MethodInvocation} {old new : Ref} (h : d.select = old) :
    (methodInvocation d).replaceChild old new =
      some (.methodInvocation { d with select := new }) := by
  simp [replaceChild, childFields, ChildField.replaceIn?, ChildField.replace?, h, withChildFields]

end NodeData

namespace ActuatorMediaType

/-! ## Calls that stand for a version -/

/-- The node is a constant of the old class. -/
def IsConstant (f : SourceFile) (r : Ref) (version : String) : Prop :=
  ∃ d id name, f.store.data? r = some (.fieldAccess d) ∧
    f.store.expressionType f.types d.target = some id ∧
    f.types.name? id = some actuatorMediaType ∧ f.store.identifierText? d.name = some name ∧
    (name = "V2_JSON" ∧ version = "V2" ∨ name = "V3_JSON" ∧ version = "V3")

/-- A call of the method for strings with one argument, which is a constant, or a local that stands
for one. -/
structure VersionCall (f : SourceFile) (n : NodeId) (d : MethodInvocation)
    (version : String) : Prop where
  data : f.store.data? (some n) = some (.methodInvocation d)
  method : ∃ id m, d.type = some id ∧ f.types.methodAt? id = some m ∧
    f.types.name? m.declaring = some mediaType ∧
    m.name = "parseMediaType" ∧ m.params.map f.types.name? = [some stringClass]
  argument : ∃ a, d.arguments = [a] ∧ (IsConstant f a version ∨
    (∀ version', ¬ IsConstant f a version') ∧ IsConstant f (f.store.resolve f.types a a) version)

section

variable {f : SourceFile} {n : NodeId} {d : MethodInvocation} {version : String} {r : Ref}

theorem lookup_versions {name : String} : versions.lookup name = some version ↔
    name = "V2_JSON" ∧ version = "V2" ∨ name = "V3_JSON" ∧ version = "V3" := by
  by_cases h2 : name = "V2_JSON"
  · subst h2
    rw [show versions.lookup "V2_JSON" = some "V2" by decide]
    simp [eq_comm]
  · by_cases h3 : name = "V3_JSON"
    · subst h3
      rw [show versions.lookup "V3_JSON" = some "V3" by decide]
      simp [eq_comm]
    · have hnone : versions.lookup name = none :=
        List.lookup_eq_none_iff.2 (by simp [versions, h2, h3])
      simp [hnone, h2, h3]

theorem constantVersion?_eq_some_iff :
    constantVersion? f r = some version ↔ IsConstant f r version := by
  constructor
  · intro h
    unfold constantVersion? at h
    split at h
    · rename_i d hd
      split at h
      · rename_i hnamed
        obtain ⟨name, hname, hversion⟩ := Option.bind_eq_some_iff.1 h
        simp only [TypeTable.isNamed, beq_iff_eq] at hnamed
        obtain ⟨id, hid, hclass⟩ := Option.bind_eq_some_iff.1 hnamed
        exact ⟨d, id, name, hd, hid, hclass, hname, lookup_versions.1 hversion⟩
      · cases h
    · cases h
  · rintro ⟨d, id, name, hd, hid, hclass, hname, hversion⟩
    simp [constantVersion?, hd, TypeTable.isNamed, hid, hclass, hname, lookup_versions.2 hversion]

theorem version?_eq_some_iff : version? f r = some version ↔ IsConstant f r version ∨
    (∀ version', ¬ IsConstant f r version') ∧
      IsConstant f (f.store.resolve f.types r r) version := by
  simp only [← constantVersion?_eq_some_iff, ← Option.eq_none_iff_forall_ne_some, version?]
  cases hr : constantVersion? f r with
  | some version' => simp
  | none =>
    by_cases hself : f.store.resolve f.types r r = r
    · simp [hself, hr]
    · simp [hself]

theorem parseMediaType_holds_iff (hd : f.store.data? (some n) = some (.methodInvocation d)) :
    parseMediaType.holds f.store f.types (some n) ↔
      ∃ id m, d.type = some id ∧ f.types.methodAt? id = some m ∧
        f.types.name? m.declaring = some mediaType ∧
        m.name = "parseMediaType" ∧ m.params.map f.types.name? = [some stringClass] := by
  rw [MethodPattern.holds_iff hd]
  refine exists_congr fun id => ?_
  cases hm : f.types.methodAt? id with
  | none => simp [MethodPattern.holdsOfType, hm]
  | some m =>
    simp only [MethodPattern.holdsOfType, hm, parseMediaType, Bool.and_eq_true, beq_iff_eq,
      List.map_cons, List.map_nil]
    constructor
    · rintro ⟨hid, ⟨hname, hclass⟩, hparams⟩
      exact ⟨m, hid, rfl, hclass, hname, hparams⟩
    · rintro ⟨_, hid, heq, hclass, hname, hparams⟩
      obtain rfl := Option.some.inj heq
      exact ⟨hid, ⟨hname, hclass⟩, hparams⟩

theorem matched_iff_versionCall : Matched f n d version ↔ VersionCall f n d version := by
  constructor
  · rintro ⟨hd, hholds, a, ha, hversion⟩
    exact ⟨hd, (parseMediaType_holds_iff hd).1 hholds, a, ha, version?_eq_some_iff.1 hversion⟩
  · rintro ⟨hd, hmethod, a, ha, hversion⟩
    exact ⟨hd, (parseMediaType_holds_iff hd).2 hmethod, a, ha, version?_eq_some_iff.2 hversion⟩

/-- A node is one call, for one version. -/
theorem Matched.unique {d' : MethodInvocation} {version' : String} (h : Matched f n d version)
    (h' : Matched f n d' version') : d = d' ∧ version = version' := by
  obtain rfl := NodeData.methodInvocation.inj (Option.some.inj (h.data.symm.trans h'.data))
  obtain ⟨a, ha, hversion⟩ := h.argument
  obtain ⟨a', ha', hversion'⟩ := h'.argument
  obtain rfl : a = a' := by simpa using ha.symm.trans ha'
  exact ⟨rfl, Option.some.inj (hversion.symm.trans hversion')⟩

/-- A new call uses the receiver and no other node. -/
theorem mem_existingNodes_replacement {select : Ref} :
    r ∈ (replacement select version).existingNodes ↔ ∃ k, select = some k ∧ r = some k := by
  simp [existingNodes_replacement, eq_comm]

theorem some_mem_existingNodes_replacement {select : Ref} {k : NodeId} :
    some k ∈ (replacement select version).existingNodes ↔ select = some k := by
  simp [existingNodes_replacement]

theorem Matched.holds_select (h : Matched f n d version) {k : NodeId} (hk : d.select = some k) :
    f.store.Holds n k :=
  (Store.holds_iff h.data).2 (NodeData.mem_children_methodInvocation.2 (.inl ⟨hk.symm, by simp⟩))

theorem Matched.usable (h : Matched f n d version) (hheld : f.Held) (hn : f.Reaches n) :
    Snippet.Usable f.store.size (replacement d.select version).existingNodes := by
  refine ⟨fun hr => hheld.lt_size hn (h.holds_select (some_mem_existingNodes_replacement.1 hr)),
    fun k => ?_⟩
  rw [existingNodes_replacement]
  exact List.count_le_length.trans (by cases d.select <;> simp)

/-! ## The plan -/

/-- The index of a file with such a call has the old class. -/
theorem Matched.usesType (h : Matched f n d version) (hindex : f.types.reindex = f.types) :
    f.usesType actuatorMediaType := by
  have hindexed := hindex ▸ TypeTable.indexed_reindex f.types
  obtain ⟨a, -, hversion⟩ := h.argument
  obtain ⟨r, -, id, -, -, -, hclass, -⟩ : ∃ r, IsConstant f r version := by
    rcases version?_eq_some_iff.1 hversion with h | ⟨-, h⟩
    · exact ⟨_, h⟩
    · exact ⟨_, h⟩
  exact hindexed.lookupClass_isSome hclass (by decide)

theorem mem_plan_iff (hf : f.Acyclic) (hindex : f.types.reindex = f.types) {e : Edit} :
    e ∈ (plan f).edits ↔ ∃ n d version, f.Reaches n ∧ Matched f n d version ∧
      e = .replaceExpression (some n) (replacement d.select version) := by
  constructor
  · intro he
    obtain ⟨n, hn, hmem⟩ := mem_plan he
    obtain ⟨d, version, hmatched, rfl⟩ := mem_nodeEdits.1 hmem
    exact ⟨n, d, version, SourceFile.reaches_of_mem_nodes hn, hmatched, rfl⟩
  · rintro ⟨n, d, version, hn, hmatched, rfl⟩
    rw [plan, if_pos (hmatched.usesType hindex), EditSet.mem_ofList, List.mem_flatMap]
    exact ⟨n, (SourceFile.mem_nodes_iff hf n).2 hn, mem_nodeEdits.2 ⟨d, version, hmatched, rfl⟩⟩

theorem nodup_plan (f : SourceFile) : (plan f).edits.Nodup :=
  Recipe.nodup_editSet .actuatorMediaType [] 0 f

section

variable (hheld : f.Held) (hroot : ∀ {n d version}, Matched f n d version → f.root ≠ some n)

include hroot

/-- A call that is not the root is held by a node in reach. -/
theorem Matched.exists_holder (h : Matched f n d version) (hn : f.Reaches n) :
    ∃ q, f.Reaches q ∧ f.store.Holds q n := by
  cases hn with
  | start hstart _ => exact absurd hstart (hroot h)
  | step hq hh _ => exact ⟨_, hq, hh⟩

include hheld

/-- All edits can be made. -/
theorem fault?_plan (hindex : f.types.reindex = f.types) : (plan f).fault? f = none := by
  rw [EditSet.fault?_eq_none_iff (nodup_plan f), EditSet.harmonious_iff]
  simp only [Edit.fault?_eq_none_iff_acceptable]
  refine ⟨fun e he => ?_, fun a ha b hb hne r har hbr => ?_⟩
  · obtain ⟨n, d, version, hn, hmatched, rfl⟩ := (mem_plan_iff hheld.acyclic hindex).1 he
    obtain ⟨q, hq, hqn⟩ := hmatched.exists_holder hroot hn
    refine ⟨(f.store.get?_isSome_iff n).2 hn.lt_size, by simp [hheld.link hq hqn], fun r hr => ?_⟩
    obtain ⟨k, hk, rfl⟩ :=
      mem_existingNodes_replacement.1 (Snippet.mem_existingNodes_iff.2 hr)
    exact (f.store.get?_isSome_iff k).2 (hheld.lt_size hn (hmatched.holds_select hk))
  · obtain ⟨n, d, version, -, h, rfl⟩ := (mem_plan_iff hheld.acyclic hindex).1 ha
    obtain ⟨n', d', version', -, h', rfl⟩ := (mem_plan_iff hheld.acyclic hindex).1 hb
    obtain rfl : n = n' := by simpa [Edit.target?, ← hbr] using har
    obtain ⟨rfl, rfl⟩ := h.unique h'
    exact absurd rfl hne

/-- A call is replaced before its receiver, and no call twice. -/
theorem apart_plan (hindex : f.types.reindex = f.types) : (plan f).edits.Pairwise Edit.Apart :=
  ((EditSet.pairwise_replaced (nodup_plan f) (fault?_plan hheld hroot hindex)).and
    (pairwise_plan hheld)).imp fun h r hr => ⟨h.1 r hr, h.2 r hr⟩

end

end

/-! ## One edit after another -/

/-- The node that a call is made on. -/
def receiver? (f : SourceFile) (n : NodeId) : Ref := (f.store.invocation? (some n)).bind (·.select)

/-- What holds `m` in the place of `q` when nodes have moved: a receiver goes with its call, and all
else stays. -/
def holderOf (f : SourceFile) (σ : NodeId → NodeId) (q m : NodeId) : NodeId :=
  if receiver? f q = some m then σ q else q

theorem Matched.receiver?_eq {f : SourceFile} {n : NodeId} {d : MethodInvocation} {version : String}
    (h : Matched f n d version) : receiver? f n = d.select := by
  rw [receiver?, Store.invocation?_eq_some.2 h.data, Option.bind_some]

/-- Where a draft stands after some edits. A node that was replaced has moved, to a new call over
what is now in the place of its receiver. The other nodes are where they were and have in their
slots what has moved there. Nodes are linked as before, but for the receivers of calls that were
replaced: they are linked to the new calls. -/
structure Moved (f : SourceFile) (done : List Edit) (σ : NodeId → NodeId) (d : Draft) : Prop where
  size_le : f.store.size ≤ d.store.size
  sound : d.types.IndexSound
  spare : ∀ {n}, Edit.Spare done n → σ n = n
  fresh : ∀ {n}, ¬ Edit.Spare done n → f.store.size ≤ σ n
  lt_size : ∀ {n}, f.Reaches n → σ n < d.store.size
  inj : ∀ {n m}, f.Reaches n → f.Reaches m → σ n = σ m → n = m
  kept : ∀ {n x}, f.Reaches n → Edit.Spare done n → f.store.data? (some n) = some x →
    ∃ y, d.store.data? (some n) = some y ∧ x.Slotwise (fun a b => b = a.map σ) y
  called : ∀ {n call version}, f.Reaches n → Matched f n call version → ¬ Edit.Spare done n →
    d.store.Written f.store.size (replacement (call.select.map σ) version) (some (σ n))
  held : ∀ {q m}, f.Reaches q → f.store.Holds q m → Edit.Spare done m →
    d.store.Holds (holderOf f σ q m) m
  linked : ∀ {q m}, f.Reaches q → f.store.Holds q m →
    d.store.parent (some (σ m)) = some (holderOf f σ q m)
  top : d.store.parent f.root = f.store.parent f.root

namespace Moved

variable {f : SourceFile} {done : List Edit} {σ : NodeId → NodeId} {d : Draft}

theorem start (hheld : f.Held) (hsound : f.types.IndexSound) :
    Moved f [] id { store := f.store, types := f.types } := by
  have hspare : ∀ n, Edit.Spare [] n := by simp [Edit.Spare]
  have hholder : ∀ q m, holderOf f id q m = q := fun q m => by rw [holderOf, id, ite_self]
  exact {
    size_le := Nat.le_refl _
    sound := hsound
    spare := fun _ => rfl
    fresh := fun h => absurd (hspare _) h
    lt_size := fun hn => hn.lt_size
    inj := fun _ _ h => h
    kept := fun {_ x} _ _ hx => ⟨x, hx, .refl (fun a => (Option.map_id_apply).symm) x⟩
    called := fun _ _ h => absurd (hspare _) h
    held := fun {q m} _ hqm _ => (hholder q m).symm ▸ hqm
    linked := fun {q m} hq hqm => (hholder q m).symm ▸ hheld.link hq hqm
    top := rfl }

/-- Nothing moves to an old node but that node. -/
theorem eq_of_move_eq (h : Moved f done σ d) {n m : NodeId} (hm : m < f.store.size)
    (hnm : σ n = m) : n = m := by
  by_cases hn : Edit.Spare done n
  · exact (h.spare hn).symm.trans hnm
  · exact absurd hm (Nat.not_lt.2 (hnm ▸ h.fresh hn))

theorem map_eq_some_iff (h : Moved f done σ d) {m : NodeId} (hm : m < f.store.size)
    (hspare : Edit.Spare done m) {r : Ref} : r.map σ = some m ↔ r = some m := by
  constructor
  · intro hr
    obtain ⟨n, rfl, hn⟩ := Option.map_eq_some_iff.1 hr
    rw [h.eq_of_move_eq hm hn]
  · rintro rfl
    rw [Option.map_some, h.spare hspare]

end Moved

/-- A replacement in a draft: `q` has the call `m` in a slot, and the new call `k` goes to where
that slot is now. -/
structure Replaces (f : SourceFile) (done : List Edit) (σ : NodeId → NodeId)
    (d d' : Draft) (t : Store) (q m k : NodeId) (call : MethodInvocation)
    (version : String) : Prop where
  held : f.Held
  moved : Moved f done σ d
  reaches : f.Reaches q
  holds : f.store.Holds q m
  once : (f.store.children (some q)).count (some m) ≤ 1
  matched : Matched f m call version
  spare : Edit.Spare done m
  receiver : ∀ r, call.select = some r → Edit.Spare done r
  sound : d'.types.IndexSound
  graft : d.store.Grafted t d'.store (replacement call.select version).existingNodes
    (holderOf f σ q m) m k
  written : d'.store.Written f.store.size (replacement call.select version) (some k)

namespace Replaces

variable {f : SourceFile} {done : List Edit} {σ : NodeId → NodeId} {d d' : Draft} {t : Store}
  {q m k n : NodeId}
  {call : MethodInvocation} {version : String} {x : NodeData}

section

variable (h : Replaces f done σ d d' t q m k call version)

include h

theorem lt_size : m < f.store.size := h.held.lt_size h.reaches h.holds

theorem reaches_call : f.Reaches m := h.held.reaches h.reaches h.holds

theorem select_ne : call.select ≠ some m :=
  fun hm => h.held.acyclic m h.reaches_call (.single (h.matched.holds_select hm))

/-- Only the call itself moves. -/
theorem map_update {r : Ref} (hr : r ≠ some m) : r.map (Function.update σ m k) = r.map σ := by
  refine Option.map_congr fun n hn => Function.update_of_ne ?_ _ _
  rintro rfl
  exact hr hn

/-- A slot in which the call was has the new call, and the others have what they had. -/
theorem kept_slots {y z : NodeData} (hq : f.store.data? (some q) = some x)
    (hxy : x.Slotwise (fun a b => b = a.map σ) y)
    (hyz : y.replaceChild (some m) (some k) = some z) :
    x.Slotwise (fun a b => b = a.map (Function.update σ m k)) z := by
  have hmap : ∀ {r : Ref}, r.map σ = some m ↔ r = some m :=
    h.moved.map_eq_some_iff h.lt_size h.spare
  -- The call was in one slot, so it is in none now.
  have hgone : some m ∉ z.children := by
    have hcount := NodeData.count_replaceChild h.graft.new_ne.symm hyz
    have hle :=
      ChildField.count_le_of_forall₂
        (hxy.children fun a b hab => by rw [hab, Option.map_eq_none_iff])
      fun a b hab hb => hmap.1 (hab.symm.trans hb)
    have honce := h.once
    rw [Store.children_eq_of_data? hq] at honce
    rw [← List.count_eq_zero]
    omega
  have hxz := hxy.comp (T := fun a c => ChildField.Changed (some m) (some k) (a.map σ) c)
    (by rintro a _ c rfl hbc; exact hbc) (NodeData.slotwise_replaceChild hyz)
  refine hxz.imp_of_mem fun a c ha hc hac => ?_
  by_cases ham : a = some m
  · subst ham
    rw [Option.map_some, Function.update_self]
    rcases hac with rfl | ⟨-, rfl⟩
    · rw [hmap.2 rfl] at hc
      exact absurd (hc.resolve_left (by simp)) hgone
    · rfl
  · rw [h.map_update ham]
    exact hac.resolve_right fun hchanged => ham (hmap.1 hchanged.1)

theorem kept (hn : f.Reaches n) (hspare : Edit.Spare done n)
    (hx : f.store.data? (some n) = some x) :
    ∃ y, d'.store.data? (some n) = some y ∧
      x.Slotwise (fun a b => b = a.map (Function.update σ m k)) y := by
  obtain ⟨y, hy, hxy⟩ := h.moved.kept hn hspare hx
  by_cases hholder : n = holderOf f σ q m
  · -- A new node is not `n`, so the place of the call is in `q`.
    obtain rfl : n = q := by
      unfold holderOf at hholder
      split at hholder
      · exact (h.moved.eq_of_move_eq hn.lt_size hholder.symm).symm
      · exact hholder
    rw [hholder] at hy ⊢
    obtain ⟨z, hyz, hz⟩ := h.graft.data?_holder hy
    exact ⟨z, hz, h.kept_slots hx hxy hyz⟩
  · refine ⟨y, (h.graft.data?_old (hn.lt_size.trans_le h.moved.size_le) hholder).trans hy, ?_⟩
    refine hxy.imp_of_mem fun a b ha _ hab => hab.trans (h.map_update ?_).symm
    rintro rfl
    obtain rfl :=
      h.held.holder_eq h.reaches hn h.holds ((Store.holds_iff hx).2 (ha.resolve_left (by simp)))
    rw [holderOf, h.moved.spare hspare, ite_self] at hholder
    exact hholder rfl

/-- A call that was made before has the new call as its receiver, if it had the replaced one. -/
theorem called {call' : MethodInvocation} {version' : String} (hn : f.Reaches n)
    (hspare : ¬ Edit.Spare done n) (hmatched : Matched f n call' version') :
    d'.store.Written f.store.size
      (replacement (call'.select.map (Function.update σ m k)) version') (some (σ n)) := by
  have hwritten := h.moved.called hn hmatched hspare
  have hretains : ∀ used, some m ∉ used → d.store.Retains d'.store f.store.size used :=
    fun used hm => h.graft.retains (.inr ⟨h.lt_size, hm⟩)
  by_cases hselect : call'.select = some m
  · obtain rfl := h.held.holder_eq h.reaches hn h.holds (hmatched.holds_select hselect)
    have hholder : holderOf f σ n m = σ n := if_pos (hmatched.receiver?_eq.trans hselect)
    rw [hselect, Option.map_some, h.moved.spare h.spare] at hwritten
    obtain ⟨p, e, hp, hle, he, hreceiver, hname, harguments⟩ := hwritten
    obtain rfl := Option.some.inj hp
    have hreceiver : e.select = some m := hreceiver
    rw [← hholder] at he
    obtain ⟨z, hez, hz⟩ := h.graft.data?_holder he
    obtain rfl := Option.some.inj ((NodeData.replaceChild_select hreceiver).symm.trans hez)
    rw [hselect, Option.map_some, Function.update_self]
    exact ⟨_, { e with select := some k }, rfl, hle, hholder ▸ hz, rfl,
      hname.retained (hretains [] (by simp)),
      harguments.retained (hretains [] (by simp)) (List.Subset.refl _)⟩
  · rw [h.map_update hselect]
    refine hwritten.retained (hretains _ fun hm => hselect ?_) (List.Subset.refl _)
    exact (h.moved.map_eq_some_iff h.lt_size h.spare).1 (some_mem_existingNodes_replacement.1 hm)

/-- The receiver of the call is held by the new one. -/
theorem holds_receiver (hn : call.select = some n) : d'.store.Holds k n := by
  have hwritten := h.written
  rw [hn] at hwritten
  obtain ⟨p, e, hp, -, he, hselect, -⟩ := hwritten
  obtain rfl := Option.some.inj hp
  exact (Store.holds_iff he).2
    (NodeData.mem_children_methodInvocation.2 (.inl ⟨Eq.symm hselect, by simp⟩))

/-- And it is linked to it. -/
theorem parent_receiver (hn : call.select = some n) : d'.store.parent (some n) = some k := by
  have hlt : holderOf f σ q m < d.store.size :=
    Store.holds_lt_size (h.moved.held h.reaches h.holds h.spare)
  rcases h.graft.holds_cases (h.holds_receiver hn) with ⟨heq, -⟩ | ⟨hle, hnew⟩ | ⟨hlt', -⟩
  · exact absurd h.graft.fresh (Nat.not_le.2 (heq ▸ hlt))
  · exact h.graft.parent_of_fresh hlt hle hnew
  · exact absurd h.graft.fresh (Nat.not_le.2 hlt')

/-- The receiver has the new call for its holder, and the holders of other nodes stay. -/
theorem holderOf_receiver (hn : call.select = some n) :
    holderOf f (Function.update σ m k) m n = k := by
  rw [holderOf, if_pos (h.matched.receiver?_eq.trans hn), Function.update_self]

theorem holderOf_other {n' : NodeId} (hother : ¬ (n = m ∧ call.select = some n')) :
    holderOf f (Function.update σ m k) n n' = holderOf f σ n n' := by
  unfold holderOf
  by_cases hnm : n = m
  · subst hnm
    have hno : receiver? f n ≠ some n' :=
      fun heq => hother ⟨rfl, h.matched.receiver?_eq.symm.trans heq⟩
    rw [if_neg hno, if_neg hno]
  · rw [Function.update_of_ne hnm]

/-- A node that another one holds is no receiver of the call. -/
theorem not_mem_existingNodes {n' : NodeId} (hn : f.Reaches n) (hnn : f.store.Holds n n')
    (hother : ¬ (n = m ∧ call.select = some n')) :
    some n' ∉ (replacement call.select version).existingNodes := by
  intro hmem
  have hselect := some_mem_existingNodes_replacement.1 hmem
  exact hother ⟨h.held.holder_eq h.reaches_call hn (h.matched.holds_select hselect) hnn, hselect⟩

theorem holds_step {n' : NodeId} (hn : f.Reaches n) (hnn : f.store.Holds n n') (hne : n' ≠ m)
    (hspare : Edit.Spare done n') :
    d'.store.Holds (holderOf f (Function.update σ m k) n n') n' := by
  by_cases hreceiver : n = m ∧ call.select = some n'
  · obtain ⟨rfl, hselect⟩ := hreceiver
    rw [h.holderOf_receiver hselect]
    exact h.holds_receiver hselect
  · rw [h.holderOf_other hreceiver]
    exact h.graft.holds (h.moved.held hn hnn hspare) hne

theorem linked_step {n' : NodeId} (hn : f.Reaches n) (hnn : f.store.Holds n n') :
    d'.store.parent (some (Function.update σ m k n')) =
      some (holderOf f (Function.update σ m k) n n') := by
  by_cases hne : n' = m
  · subst hne
    obtain rfl := h.held.holder_eq h.reaches hn h.holds hnn
    have hother : ¬ (n = n' ∧ call.select = some n') := fun hc => h.select_ne hc.2
    rw [Function.update_self, h.graft.parent_new, h.holderOf_other hother]
  · rw [Function.update_of_ne hne]
    by_cases hreceiver : n = m ∧ call.select = some n'
    · obtain ⟨rfl, hselect⟩ := hreceiver
      rw [h.moved.spare (h.receiver n' hselect), h.holderOf_receiver hselect]
      exact h.parent_receiver hselect
    · have hreach := h.held.reaches hn hnn
      have hmove : σ n' ≠ m := fun heq => hne (h.moved.eq_of_move_eq h.lt_size heq)
      have hunused : some (σ n') ∉ (replacement call.select version).existingNodes := by
        intro hmem
        have hselect := some_mem_existingNodes_replacement.1 hmem
        have hlt := h.held.lt_size h.reaches_call (h.matched.holds_select hselect)
        rw [← h.moved.eq_of_move_eq hlt rfl] at hmem
        exact h.not_mem_existingNodes hn hnn hreceiver hmem
      rw [h.holderOf_other hreceiver, h.graft.parent_old (h.moved.lt_size hreach) hmove hunused]
      exact h.moved.linked hn hnn

/-- The root is no receiver, and so its link stays. -/
theorem top_step : d'.store.parent f.root = f.store.parent f.root := by
  obtain ⟨r, hr, hstart⟩ := h.reaches.exists_root
  have hne : ∀ {n n'}, f.Reaches n → f.store.Holds n n' → r ≠ n' := by
    rintro n _ hn hh rfl
    exact h.held.treelike.root_ne hn hh (h.held.lt_size hn hh) hr
  have hunused : some r ∉ (replacement call.select version).existingNodes := fun hmem =>
    hne h.reaches_call (h.matched.holds_select (some_mem_existingNodes_replacement.1 hmem)) rfl
  rw [← h.moved.top, hr]
  exact h.graft.parent_old (hstart.lt_size.trans_le h.moved.size_le) (hne h.reaches h.holds) hunused

/-- One replacement more. -/
theorem step {e : Edit} (he : e.replaced? = some (some m)) :
    Moved f (e :: done) (Function.update σ m k) d' := by
  have hcons : ∀ {n}, Edit.Spare (e :: done) n ↔ n ≠ m ∧ Edit.Spare done n :=
    Edit.spare_cons_iff_ne he
  have hnew : ∀ {n}, f.Reaches n → σ n ≠ k :=
    fun hn => ((h.moved.lt_size hn).trans_le h.graft.fresh).ne
  constructor
  case size_le => exact h.moved.size_le.trans h.graft.size_le
  case sound => exact h.sound
  case spare =>
    intro n hn
    obtain ⟨hne, hspare⟩ := hcons.1 hn
    rw [Function.update_of_ne hne, h.moved.spare hspare]
  case fresh =>
    intro n hn
    by_cases hnm : n = m
    · rw [hnm, Function.update_self]
      exact h.moved.size_le.trans h.graft.fresh
    · rw [Function.update_of_ne hnm]
      exact h.moved.fresh fun hspare => hn (hcons.2 ⟨hnm, hspare⟩)
  case lt_size =>
    intro n hn
    by_cases hnm : n = m
    · rw [hnm, Function.update_self]
      exact h.graft.new_lt
    · rw [Function.update_of_ne hnm]
      exact (h.moved.lt_size hn).trans_le h.graft.size_le
  case inj =>
    intro n n' hn hn' heq
    by_cases hnm : n = m <;> by_cases hnm' : n' = m
    · rw [hnm, hnm']
    · rw [hnm, Function.update_self, Function.update_of_ne hnm'] at heq
      exact absurd heq.symm (hnew hn')
    · rw [hnm', Function.update_self, Function.update_of_ne hnm] at heq
      exact absurd heq (hnew hn)
    · rw [Function.update_of_ne hnm, Function.update_of_ne hnm'] at heq
      exact h.moved.inj hn hn' heq
  case kept => exact fun hreach hn hx => h.kept hreach (hcons.1 hn).2 hx
  case called =>
    intro n call' version' hreach hmatched hn
    by_cases hnm : n = m
    · subst hnm
      obtain ⟨rfl, rfl⟩ := h.matched.unique hmatched
      have hselect : call.select.map (Function.update σ n k) = call.select := by
        rw [h.map_update h.select_ne]
        exact (Option.map_congr fun r hr => h.moved.spare (h.receiver r hr)).trans
          Option.map_id_apply
      rw [hselect, Function.update_self]
      exact h.written
    · rw [Function.update_of_ne hnm]
      exact h.called hreach (fun hspare => hn (hcons.2 ⟨hnm, hspare⟩)) hmatched
  case held =>
    intro n n' hn hnn hspare
    obtain ⟨hne, hspare⟩ := hcons.1 hspare
    exact h.holds_step hn hnn hne hspare
  case linked => exact fun hn hnn => h.linked_step hn hnn
  case top => exact h.top_step

end

end Replaces

/-- A call that has not been replaced and whose receiver has not been replaced can be. -/
theorem Moved.replace {f : SourceFile} {done : List Edit} {σ : NodeId → NodeId} {d : Draft}
    {q m : NodeId} {call : MethodInvocation} {version : String} (h : Moved f done σ d)
    (hheld : f.Held) (hq : f.Reaches q) (hqm : f.store.Holds q m)
    (honce : (f.store.children (some q)).count (some m) ≤ 1) (hmatched : Matched f m call version)
    (hspare : Edit.Spare done m) (hreceiver : ∀ r, call.select = some r → Edit.Spare done r) :
    ∃ d', d.applyEdit (.replaceExpression (some m) (replacement call.select version)) = .ok d' ∧
      ∃ σ', Moved f (.replaceExpression (some m) (replacement call.select version) :: done) σ'
        d' := by
  have hm := hheld.reaches hq hqm
  have hparent := h.linked hq hqm
  rw [h.spare hspare] at hparent
  have hself : some m ∉ (replacement call.select version).existingNodes :=
    fun hr => hheld.acyclic m hm (.single (holds_of_mem_existingNodes hmatched hr))
  have hsome : none ∉ (replacement call.select version).existingNodes := by
    simp [mem_existingNodes_replacement]
  obtain ⟨d', t, k, hd, hgrows, hgraft, hwritten⟩ := Draft.exists_replacement h.sound h.size_le
    hparent (h.held hq hqm hspare) (by simp [replacement])
      ((hmatched.usable hheld hm).mono h.size_le)
    hsome (.inr ⟨hm.lt_size, hself⟩)
  have hreplaces : Replaces f done σ d d' t q m k call version :=
    ⟨hheld, h, hq, hqm, honce, hmatched, hspare, hreceiver, hgrows.sound, hgraft, hwritten⟩
  exact ⟨d', hd, _, hreplaces.step rfl⟩

/-! ## All edits -/

/-- A call that stands for a version is in one slot of what holds it. -/
def Once (f : SourceFile) : Prop :=
  ∀ n m d version, f.Reaches n → VersionCall f m d version →
    (f.store.children (some n)).count (some m) ≤ 1

theorem once_of_forall {f : SourceFile} (h : ∀ n < f.store.size,
    ∀ r ∈ f.store.children (some n), (f.store.children (some n)).count r ≤ 1) : Once f := by
  intro n m d version hn _
  by_cases hm : some m ∈ f.store.children (some n)
  · exact h n hn.lt_size _ hm
  · rw [List.count_eq_zero.2 hm]
    exact Nat.zero_le 1

section

variable {f : SourceFile} (hheld : f.Held) (hindex : f.types.reindex = f.types)

include hheld hindex

/-- All edits are made. -/
theorem exists_moved (hroot : ∀ {n d version}, Matched f n d version → f.root ≠ some n)
    (honce : Once f) :
    ∃ d, Draft.applyEdits { store := f.store, types := f.types } (plan f).edits = .ok d ∧
      ∃ σ, Moved f (plan f).edits.reverse σ d := by
  have hsound : f.types.IndexSound := hindex ▸ (TypeTable.indexed_reindex f.types).sound
  refine Draft.exists_applyEdits (P := fun done d => ∃ σ, Moved f done σ d)
    ⟨id, .start hheld hsound⟩ ?_
  rintro done e rest d hsplit ⟨σ, h⟩
  obtain ⟨m, call, version, hm, hmatched, rfl⟩ := (mem_plan_iff hheld.acyclic hindex).1
    (show e ∈ (plan f).edits by simp [hsplit])
  have hapart := Edit.apart_of_split (apart_plan hheld hroot hindex) hsplit
  obtain ⟨q, hq, hqm⟩ := hmatched.exists_holder hroot hm
  refine h.replace hheld hq hqm (honce q m call version hq (matched_iff_versionCall.1 hmatched))
    hmatched (fun a ha har => (hapart a ha _ har).1 rfl)
    fun r hr a ha har => (hapart a ha _ har).2 ?_
  exact some_mem_existingNodes_replacement.2 hr

/-- The nodes that move are the calls that stand for a version. -/
theorem spare_iff {n : NodeId} (hn : f.Reaches n) :
    Edit.Spare (plan f).edits.reverse n ↔ ∀ d version, ¬ Matched f n d version := by
  constructor
  · intro hspare d version hmatched
    exact hspare _ (List.mem_reverse.2
      ((mem_plan_iff hheld.acyclic hindex).2 ⟨n, d, version, hn, hmatched, rfl⟩)) rfl
  · intro hno e he hreplaced
    obtain ⟨m, call, version, -, hmatched, rfl⟩ :=
      (mem_plan_iff hheld.acyclic hindex).1 (List.mem_reverse.1 he)
    obtain rfl : m = n := by simpa [Edit.replaced?] using hreplaced
    exact hno call version hmatched

theorem exists_matched {n : NodeId} (hn : f.Reaches n)
    (hspare : ¬ Edit.Spare (plan f).edits.reverse n) : ∃ d version, Matched f n d version := by
  by_contra hno
  simp only [not_exists] at hno
  exact hspare ((spare_iff hheld hindex hn).2 hno)

end

end ActuatorMediaType

end JavaRecipes
