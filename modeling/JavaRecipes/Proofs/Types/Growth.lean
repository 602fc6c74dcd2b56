import JavaRecipes.Edit.Apply
import JavaRecipes.Proofs.Types.Index
import Mathlib.Order.Nat

/-!
Type tables that grow. Interning leaves the entries that are there and adds others behind them; what
it gives is an entry of the name, or of the signature, that was asked for.
-/

namespace JavaRecipes

namespace TypeTable

theorem lt_size_of_get? {t : TypeTable} {id : TypeId} {e : TypeEntry} (h : t.get? id = some e) :
    id < t.size :=
  (Array.getElem?_eq_some_iff.1 h).1

theorem lt_size_of_name? {t : TypeTable} {id : TypeId} {name : String}
    (h : t.name? id = some name) :
    id < t.size := by
  obtain ⟨e, he, -⟩ := Option.bind_eq_some_iff.1 h
  exact lt_size_of_get? he

/-- `t'` is `t` with new entries behind it, which name only entries that are there. -/
structure Grows (t t' : TypeTable) : Prop where
  size_le : t.size ≤ t'.size
  get?_old : ∀ {id}, id < t.size → t'.get? id = t.get? id
  sound : t'.IndexSound
  typeIds_new : ∀ {id e}, t.size ≤ id → t'.get? id = some e → ∀ i ∈ e.typeIds, i < t'.size

namespace Grows

theorem refl {t : TypeTable} (h : t.IndexSound) : t.Grows t where
  size_le := Nat.le_refl _
  get?_old _ := rfl
  sound := h
  typeIds_new hid he := absurd (lt_size_of_get? he) (Nat.not_lt.2 hid)

theorem trans {t u v : TypeTable} (h : t.Grows u) (h' : u.Grows v) : t.Grows v where
  size_le := h.size_le.trans h'.size_le
  get?_old hid := by rw [h'.get?_old (hid.trans_le h.size_le), h.get?_old hid]
  sound := h'.sound
  typeIds_new := by
    intro id e hid he i hi
    by_cases hidu : id < u.size
    · rw [h'.get?_old hidu] at he
      exact (h.typeIds_new hid he i hi).trans_le h'.size_le
    · exact h'.typeIds_new (Nat.not_lt.1 hidu) he i hi

theorem get? {t t' : TypeTable} (h : t.Grows t') {id : TypeId} {e : TypeEntry}
    (he : t.get? id = some e) :
    t'.get? id = some e := by
  rw [h.get?_old (lt_size_of_get? he), he]

theorem methodAt? {t t' : TypeTable} (h : t.Grows t') {id : TypeId} {m : MethodType}
    (hm : t.methodAt? id = some m) : t'.methodAt? id = some m := by
  obtain ⟨e, he, hem⟩ := Option.bind_eq_some_iff.1 hm
  exact Option.bind_eq_some_iff.2 ⟨e, h.get? he, hem⟩

theorem name? {t t' : TypeTable} (h : t.Grows t') {id : TypeId} {name : String}
    (hn : t.name? id = some name) : t'.name? id = some name := by
  obtain ⟨e, he, hen⟩ := Option.bind_eq_some_iff.1 hn
  exact Option.bind_eq_some_iff.2 ⟨e, h.get? he, hen⟩

theorem name?_eq {t t' : TypeTable} (h : t.Grows t') {id : TypeId} (hid : id < t.size) :
    t'.name? id = t.name? id := by
  rw [TypeTable.name?, TypeTable.name?, h.get?_old hid]

theorem methodAt?_eq {t t' : TypeTable} (h : t.Grows t') {id : TypeId} (hid : id < t.size) :
    t'.methodAt? id = t.methodAt? id := by
  rw [TypeTable.methodAt?, TypeTable.methodAt?, h.get?_old hid]

end Grows

/-- The types that the entries name are there. -/
def InRange (t : TypeTable) : Prop :=
  ∀ id e, t.get? id = some e → ∀ i ∈ e.typeIds, i < t.size

theorem InRange.of_methodAt? {t : TypeTable} (h : t.InRange) {id : TypeId} {m : MethodType}
    (hm : t.methodAt? id = some m) : ∀ i ∈ (TypeEntry.method m).typeIds, i < t.size := by
  obtain ⟨e, he, hem⟩ := Option.bind_eq_some_iff.1 hm
  cases e with
  | method m' =>
    obtain rfl := Option.some.inj hem
    exact h id _ he
  | _ => cases hem

/-! ## Adding an entry -/

theorem IndexSound.push {t : TypeTable} (ht : t.IndexSound) (e : TypeEntry) :
    (t.push e).IndexSound := by
  intro name id hid
  have hold := ht name id hid
  have hne : id ≠ t.size := Nat.ne_of_lt (lt_size_of_className? hold)
  rwa [className?, classAt?, get?_push, if_neg hne]

theorem size_push (t : TypeTable) (e : TypeEntry) : (t.push e).size = t.size + 1 := by
  simp [push, size]

theorem Grows.push {t : TypeTable} (ht : t.IndexSound) {e : TypeEntry}
    (he : ∀ i ∈ e.typeIds, i < t.size) :
    t.Grows (t.push e) where
  size_le := by
    rw [size_push]
    exact Nat.le_succ _
  get?_old hid := by rw [get?_push, if_neg (Nat.ne_of_lt hid)]
  sound := ht.push e
  typeIds_new := by
    intro id e' hid he' i hi
    rw [get?_push] at he'
    split at he'
    · obtain rfl := Option.some.inj he'
      rw [size_push]
      exact (he i hi).trans (Nat.lt_succ_self _)
    · exact absurd (lt_size_of_get? he') (Nat.not_lt.2 hid)

/-! ## Interning -/

theorem internEntry_spec {t : TypeTable} (ht : t.IndexSound) {e : TypeEntry}
    (he : ∀ i ∈ e.typeIds, i < t.size) :
    t.Grows (t.internEntry e).2 ∧ (t.internEntry e).2.get? (t.internEntry e).1 = some e := by
  unfold internEntry
  split
  · rename_i id hid
    refine ⟨.refl ht, ?_⟩
    obtain ⟨hlt, heq, -⟩ := List.findIdx?_eq_some_iff_getElem.1 hid
    simp only [decide_eq_true_eq] at heq
    rw [get?, Array.getElem?_eq_getElem (by simpa using hlt), ← heq]
    simp
  · exact ⟨.push ht he, by rw [get?_push, if_pos rfl]⟩

theorem internClass_spec {t : TypeTable} (ht : t.IndexSound) (name : String) (owner : Option TypeId)
    (howner : ∀ i, owner = some i → i < t.size) :
    t.Grows (t.internClass name owner).2 ∧
      (t.internClass name owner).2.name? (t.internClass name owner).1 = some name := by
  have hsound := ht.internClass name owner
  have hfound :=
    hsound name (t.internClass name owner).1 (by rw [lookupClass_internClass, if_pos rfl])
  have hsize : t.size ≤ (t.internClass name owner).2.size := by
    unfold internClass
    split
    · exact Nat.le_refl _
    · change t.size ≤ (t.push _).size
      rw [size_push]
      exact Nat.le_succ _
  refine ⟨⟨hsize, get?_internClass t name owner, hsound, ?_⟩, name?_of_className? hfound⟩
  intro id e hid he i hi
  obtain ⟨-, -, rfl⟩ := get?_internClass_of_size_le t name owner hid he
  exact (howner i (by simpa [TypeEntry.typeIds] using hi)).trans_le hsize

theorem internName_spec {t : TypeTable} (ht : t.IndexSound) (name : String) :
    t.Grows (t.internName name).2 ∧
    (t.internName name).2.name? (t.internName name).1 = some name := by
  unfold internName
  split
  · rename_i p hp
    obtain ⟨hgrows, hget⟩ := internEntry_spec ht (e := .primitive p) (by simp [TypeEntry.typeIds])
    refine ⟨hgrows, ?_⟩
    rw [internPrimitive, TypeTable.name?, hget]
    exact congrArg some (Primitive.keyword_eq_of_ofKeyword? hp)
  · exact internClass_spec ht name none (by simp)

theorem internNames_spec {t : TypeTable} (ht : t.IndexSound) (names : List String) :
    t.Grows (t.internNames names).2 ∧
      (t.internNames names).1.map (t.internNames names).2.name? = names.map some := by
  induction names generalizing t with
  | nil => exact ⟨.refl ht, rfl⟩
  | cons name names ih =>
    obtain ⟨hgrows, hname⟩ := internName_spec ht name
    obtain ⟨hgrows', hnames⟩ := ih hgrows.sound
    simp only [internNames, List.map_cons, hnames, hgrows'.name? hname]
    exact ⟨hgrows.trans hgrows', trivial⟩

/-- An entry spells a signature. -/
structure Spells (t : TypeTable) (m : MethodType) (signature : MethodSignature) : Prop where
  name : m.name = signature.name
  declaring : t.name? m.declaring = some signature.declaring
  returns : m.returns.map t.name? = signature.returns.map some
  params : m.params.map t.name? = signature.params.map some

namespace Spells

theorem lt_size {t : TypeTable} {m : MethodType} {signature : MethodSignature}
    (h : t.Spells m signature) :
    ∀ i ∈ (TypeEntry.method m).typeIds, i < t.size := by
  intro i hi
  simp only [TypeEntry.typeIds, List.cons_append, List.mem_cons, List.mem_append, Option.mem_toList]
    at hi
  rcases hi with rfl | hi | hi
  · exact lt_size_of_name? h.declaring
  · have hreturns := h.returns
    rw [hi] at hreturns
    cases hs : signature.returns with
    | none => simp [hs] at hreturns
    | some name => exact lt_size_of_name? (by simpa [hs] using hreturns)
  · have hmem : t.name? i ∈ signature.params.map some := h.params ▸ List.mem_map_of_mem hi
    obtain ⟨name, -, hname⟩ := List.mem_map.1 hmem
    exact lt_size_of_name? hname.symm

theorem grows {t t' : TypeTable} {m : MethodType} {signature : MethodSignature}
    (h : t.Spells m signature) (hgrows : t.Grows t') : t'.Spells m signature := by
  have hsame : ∀ i ∈ (TypeEntry.method m).typeIds, t'.name? i = t.name? i := fun i hi => by
    rw [TypeTable.name?, TypeTable.name?, hgrows.get?_old (h.lt_size i hi)]
  simp only [TypeEntry.typeIds, List.cons_append, List.mem_cons, List.mem_append, Option.mem_toList]
    at hsame
  refine ⟨h.name, hgrows.name? h.declaring, ?_, ?_⟩
  · rw [← h.returns]
    exact Option.map_congr fun i hi => hsame i (.inr (.inl hi))
  · rw [← h.params]
    exact List.map_congr_left fun i hi => hsame i (.inr (.inr hi))

theorem bind_returns {t : TypeTable} {m : MethodType} {signature : MethodSignature}
    (h : t.Spells m signature) : m.returns.bind t.name? = signature.returns := by
  have hreturns := h.returns
  cases hm : m.returns <;> cases hs : signature.returns <;> simp_all

end Spells

/-- The entry of a signature is found or added. -/
theorem internSignature_spec {t : TypeTable} (ht : t.IndexSound) (signature : MethodSignature) :
    t.Grows (t.internSignature signature).2 ∧ ∃ m,
      (t.internSignature signature).2.methodAt? (t.internSignature signature).1 = some m ∧
        (t.internSignature signature).2.Spells m signature := by
  obtain ⟨declaring, name, returns, params⟩ := signature
  obtain ⟨hclass, hdeclaring⟩ := internClass_spec ht declaring none (by simp)
  obtain ⟨r, u, hru, hreturns, hr⟩ : ∃ r u, (match returns with
      | none => (none, (t.internClass declaring none).2)
      | some name => (some ((t.internClass declaring none).2.internName name).1,
          ((t.internClass declaring none).2.internName name).2)) = (r, u) ∧
      (t.internClass declaring none).2.Grows u ∧ r.map u.name? = returns.map some := by
    cases returns with
    | none => exact ⟨_, _, rfl, .refl hclass.sound, rfl⟩
    | some name =>
      obtain ⟨hgrows, hname⟩ := internName_spec hclass.sound name
      exact ⟨_, _, rfl, hgrows, by simp [hname]⟩
  obtain ⟨hparams, hnames⟩ := internNames_spec hreturns.sound params
  have hspells : (u.internNames params).2.Spells ⟨(t.internClass declaring none).1, name, r,
      (u.internNames params).1⟩ ⟨declaring, name, returns, params⟩ := by
    refine ⟨rfl, (hreturns.trans hparams).name? hdeclaring, ?_, hnames⟩
    rw [← hr]
    refine Option.map_congr fun i hi => ?_
    obtain rfl : r = some i := hi
    obtain ⟨name, -, hname⟩ := Option.map_eq_some_iff.1 hr.symm
    rw [← hname, hparams.name? hname.symm]
  obtain ⟨hmethod, hget⟩ := internEntry_spec hparams.sound hspells.lt_size
  have heq : t.internSignature ⟨declaring, name, returns, params⟩ =
      (u.internNames params).2.internMethod ⟨(t.internClass declaring none).1, name, r,
        (u.internNames params).1⟩ := by
    cases returns with
    | none =>
      obtain ⟨rfl, rfl⟩ := Prod.mk.inj hru
      rfl
    | some name =>
      obtain ⟨rfl, rfl⟩ := Prod.mk.inj hru
      rfl
  rw [heq]
  refine ⟨((hclass.trans hreturns).trans hparams).trans hmethod, _, ?_, hspells.grows hmethod⟩
  simp only [internMethod, TypeTable.methodAt?, hget]
  rfl

end TypeTable

end JavaRecipes
