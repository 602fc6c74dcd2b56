import JavaRecipes.Proofs.Tree.Reach
import JavaRecipes.Proofs.Tree.Stored
import JavaRecipes.Proofs.Types.Growth

/-!
The types of what a snippet builds: the type table grows, new nodes name entries of it, and a new
call is of a method that the snippet spells.
-/

namespace JavaRecipes

namespace Snippet

mutual

/-- The signatures of the calls in a snippet. -/
def signatures : Snippet → List MethodSignature
  | .existing _ => []
  | .stringLiteral _ => []
  | .typeName _ => []
  | .staticField target _ _ _ => signatures target
  | .invocation select signature arguments =>
    signature :: (signaturesOption select ++ signaturesList arguments)

def signaturesOption : Option Snippet → List MethodSignature
  | none => []
  | some s => signatures s

def signaturesList : List Snippet → List MethodSignature
  | [] => []
  | s :: ss => signatures s ++ signaturesList ss

end

end Snippet

namespace Draft

/-- `d'` is `d` with new nodes and types, and calls among the new nodes are of the given
signatures. -/
structure Builds (signatures : List MethodSignature) (d d' : Draft) : Prop where
  size_le : d.store.size ≤ d'.store.size
  data?_old : ∀ {n}, n < d.store.size → d'.store.data? (some n) = d.store.data? (some n)
  types : d.types.Grows d'.types
  typeIds : ∀ {n x}, d.store.size ≤ n → d'.store.data? (some n) = some x →
    ∀ i ∈ x.typeIds, i < d'.types.size
  calls : ∀ {n c}, d.store.size ≤ n → d'.store.data? (some n) = some (.methodInvocation c) →
    ∃ id m, c.type = some id ∧ d'.types.methodAt? id = some m ∧
      ∃ signature ∈ signatures, d'.types.Spells m signature

namespace Builds

theorem refl {d : Draft} (h : d.types.IndexSound) : Builds [] d d where
  size_le := Nat.le_refl _
  data?_old _ := rfl
  types := .refl h
  typeIds hn hx := absurd (Store.lt_size_of_data? hx) (Nat.not_lt.2 hn)
  calls hn hx := absurd (Store.lt_size_of_data? hx) (Nat.not_lt.2 hn)

theorem mono {signatures signatures' : List MethodSignature} {d d' : Draft}
    (h : Builds signatures d d') (hsub : ∀ s ∈ signatures, s ∈ signatures') :
    Builds signatures' d d' where
  size_le := h.size_le
  data?_old := h.data?_old
  types := h.types
  typeIds := h.typeIds
  calls hn hx :=
    let ⟨id, m, hid, hm, s, hs, hspells⟩ := h.calls hn hx
    ⟨id, m, hid, hm, s, hsub s hs, hspells⟩

theorem trans {signatures signatures' : List MethodSignature} {d d' d'' : Draft}
    (h : Builds signatures d d') (h' : Builds signatures' d' d'') :
    Builds (signatures ++ signatures') d d'' where
  size_le := h.size_le.trans h'.size_le
  data?_old hn := by rw [h'.data?_old (hn.trans_le h.size_le), h.data?_old hn]
  types := h.types.trans h'.types
  typeIds := by
    intro n x hn hx i hi
    by_cases hlt : n < d'.store.size
    · rw [h'.data?_old hlt] at hx
      exact (h.typeIds hn hx i hi).trans_le h'.types.size_le
    · exact h'.typeIds (Nat.not_lt.1 hlt) hx i hi
  calls := by
    intro n c hn hx
    by_cases hlt : n < d'.store.size
    · rw [h'.data?_old hlt] at hx
      obtain ⟨id, m, hid, hm, s, hs, hspells⟩ := h.calls hn hx
      exact ⟨id, m, hid, h'.types.methodAt? hm, s, List.mem_append_left _ hs,
        hspells.grows h'.types⟩
    · obtain ⟨id, m, hid, hm, s, hs, hspells⟩ := h'.calls (Nat.not_lt.1 hlt) hx
      exact ⟨id, m, hid, hm, s, List.mem_append_right _ hs, hspells⟩

/-- Only the types change. -/
theorem retype {signatures : List MethodSignature} {d d' : Draft} (h : Builds signatures d d')
    {types : TypeTable} (hgrows : d'.types.Grows types) :
    Builds signatures d { d' with types } := by
  have hsame : Builds [] d' { d' with types } :=
    ⟨Nat.le_refl _, fun _ => rfl, hgrows,
      fun hn hx => absurd (Store.lt_size_of_data? hx) (Nat.not_lt.2 hn),
      fun hn hx => absurd (Store.lt_size_of_data? hx) (Nat.not_lt.2 hn)⟩
  simpa using h.trans hsame

/-- A new node over types that are there. -/
theorem add {signatures : List MethodSignature} {d d' : Draft} (h : Builds signatures d d')
    (data : NodeData) (hids : ∀ i ∈ data.typeIds, i < d'.types.size)
    (hcall : ∀ c, data = .methodInvocation c →
      ∃ id m, c.type = some id ∧ d'.types.methodAt? id = some m ∧
      ∃ signature ∈ signatures, d'.types.Spells m signature) :
    Builds signatures d (d'.add data).2 := by
  have hdata := Store.data?_add d'.store data
  have hcase : ∀ {n x}, (d'.add data).2.store.data? (some n) = some x →
      (n = d'.store.size ∧ x = data) ∨ d'.store.data? (some n) = some x := by
    intro n x hx
    have hx : (d'.store.add data).2.data? (some n) = some x := hx
    rw [hdata] at hx
    split at hx
    · rename_i hn
      exact .inl ⟨Option.some.inj hn, (Option.some.inj hx).symm⟩
    · exact .inr hx
  constructor
  · exact h.size_le.trans ((Nat.le_succ _).trans_eq (Store.size_add _ _).symm)
  · intro n hn
    have hne : (some n : Ref) ≠ some d'.store.size := by
      simpa using (hn.trans_le h.size_le).ne
    rw [← h.data?_old hn]
    change (d'.store.add data).2.data? (some n) = _
    rw [hdata, if_neg hne]
  · exact h.types
  · intro n x hn hx
    rcases hcase hx with ⟨-, rfl⟩ | hx
    · exact hids
    · exact h.typeIds hn hx
  · intro n c hn hx
    rcases hcase hx with ⟨-, hc⟩ | hx
    · exact hcall c hc.symm
    · exact h.calls hn hx

end Builds

theorem classType_spec {d : Draft} (h : d.types.IndexSound) (name : String) :
    Builds [] d (d.classType name).2 ∧
    (d.classType name).2.types.name? (d.classType name).1 = some name := by
  obtain ⟨hgrows, hname⟩ := TypeTable.internClass_spec h name none (by simp)
  exact ⟨(Builds.refl h).retype hgrows, hname⟩

theorem typeNamed?_spec {d : Draft} (h : d.types.IndexSound) (name : Option String) :
    Builds [] d (d.typeNamed? name).2 ∧
      ∀ i, (d.typeNamed? name).1 = some i → i < (d.typeNamed? name).2.types.size := by
  cases name with
  | none => exact ⟨.refl h, by simp [typeNamed?]⟩
  | some name =>
    obtain ⟨hgrows, hname⟩ := TypeTable.internName_spec h name
    refine ⟨(Builds.refl h).retype hgrows, ?_⟩
    rintro i hi
    obtain rfl := Option.some.inj hi
    exact TypeTable.lt_size_of_name? hname

theorem variableType_spec {d : Draft} (h : d.types.IndexSound) (v : VariableType)
    (hv : ∀ i ∈ (TypeEntry.variable v).typeIds, i < d.types.size) :
    Builds [] d (d.variableType v).2 ∧ (d.variableType v).1 < (d.variableType v).2.types.size := by
  refine ⟨(Builds.refl h).retype (.push h hv), ?_⟩
  change d.types.size < (d.types.push _).size
  rw [TypeTable.size_push]
  exact Nat.lt_succ_self _

mutual

theorem builds_materialize : ∀ (snippet : Snippet) (d : Draft), d.types.IndexSound →
    Builds snippet.signatures d (d.materialize snippet).2
  | .existing r, d, h => .refl h
  | .stringLiteral value, d, h => by
    obtain ⟨hbuilds, hname⟩ := classType_spec h stringClass
    simp only [materialize, stringLiteral, literal, literalType]
    refine hbuilds.add _ ?_ (by simp)
    simpa [NodeData.typeIds] using TypeTable.lt_size_of_name? hname
  | .typeName name, d, h => by
    obtain ⟨hbuilds, hname⟩ := classType_spec h name
    simp only [materialize, typeRef, identifier]
    refine hbuilds.add _ ?_ (by simp)
    simpa [NodeData.typeIds] using TypeTable.lt_size_of_name? hname
  | .staticField target owner name fieldType, d, h => by
    have htarget := builds_materialize target d h
    obtain ⟨howner, hname⟩ := classType_spec htarget.types.sound owner
    obtain ⟨htype, hlt⟩ := typeNamed?_spec howner.types.sound fieldType
    obtain ⟨hvariable, hid⟩ := variableType_spec htype.types.sound
      ⟨name, some ((d.materialize target).2.classType owner).1,
        (((d.materialize target).2.classType owner).2.typeNamed? fieldType).1⟩ (by
        intro i hi
        simp only [TypeEntry.typeIds, List.mem_append, Option.mem_toList, Option.some.injEq] at hi
        rcases hi with rfl | hi
        · exact TypeTable.lt_size_of_name? (htype.types.name? hname)
        · exact hlt i hi)
    have hbuilt := ((htarget.trans howner).trans htype).trans hvariable
    simp only [List.append_nil] at hbuilt
    have hlt' := fun i hi => (hlt i hi).trans_le hvariable.types.size_le
    simp only [materialize]
    refine (hbuilt.add _ ?_ (by simp)).add _ ?_ (by simp)
    · intro i hi
      simp only [NodeData.typeIds, List.mem_append, Option.mem_toList, Option.some.injEq] at hi
      rcases hi with hi | rfl
      · exact hlt' i hi
      · exact hid
    · intro i hi
      simp only [NodeData.typeIds, Option.mem_toList] at hi
      exact hlt' i hi
  | .invocation select signature arguments, d, h => by
    have hselect := builds_materializeOption select d h
    have harguments := builds_materializeList arguments _ hselect.types.sound
    obtain ⟨hgrows, m, hm, hspells⟩ :=
      TypeTable.internSignature_spec harguments.types.sound signature
    have hbuilt := (((hselect.trans harguments).retype hgrows).mono
      fun s hs => List.mem_cons_of_mem signature hs)
    have hmlt := hspells.lt_size
    obtain ⟨e, he, hem⟩ := Option.bind_eq_some_iff.1 hm
    simp only [materialize, identifier]
    refine (hbuilt.add _ ?_ (by simp)).add _ ?_ ?_
    · intro i hi
      refine hmlt i ?_
      simp only [NodeData.typeIds, hm, Option.bind_some, Option.toList_none, List.append_nil,
        Option.mem_toList] at hi
      simp [TypeEntry.typeIds, hi]
    · intro i hi
      simp only [NodeData.typeIds, Option.toList_some, List.mem_singleton] at hi
      rw [hi]
      exact TypeTable.lt_size_of_get? he
    · rintro c hc
      obtain rfl := NodeData.methodInvocation.inj hc
      exact ⟨_, m, rfl, hm, signature, List.mem_cons_self, hspells⟩

theorem builds_materializeOption : ∀ (snippet : Option Snippet) (d : Draft), d.types.IndexSound →
    Builds (Snippet.signaturesOption snippet) d (d.materializeOption snippet).2
  | none, _, h => .refl h
  | some snippet, d, h => builds_materialize snippet d h

theorem builds_materializeList : ∀ (snippets : List Snippet) (d : Draft), d.types.IndexSound →
    Builds (Snippet.signaturesList snippets) d (d.materializeList snippets).2
  | [], _, h => .refl h
  | snippet :: snippets, d, h =>
    (builds_materialize snippet d h).trans
      (builds_materializeList snippets _ (builds_materialize snippet d h).types.sound)

end

end Draft

end JavaRecipes
