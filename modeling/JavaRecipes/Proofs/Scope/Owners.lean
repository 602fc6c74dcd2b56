import JavaRecipes.Proofs.Scope.Outward
import JavaRecipes.Scope.Owner

/-!
Owner chains. The root owner of a type is where its chain first comes to something that nothing
owns, or that the chain ends before; so it is the same all along the chain.
-/

namespace JavaRecipes

namespace TypeEntry

/-- A class that is in no other, or a type that nothing can own. -/
inductive Topmost : TypeEntry → Prop
  | classType (name : String) : Topmost (.classType ⟨name, none⟩)
  | primitive (p : Primitive) : Topmost (.primitive p)
  | unknown : Topmost .unknown

theorem isRoot_iff {e : TypeEntry} : e.isRoot ↔ e.Topmost := by
  constructor
  · intro h
    rcases e with ⟨name, _ | owner⟩ | p | m | v | _
    · exact .classType name
    · cases h
    · exact .primitive p
    · cases h
    · cases h
    · exact .unknown
  · rintro (_ | _ | _) <;> rfl

theorem Topmost.owner? {e : TypeEntry} (h : e.Topmost) : e.owner? = none := by
  cases h <;> rfl

/-- An entry without an owner is topmost, or a variable. -/
theorem topmost_or_variable {e : TypeEntry} (h : e.owner? = none) :
    e.Topmost ∨ ∃ v, e = .variable v ∧ v.owner = none := by
  rcases e with ⟨name, owner⟩ | p | m | v | _
  · cases (h : owner = none)
    exact .inl (.classType name)
  · exact .inl (.primitive p)
  · cases h
  · exact .inr ⟨v, rfl, h⟩
  · exact .inl .unknown

end TypeEntry

namespace TypeTable

variable {t : TypeTable} {id r u : TypeId} {k : Nat}

/-- The type after so many owners. -/
def ownerAfter (t : TypeTable) (id : TypeId) (k : Nat) : Option TypeId := outward t.owner? id k

/-- The entry is topmost. -/
def IsRoot (t : TypeTable) (id : TypeId) : Prop := ∃ e, t.get? id = some e ∧ e.Topmost

/-- The chain breaks off here: there is no such entry, or it is a variable without an owner. -/
def BreaksOff (t : TypeTable) (id : TypeId) : Prop :=
  t.get? id = none ∨ ∃ v, t.get? id = some (.variable v) ∧ v.owner = none

theorem IsRoot.owner? (h : t.IsRoot id) : t.owner? id = none := by
  obtain ⟨e, he, htop⟩ := h
  rw [TypeTable.owner?, he, Option.bind_some, htop.owner?]

theorem BreaksOff.owner? (h : t.BreaksOff id) : t.owner? id = none := by
  rcases h with hnone | ⟨v, hv, howner⟩
  · rw [TypeTable.owner?, hnone, Option.bind_none]
  · rw [TypeTable.owner?, hv, Option.bind_some]
    exact howner

theorem BreaksOff.not_isRoot (h : t.BreaksOff id) : ¬ t.IsRoot id := by
  rintro ⟨e, he, htop⟩
  rcases h with hnone | ⟨v, hv, -⟩
  · rw [hnone] at he
    cases he
  · obtain rfl := Option.some.inj (hv.symm.trans he)
    cases htop

/-- A chain ends at a root, or breaks off. -/
theorem isRoot_or_breaksOff (h : t.owner? id = none) : t.IsRoot id ∨ t.BreaksOff id := by
  cases he : t.get? id with
  | none => exact .inr (.inl he)
  | some e =>
    rw [owner?, he, Option.bind_some] at h
    rcases TypeEntry.topmost_or_variable h with htop | ⟨v, rfl, howner⟩
    · exact .inl ⟨e, he, htop⟩
    · exact .inr (.inr ⟨v, he, howner⟩)

/-! ## The walk along owners -/

/-- What the walk along owners says at a type: a root stops it. -/
def rootVisit (t : TypeTable) (id : TypeId) : Option TypeId :=
  if (t.get? id).any TypeEntry.isRoot then some id else none

theorem rootVisit_eq_some_iff : t.rootVisit id = some r ↔ id = r ∧ t.IsRoot id := by
  unfold rootVisit IsRoot
  cases t.get? id with
  | none => simp
  | some e => simp [TypeEntry.isRoot_iff, and_comm]

theorem rootVisit_eq_none_iff : t.rootVisit id = none ↔ ¬ t.IsRoot id := by
  rw [Option.eq_none_iff_forall_ne_some]
  simp [rootVisit_eq_some_iff]

/-- The walk comes to `u` after `k` owners, and no root is before. -/
theorem arrives_iff : Arrives t.owner? t.rootVisit id k u ↔
    t.ownerAfter id k = some u ∧ ∀ j < k, ∀ v, t.ownerAfter id j = some v → ¬ t.IsRoot v := by
  simp [Arrives, ownerAfter, rootVisit_eq_none_iff]

/-- The root owner by how the walk ends. -/
theorem rootOwner_eq (t : TypeTable) (id : TypeId) : t.rootOwner id =
    match walkOutward t.owner? t.rootVisit ownerWalkLimit id with
    | .found root => some (.type root)
    | .exhausted => some .unowned
    | .limitReached => none := rfl

theorem rootOwner_eq_type_iff : t.rootOwner id = some (.type r) ↔
    ∃ k < ownerWalkLimit, t.ownerAfter id k = some r ∧ t.IsRoot r ∧
      ∀ j < k, ∀ u, t.ownerAfter id j = some u → ¬ t.IsRoot u := by
  have hfound : t.rootOwner id = some (.type r) ↔
      walkOutward t.owner? t.rootVisit ownerWalkLimit id = .found r := by
    rw [rootOwner_eq]
    cases walkOutward t.owner? t.rootVisit ownerWalkLimit id <;> simp
  rw [hfound, walkOutward_eq_found_iff]
  simp only [arrives_iff, rootVisit_eq_some_iff]
  constructor
  · rintro ⟨k, hk, u, ⟨hu, hbefore⟩, rfl, hroot⟩
    exact ⟨k, hk, hu, hroot, hbefore⟩
  · rintro ⟨k, hk, hr, hroot, hbefore⟩
    exact ⟨k, hk, r, ⟨hr, hbefore⟩, rfl, hroot⟩

/-- A chain goes on after what has an owner only, so no root is before its end. -/
theorem not_isRoot_before {j : Nat} {v : TypeId} (hu : t.ownerAfter id k = some u) (hj : j < k)
    (hv : t.ownerAfter id j = some v) : ¬ t.IsRoot v := by
  intro hroot
  obtain ⟨i, rfl⟩ := Nat.exists_eq_add_of_lt hj
  rw [Nat.add_assoc, ownerAfter, outward_add, ← ownerAfter, hv, Option.bind_some, outward_succ,
    hroot.owner?] at hu
  cases hu

theorem rootOwner_eq_unowned_iff : t.rootOwner id = some .unowned ↔
    ∃ k < ownerWalkLimit, ∃ u, t.ownerAfter id k = some u ∧ t.BreaksOff u := by
  have hexhausted : t.rootOwner id = some .unowned ↔
      walkOutward t.owner? t.rootVisit ownerWalkLimit id = .exhausted := by
    rw [rootOwner_eq]
    cases walkOutward t.owner? t.rootVisit ownerWalkLimit id <;> simp
  rw [hexhausted, walkOutward_eq_exhausted_iff]
  simp only [arrives_iff, rootVisit_eq_none_iff]
  constructor
  · rintro ⟨k, hk, u, ⟨hu, -⟩, hroot, hend⟩
    exact ⟨k, hk, u, hu, (isRoot_or_breaksOff hend).resolve_left hroot⟩
  · rintro ⟨k, hk, u, hu, hbreak⟩
    exact ⟨k, hk, u, ⟨hu, fun j hj v => not_isRoot_before hu hj⟩, hbreak.not_isRoot, hbreak.owner?⟩

/-- There is no answer when the chain goes on for as long as the walk may follow it. -/
theorem rootOwner_eq_none_iff : t.rootOwner id = none ↔
    ∀ k < ownerWalkLimit, ∃ u, t.ownerAfter id k = some u ∧ ¬ t.IsRoot u ∧ ¬ t.BreaksOff u := by
  constructor
  · intro hnone
    have hgoesOn : ∀ k < ownerWalkLimit, ∀ u, t.ownerAfter id k = some u →
        ¬ t.IsRoot u ∧ ¬ t.BreaksOff u := by
      intro k hk u hu
      constructor
      · intro hroot
        rw [rootOwner_eq_type_iff.2 ⟨k, hk, hu, hroot, fun j hj v => not_isRoot_before hu hj⟩]
          at hnone
        cases hnone
      · intro hbreak
        rw [rootOwner_eq_unowned_iff.2 ⟨k, hk, u, hu, hbreak⟩] at hnone
        cases hnone
    have hcomes : ∀ k < ownerWalkLimit, ∃ u, t.ownerAfter id k = some u := by
      intro k hk
      induction k with
      | zero => exact ⟨id, rfl⟩
      | succ k ih =>
        obtain ⟨u, hu⟩ := ih (by omega)
        obtain ⟨hroot, hbreak⟩ := hgoesOn k (by omega) u hu
        cases ho : t.owner? u with
        | none => exact ((isRoot_or_breaksOff ho).elim hroot hbreak).elim
        | some o => exact ⟨o, Option.bind_eq_some_iff.2 ⟨u, hu, ho⟩⟩
    intro k hk
    obtain ⟨u, hu⟩ := hcomes k hk
    exact ⟨u, hu, hgoesOn k hk u hu⟩
  · intro h
    cases hroot : t.rootOwner id with
    | none => rfl
    | some x =>
      cases x with
      | type r =>
        obtain ⟨k, hk, hr, hr', -⟩ := rootOwner_eq_type_iff.1 hroot
        obtain ⟨u, hu, hnot, -⟩ := h k hk
        obtain rfl := Option.some.inj (hr.symm.trans hu)
        exact absurd hr' hnot
      | unowned =>
        obtain ⟨k, hk, u, hu, hbreak⟩ := rootOwner_eq_unowned_iff.1 hroot
        obtain ⟨v, hv, -, hnot⟩ := h k hk
        obtain rfl := Option.some.inj (hu.symm.trans hv)
        exact absurd hbreak hnot

/-- A class that owns itself has no root owner. -/
example : (TypeTable.mk #[.classType ⟨"sample.Loop", some 0⟩] []).rootOwner 0 = none := by
  decide +kernel

/-- An owner has the root owner of what it owns. -/
theorem rootOwner_owner? {o : TypeId} {x : RootOwner} (ho : t.owner? id = some o)
    (h : t.rootOwner id = some x) :
    t.rootOwner o = some x := by
  have hvisit : t.rootVisit id = none := by
    rw [rootVisit_eq_none_iff]
    intro hroot
    rw [hroot.owner?] at ho
    cases ho
  have hended : walkOutward t.owner? t.rootVisit ownerWalkLimit id ≠ .limitReached := by
    intro hlimit
    rw [rootOwner_eq, hlimit] at h
    cases h
  rw [rootOwner_eq, walkOutward_next hvisit ho hended]
  exact h

theorem rootOwner_ownerAfter {x : RootOwner} (h : t.rootOwner id = some x)
    (hu : t.ownerAfter id k = some u) :
    t.rootOwner u = some x := by
  induction k generalizing u with
  | zero =>
    obtain rfl := Option.some.inj hu
    exact h
  | succ k ih =>
    obtain ⟨v, hv, hu⟩ := Option.bind_eq_some_iff.1 hu
    exact rootOwner_owner? hu (ih hv)

/-- The root owner is the first root of the chain, and unowned is what the chain breaks off before,
both as far as the walk may follow it. All types of a chain that has an end have the same one, and a
root has itself. -/
theorem rootOwner_along_chain (t : TypeTable) (id : TypeId) :
    (∀ r, t.rootOwner id = some (.type r) ↔
      ∃ k < ownerWalkLimit, t.ownerAfter id k = some r ∧ t.IsRoot r ∧
      ∀ j < k, ∀ u, t.ownerAfter id j = some u → ¬ t.IsRoot u) ∧
    (t.rootOwner id = some .unowned ↔
      ∃ k < ownerWalkLimit, ∃ u, t.ownerAfter id k = some u ∧ t.BreaksOff u) ∧
    (t.rootOwner id = none ↔
      ∀ k < ownerWalkLimit, ∃ u, t.ownerAfter id k = some u ∧ ¬ t.IsRoot u ∧ ¬ t.BreaksOff u) ∧
    (∀ x, t.rootOwner id = some x → ∀ k u, t.ownerAfter id k = some u → t.rootOwner u = some x) ∧
    (∀ r, t.IsRoot r → t.rootOwner r = some (.type r)) := by
  refine ⟨fun r => rootOwner_eq_type_iff, rootOwner_eq_unowned_iff, rootOwner_eq_none_iff,
    fun x hx k u hu => rootOwner_ownerAfter hx hu, fun r hr => ?_⟩
  exact rootOwner_eq_type_iff.2 ⟨0, by decide, rfl, hr, by simp⟩

end TypeTable

end JavaRecipes
