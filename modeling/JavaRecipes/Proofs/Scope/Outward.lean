import JavaRecipes.Scope.Walk

/-!
How a bounded walk outward ends, told by the positions it comes to: it finds what the visitor says
at the first position that says something, ends where nothing is further out, or has come as many
steps as its limit (`walkOutward_eq_found_iff`, `walkOutward_eq_exhausted_iff`,
`walkOutward_eq_limitReached_iff`).
-/

namespace JavaRecipes

/-- Where so many steps outward lead, if there are so many. -/
def outward {σ : Type} (enclosing : σ → Option σ) (start : σ) : Nat → Option σ
  | 0 => some start
  | k + 1 => (outward enclosing start k).bind enclosing

/-- After `k` steps a walk comes to `q`, and the visitor has said nothing before. -/
def Arrives {σ β : Type} (enclosing : σ → Option σ) (visit : σ → Option β) (start : σ) (k : Nat)
    (q : σ) : Prop :=
  outward enclosing start k = some q ∧ ∀ j < k, ∀ p, outward enclosing start j = some p →
    visit p = none

section

variable {σ β : Type} {enclosing : σ → Option σ} {visit : σ → Option β} {start q : σ}
  {k limit : Nat}

@[simp]
theorem outward_zero (start : σ) : outward enclosing start 0 = some start := rfl

theorem outward_succ (start : σ) (k : Nat) :
    outward enclosing start (k + 1) = (enclosing start).bind fun next =>
      outward enclosing next k := by
  induction k with
  | zero => cases h : enclosing start <;> simp [outward, h]
  | succ k ih => rw [outward, ih, Option.bind_assoc]; rfl

theorem outward_add (start : σ) (j k : Nat) :
    outward enclosing start (j + k) = (outward enclosing start j).bind fun q =>
      outward enclosing q k := by
  induction k with
  | zero => simp [outward]
  | succ k ih => rw [← Nat.add_assoc, outward, ih, Option.bind_assoc]; rfl

theorem arrives_zero : Arrives enclosing visit start 0 q ↔ q = start := by
  simp [Arrives, outward, eq_comm]

theorem arrives_succ : Arrives enclosing visit start (k + 1) q ↔
    visit start = none ∧ ∃ next, enclosing start = some next ∧
      Arrives enclosing visit next k q := by
  unfold Arrives
  rw [outward_succ, Nat.forall_lt_succ_left]
  cases hnext : enclosing start with
  | none => simp
  | some next =>
    have hshift : ∀ j, outward enclosing start (j + 1) = outward enclosing next j := by
      simp [outward_succ, hnext]
    simp only [hshift, outward_zero, Option.bind_some, Option.some.injEq,
      exists_eq_left', forall_eq']
    exact and_left_comm

/-- A walk finds what the visitor says where it says something first. -/
theorem walkOutward_eq_found_iff {b : β} : walkOutward enclosing visit limit start = .found b ↔
    ∃ k < limit, ∃ q, Arrives enclosing visit start k q ∧ visit q = some b := by
  induction limit generalizing start with
  | zero => simp [walkOutward]
  | succ limit ih =>
    simp only [Nat.exists_lt_succ_left, arrives_zero, arrives_succ, exists_eq_left, walkOutward]
    cases hvisit : visit start with
    | some c => simp
    | none => cases hnext : enclosing start <;> simp [ih]

/-- A walk ends without a find where nothing is further out. -/
theorem walkOutward_eq_exhausted_iff : walkOutward enclosing visit limit start = .exhausted ↔
    ∃ k < limit, ∃ q, Arrives enclosing visit start k q ∧ visit q = none ∧ enclosing q = none := by
  induction limit generalizing start with
  | zero => simp [walkOutward]
  | succ limit ih =>
    simp only [Nat.exists_lt_succ_left, arrives_zero, arrives_succ, exists_eq_left, walkOutward]
    cases hvisit : visit start with
    | some c => simp
    | none => cases hnext : enclosing start <;> simp [ih]

/-- A walk is at its limit when it would go on after that many positions. -/
theorem walkOutward_eq_limitReached_iff : walkOutward enclosing visit limit start = .limitReached ↔
    ∃ q, Arrives enclosing visit start limit q := by
  induction limit generalizing start with
  | zero => simp [walkOutward, arrives_zero]
  | succ limit ih =>
    simp only [arrives_succ, walkOutward]
    cases hvisit : visit start with
    | some c => simp
    | none => cases hnext : enclosing start <;> simp [ih]

/-- A walk that has ended is not changed by a higher limit. -/
theorem walkOutward_mono {limit' : Nat} (hle : limit ≤ limit')
    (h : walkOutward enclosing visit limit start ≠ .limitReached) :
    walkOutward enclosing visit limit' start = walkOutward enclosing visit limit start := by
  cases hwalk : walkOutward enclosing visit limit start with
  | found b =>
    obtain ⟨k, hk, hq⟩ := walkOutward_eq_found_iff.1 hwalk
    exact walkOutward_eq_found_iff.2 ⟨k, by omega, hq⟩
  | exhausted =>
    obtain ⟨k, hk, hq⟩ := walkOutward_eq_exhausted_iff.1 hwalk
    exact walkOutward_eq_exhausted_iff.2 ⟨k, by omega, hq⟩
  | limitReached => exact absurd hwalk h

/-- A walk that has ended ends alike from the next position on. -/
theorem walkOutward_next {next : σ} (hvisit : visit start = none)
    (hnext : enclosing start = some next)
    (h : walkOutward enclosing visit limit start ≠ .limitReached) :
    walkOutward enclosing visit limit next = walkOutward enclosing visit limit start := by
  cases limit with
  | zero => exact absurd rfl h
  | succ limit =>
    have hstep : walkOutward enclosing visit (limit + 1) start =
        walkOutward enclosing visit limit next := by
      simp [walkOutward, hvisit, hnext]
    rw [hstep] at h ⊢
    exact walkOutward_mono (Nat.le_succ limit) h

end

end JavaRecipes
