/-!
The bounded walk outward that owner chains, enclosing declarations and scopes are found by: start
somewhere, go to what encloses it, and stop where the visitor says so.
-/

namespace JavaRecipes

/-- How a walk ended. -/
inductive Walk (β : Type) where
  /-- The visitor stopped it. -/
  | found (b : β)
  /-- There was nothing further out. -/
  | exhausted
  | limitReached
  deriving DecidableEq, Repr

def Walk.found? {β : Type} : Walk β → Option β
  | .found b => some b
  | _ => none

/-- Visit a position, then what encloses it, and so on, at most so many positions in all. The
visitor stops the walk by giving a value. -/
def walkOutward {σ β : Type} (enclosing : σ → Option σ) (visit : σ → Option β) : Nat → σ → Walk β
  | 0, _ => .limitReached
  | limit + 1, position =>
    match visit position with
    | some b => .found b
    | none =>
      match enclosing position with
      | some next => walkOutward enclosing visit limit next
      | none => .exhausted

/-- The positions a walk visits. -/
def walkTrail {σ β : Type} (enclosing : σ → Option σ) (visit : σ → Option β) : Nat → σ → List σ
  | 0, _ => []
  | limit + 1, position =>
    position ::
      match visit position, enclosing position with
      | none, some next => walkTrail enclosing visit limit next
      | _, _ => []

/-- The most nodes one walk up a tree visits. -/
def scopeWalkLimit : Nat := 10000

/-- The most entries one walk along owners visits. -/
def ownerWalkLimit : Nat := 256

end JavaRecipes
