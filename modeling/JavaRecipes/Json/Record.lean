import JavaRecipes.Json.Basic

/-!
Taking JSON values apart. A record is an object with known keys or an array of the same values in
the same order; a variant is a name, or an object whose only key is the name.
-/

namespace JavaRecipes.Json

/-- The values of a record's fields in the order of `names`, `none` for those left out. Unknown keys
are skipped, a repeated known one is refused. An array has all the values, the last `tail` of which
may be left off. -/
def record? (names : List String) (tail : Nat) : Json → Option (List (Option Json))
  | .object fields =>
    if fields.all (·.1.isSome) &&
        names.all (fun name => (fields.filter (·.1 == some name)).length ≤ 1) then
      some (names.map fun name => (fields.find? (·.1 == some name)).map (·.2))
    else none
  | .array items =>
    if names.length ≤ items.length + tail && items.length ≤ names.length then
      some (items.map some ++ List.replicate (names.length - items.length) none)
    else none
  | _ => none

/-- The name of a variant and its content, if it has one. -/
def variant? : Json → Option (String × Option Json)
  | .string (some name) => some (name, none)
  | .object [(some name, content)] => some (name, some content)
  | _ => none

/-- The name of a variant that has no content. -/
def unitVariant? (v : Json) : Option String :=
  match v.variant? with
  | some (name, none) => some name
  | some (name, some .null) => some name
  | _ => none

def text? : Json → Option String
  | .string s => s
  | _ => none

def bool? : Json → Option Bool
  | .bool b => some b
  | _ => none

/-- An integer from `low` to `high`. -/
def int? (low high : Int) : Json → Option Int
  | .number n => do
    let i ← n.int?
    if low ≤ i ∧ i ≤ high then some i else none
  | _ => none

/-- A whole number of 32 bits. -/
def word? (v : Json) : Option Nat := (v.int? 0 4294967295).map Int.toNat

def list? {α : Type} (f : Json → Option α) : Json → Option (List α)
  | .array items => items.mapM f
  | _ => none

/-- A field that must be there. -/
def required? {α : Type} (f : Json → Option α) (v : Option Json) : Option α := v.bind f

/-- A field that may be left out or `null`. -/
def optional? {α : Type} (f : Json → Option α) : Option Json → Option (Option α)
  | none => some none
  | some .null => some none
  | some v => (f v).map some

/-- A field with a value of its own when left out. -/
def defaulted? {α : Type} (fallback : α) (f : Json → Option α) : Option Json → Option α
  | none => some fallback
  | some v => f v

mutual

/-- Every text can be read, every number is finite and containers nest at most `depth` deep. -/
def isPlain (depth : Nat) : Json → Bool
  | .null => true
  | .bool _ => true
  | .number n => n.isFinite
  | .string s => s.isSome
  | .array items => 0 < depth && arePlain (depth - 1) items
  | .object fields => 0 < depth && areFieldsPlain (depth - 1) fields

def arePlain (depth : Nat) : List Json → Bool
  | [] => true
  | item :: items => isPlain depth item && arePlain depth items

def areFieldsPlain (depth : Nat) : List (Option String × Json) → Bool
  | [] => true
  | (key, value) :: fields => key.isSome && isPlain depth value && areFieldsPlain depth fields

end

end JavaRecipes.Json
