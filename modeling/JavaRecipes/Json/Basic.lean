import JavaRecipes.Json.Number

/-!
JSON values as they are written: fields keep their order and their repetitions, numbers their
decimal form.
-/

namespace JavaRecipes

/-- A JSON value. A text or key is `none` when one of its escapes is half of a surrogate pair: it is
well-formed and can be skipped, but stands for no text. -/
inductive Json where
  | null
  | bool (b : Bool)
  | number (n : Number)
  | string (s : Option String)
  | array (items : List Json)
  | object (fields : List (Option String × Json))

namespace Json

def text (s : String) : Json := .string (some s)

def int (i : Int) : Json := .number (.ofInt i)

def nat (n : Nat) : Json := int n

def fields (fs : List (String × Json)) : Json := .object (fs.map fun f => (some f.1, f.2))

/-- `null`, or the value. -/
def option {α : Type} (f : α → Json) : Option α → Json
  | none => .null
  | some a => f a

end Json

end JavaRecipes
