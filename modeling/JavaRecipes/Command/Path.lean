import JavaRecipes.Text.Blank

/-!
Paths as texts. Between the slashes stand names; empty ones and single dots count for nothing,
except a dot at the very start, and two dots lead to the directory above.
-/

namespace JavaRecipes.Path

/-- The texts between the slashes. -/
def segments (p : String) : List String := (Text.splitAt '/' p.toList).map String.ofList

/-- A segment that leads nowhere. -/
def isIdle (segment : String) : Bool := segment = "" || segment = "."

/-- The segments that lead somewhere. -/
def steps (p : String) : List String := (segments p).filter (!isIdle ·)

/-- A slash at the start. -/
def isAbsolute (p : String) : Bool := p.toList.head? = some '/'

/-- The path ends in a slash or a dot, so that it can only be a directory. -/
def namesDirectory (p : String) : Bool := ((segments p).getLast?).any isIdle

/-- The last name of a path. -/
def fileName? (p : String) : Option String :=
  match (steps p).getLast? with
  | some ".." => none
  | name => name

/-- The path of `q` under `p`. -/
def join (p q : String) : String :=
  if p.isEmpty || p.toList.getLast? = some '/' then p ++ q else p ++ "/" ++ q

/-- Drop the segments at the end that lead nowhere; the first one stays. -/
def dropIdleEnd : List String → List String
  | [] => []
  | segment :: rest => segment :: (rest.reverse.dropWhile isIdle).reverse

/-- The path without its last name; none if it has no name. -/
def parent? (p : String) : Option String :=
  match dropIdleEnd (segments p) with
  | [] => none
  | [segment] => if segment = "" then none else some ""
  | segments =>
    match dropIdleEnd segments.dropLast with
    | [""] => some "/"
    | above => some (Text.joinWith "/" above)

/-- The part of a file name after its last dot; a dot at the start does not count. -/
def extension? (name : String) : Option String :=
  if name = ".." then none
  else match Text.cutAtLast (· = '.') name.toList with
    | some ([], _) => none
    | some (_, rest) => some (String.ofList rest)
    | none => none

end JavaRecipes.Path
