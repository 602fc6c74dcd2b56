import JavaRecipes.Text.Blank

/-!
The formats of log output.
-/

namespace JavaRecipes

inductive LogFormat where
  | text | tree | json
  deriving DecidableEq, Repr

namespace LogFormat

def label : LogFormat → String
  | .text => "Text"
  | .tree => "Tree"
  | .json => "Json"

/-- The format of a name, blanks around it and the case of ASCII letters aside; plain text for any
other name. -/
def ofName (name : String) : LogFormat :=
  let letters := (Text.trim name.toList).map Char.toLower
  if letters = "tree".toList then .tree
  else if letters = "json".toList then .json
  else .text

end LogFormat

end JavaRecipes
