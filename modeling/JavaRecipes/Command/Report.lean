import JavaRecipes.Command.Run

/-!
The report of a run, in plain text or with terminal styles.
-/

namespace JavaRecipes

/-- A style of a terminal. -/
inductive TextStyle where
  | bold | boldGreen | dim
  deriving DecidableEq, Repr

namespace TextStyle

def start : TextStyle → String
  | .bold => "\x1b[1m"
  | .boldGreen => "\x1b[1;32m"
  | .dim => "\x1b[2m"

/-- The end of every style. -/
def reset : String := "\x1b[0m"

/-- Put `again` after every end of a style. -/
def resume (again : List Char) : List Char → List Char
  | [] => []
  | '\x1b' :: '[' :: '0' :: 'm' :: rest =>
    '\x1b' :: '[' :: '0' :: 'm' :: again ++ resume again rest
  | c :: rest => c :: resume again rest

/-- The text in a style, which is taken up again where the text itself ends one. -/
def paint (style : TextStyle) (s : String) : String :=
  style.start ++ String.ofList (resume style.start.toList s.toList) ++ reset

/-- The text in a style, if styles are wanted. -/
def paintIf (color : Bool) (style : TextStyle) (s : String) : String :=
  if color then style.paint s else s

end TextStyle

/-- A source between empty lines. -/
def framedSource (source : String) : String :=
  "\n" ++ source ++ (if source.toList.getLast? = some '\n' then "" else "\n") ++ "\n"

/-- The lines about one changed file. -/
def ChangedFile.render (color : Bool) (c : ChangedFile) : String :=
  TextStyle.paintIf color .boldGreen "changed" ++ " " ++ c.sourcePath ++ " (" ++
    TextStyle.paintIf color .dim (Text.joinWith ", " c.recipes) ++ ")\n" ++
    (match c.written with
      | some path => "  -> " ++ path ++ "\n"
      | none => "") ++
    (match c.rendered with
      | some source => framedSource source
      | none => "")

/-- The changed files and a summary. -/
def RunResult.render (color : Bool) (r : RunResult) : String :=
  String.join (r.changed.map (ChangedFile.render color)) ++
    TextStyle.paintIf color .bold
      s!"{r.changed.length} of {r.filesRead} file(s) changed by {r.recipes.length} recipe(s)" ++
        "\n"

end JavaRecipes
