import JavaRecipes.Json.Basic

/-!
Writing JSON text, on one line or with an indentation of two blanks a level.
-/

namespace JavaRecipes.Json

def hexChar (n : Nat) : Char := if n < 10 then Char.ofNat (48 + n) else Char.ofNat (87 + n)

/-- Quotes, backslashes and control characters are escaped, all else stands for itself. -/
def escapeChar (c : Char) : List Char :=
  if c = '"' then ['\\', '"']
  else if c = '\\' then ['\\', '\\']
  else if c = '\x08' then ['\\', 'b']
  else if c = '\x0c' then ['\\', 'f']
  else if c = '\n' then ['\\', 'n']
  else if c = '\r' then ['\\', 'r']
  else if c = '\t' then ['\\', 't']
  else if c.toNat < 0x20 then ['\\', 'u', '0', '0', hexChar (c.toNat / 16), hexChar (c.toNat % 16)]
  else [c]

/-- A quoted string. What stands for no text is written as half of a surrogate pair. -/
def quote : Option String → List Char
  | some s => '"' :: s.toList.flatMap escapeChar ++ ['"']
  | none => ['"', '\\', 'u', 'd', '8', '0', '0', '"']

def writeNumber (n : Number) : List Char :=
  (if n.negative then ['-'] else []) ++ Nat.toDigits 10 n.significand ++
    if n.whole then []
    else 'e' :: (if n.exponent < 0 then ['-'] else []) ++ Nat.toDigits 10 n.exponent.natAbs

mutual

/-- The value on one line. -/
def compact : Json → List Char
  | .null => "null".toList
  | .bool true => "true".toList
  | .bool false => "false".toList
  | .number n => writeNumber n
  | .string s => quote s
  | .array items => '[' :: compactItems items ++ [']']
  | .object fields => '{' :: compactFields fields ++ ['}']

def compactItems : List Json → List Char
  | [] => []
  | [item] => compact item
  | item :: items => compact item ++ ',' :: compactItems items

def compactFields : List (Option String × Json) → List Char
  | [] => []
  | [(key, value)] => quote key ++ ':' :: compact value
  | (key, value) :: fields => quote key ++ ':' :: compact value ++ ',' :: compactFields fields

end

/-- A line break and the indentation of `level`. -/
def breakLine (level : Nat) : List Char := '\n' :: List.replicate (2 * level) ' '

mutual

/-- The value with each item and field on a line of its own. -/
def pretty (level : Nat) : Json → List Char
  | .null => "null".toList
  | .bool true => "true".toList
  | .bool false => "false".toList
  | .number n => writeNumber n
  | .string s => quote s
  | .array [] => ['[', ']']
  | .array items => '[' :: prettyItems (level + 1) items ++ breakLine level ++ [']']
  | .object [] => ['{', '}']
  | .object fields => '{' :: prettyFields (level + 1) fields ++ breakLine level ++ ['}']

def prettyItems (level : Nat) : List Json → List Char
  | [] => []
  | [item] => breakLine level ++ pretty level item
  | item :: items => breakLine level ++ pretty level item ++ ',' :: prettyItems level items

def prettyFields (level : Nat) : List (Option String × Json) → List Char
  | [] => []
  | [(key, value)] => breakLine level ++ quote key ++ ':' :: ' ' :: pretty level value
  | (key, value) :: fields =>
    breakLine level ++ quote key ++ ':' :: ' ' :: pretty level value ++
      ',' :: prettyFields level fields

end

/-- The value on one line, as a text. -/
def line (v : Json) : String := String.ofList (compact v)

end JavaRecipes.Json
