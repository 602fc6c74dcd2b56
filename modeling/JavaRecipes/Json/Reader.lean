import JavaRecipes.Json.Basic

/-!
Reading JSON text. Nothing but the standard is accepted: no trailing comma or text, no comment, no
raw control character in a string.
-/

namespace JavaRecipes.Json

def isSpace (c : Char) : Bool := c = ' ' || c = '\n' || c = '\t' || c = '\r'

def skipSpaces (cs : List Char) : List Char := cs.dropWhile isSpace

def hexDigit? (c : Char) : Option Nat :=
  if '0' ≤ c && c ≤ '9' then some (c.toNat - 48)
  else if 'a' ≤ c && c ≤ 'f' then some (c.toNat - 87)
  else if 'A' ≤ c && c ≤ 'F' then some (c.toNat - 55)
  else none

/-- The value of four hexadecimal digits. -/
def hex4? (a b c d : Char) : Option Nat := do
  let a ← hexDigit? a
  let b ← hexDigit? b
  let c ← hexDigit? c
  let d ← hexDigit? d
  some (((a * 16 + b) * 16 + c) * 16 + d)

def isHighSurrogate (n : Nat) : Bool := 0xD800 ≤ n && n < 0xDC00

def isLowSurrogate (n : Nat) : Bool := 0xDC00 ≤ n && n < 0xE000

def joinSurrogates (high low : Nat) : Char :=
  Char.ofNat (0x10000 + (high - 0xD800) * 0x400 + (low - 0xDC00))

/-- One item of a string: a character, or a unit of sixteen bits written as `\u` and four digits. -/
inductive Mark where
  | char (c : Char)
  | unit (n : Nat)
  deriving DecidableEq, Repr

/-- Reads a string after its opening quote, up to and with the closing one. -/
def readMarks : List Char → Option (List Mark × List Char)
  | [] => none
  | '"' :: rest => some ([], rest)
  | '\\' :: 'u' :: a :: b :: c :: d :: rest => do
    let n ← hex4? a b c d
    let (marks, rest) ← readMarks rest
    some (.unit n :: marks, rest)
  | '\\' :: c :: rest => do
    let c ← escaped? c
    let (marks, rest) ← readMarks rest
    some (.char c :: marks, rest)
  | c :: rest =>
    if c = '\\' || c.toNat < 0x20 then none
    else (readMarks rest).map fun (marks, rest) => (.char c :: marks, rest)
where
  /-- The character a letter after the backslash stands for. -/
  escaped? : Char → Option Char
    | '"' => some '"'
    | '\\' => some '\\'
    | '/' => some '/'
    | 'b' => some '\x08'
    | 'f' => some '\x0c'
    | 'n' => some '\n'
    | 'r' => some '\r'
    | 't' => some '\t'
    | _ => none

/-- The text the marks spell: units that are surrogates come in pairs, or there is no text. -/
def joinMarks : List Mark → Option (List Char)
  | [] => some []
  | .char c :: marks => (joinMarks marks).map (c :: ·)
  | .unit n :: .unit m :: marks =>
    if isHighSurrogate n then
      if isLowSurrogate m then (joinMarks marks).map (joinSurrogates n m :: ·) else none
    else if isLowSurrogate n then none
    else (joinMarks (.unit m :: marks)).map (Char.ofNat n :: ·)
  | .unit n :: marks =>
    if isHighSurrogate n || isLowSurrogate n then none
    else (joinMarks marks).map (Char.ofNat n :: ·)

/-- Reads a string after its opening quote. -/
def readText (cs : List Char) : Option (Option String × List Char) :=
  (readMarks cs).map fun (marks, rest) => ((joinMarks marks).map String.ofList, rest)

/-- The digits a text starts with, at least one, and what follows them. -/
def readDigits (cs : List Char) : Option (List Char × List Char) :=
  match cs.takeWhile Char.isDigit with
  | [] => none
  | ds => some (ds, cs.dropWhile Char.isDigit)

/-- The whole part of a number: a zero stands alone. -/
def readWhole : List Char → Option (List Char × List Char)
  | '0' :: rest => some (['0'], rest)
  | cs => readDigits cs

/-- The digits after the point, if there is one. -/
def readFraction : List Char → Option (Option (List Char) × List Char)
  | '.' :: rest => (readDigits rest).map fun (ds, rest) => (some ds, rest)
  | cs => some (none, cs)

/-- The exponent, if there is one. -/
def readExponent (cs : List Char) : Option (Option Int × List Char) :=
  let magnitude (sign : Int) (cs : List Char) :=
    (readDigits cs).map fun (ds, rest) => (some (sign * (Nat.ofDigitChars 10 ds 0 : Int)), rest)
  let signed (cs : List Char) := match cs with
    | '-' :: rest => magnitude (-1) rest
    | '+' :: rest => magnitude 1 rest
    | rest => magnitude 1 rest
  match cs with
  | 'e' :: rest => signed rest
  | 'E' :: rest => signed rest
  | cs => some (none, cs)

def readNumber (cs : List Char) : Option (Number × List Char) := do
  let (negative, cs) := match cs with
    | '-' :: rest => (true, rest)
    | cs => (false, cs)
  let (whole, cs) ← readWhole cs
  let (fraction, cs) ← readFraction cs
  let (exponent, cs) ← readExponent cs
  let digits := fraction.getD []
  some ({
    negative
    significand := Nat.ofDigitChars 10 (whole ++ digits) 0
    exponent := exponent.getD 0 - digits.length
    whole := fraction.isNone && exponent.isNone }, cs)

mutual

/-- Reads one value after any spaces. The first argument bounds the nesting of calls. -/
def readValue : Nat → List Char → Option (Json × List Char)
  | 0, _ => none
  | fuel + 1, cs =>
    match skipSpaces cs with
    | 'n' :: 'u' :: 'l' :: 'l' :: rest => some (.null, rest)
    | 't' :: 'r' :: 'u' :: 'e' :: rest => some (.bool true, rest)
    | 'f' :: 'a' :: 'l' :: 's' :: 'e' :: rest => some (.bool false, rest)
    | '"' :: rest => (readText rest).map fun (t, rest) => (.string t, rest)
    | '[' :: rest =>
      match skipSpaces rest with
      | ']' :: rest => some (.array [], rest)
      | rest => (readItems fuel rest).map fun (items, rest) => (.array items, rest)
    | '{' :: rest =>
      match skipSpaces rest with
      | '}' :: rest => some (.object [], rest)
      | rest => (readFields fuel rest).map fun (fields, rest) => (.object fields, rest)
    | rest => (readNumber rest).map fun (n, rest) => (.number n, rest)

/-- Reads the items of an array, at least one, and the closing bracket. -/
def readItems : Nat → List Char → Option (List Json × List Char)
  | 0, _ => none
  | fuel + 1, cs => do
    let (item, rest) ← readValue fuel cs
    match skipSpaces rest with
    | ',' :: rest => (readItems fuel rest).map fun (items, rest) => (item :: items, rest)
    | ']' :: rest => some ([item], rest)
    | _ => none

/-- Reads the fields of an object, at least one, and the closing brace. -/
def readFields : Nat → List Char → Option (List (Option String × Json) × List Char)
  | 0, _ => none
  | fuel + 1, cs =>
    match skipSpaces cs with
    | '"' :: rest => do
      let (key, rest) ← readText rest
      match skipSpaces rest with
      | ':' :: rest => do
        let (value, rest) ← readValue fuel rest
        let field := (key, value)
        match skipSpaces rest with
        | ',' :: rest => (readFields fuel rest).map fun (fields, rest) => (field :: fields, rest)
        | '}' :: rest => some ([field], rest)
        | _ => none
      | _ => none
    | _ => none

end

/-- The value a text spells. Two calls per character are enough: each bracket opens two, each item
one more. -/
def parse (s : String) : Option Json := do
  let cs := s.toList
  let (value, rest) ← readValue (2 * cs.length + 2) cs
  if (skipSpaces rest).isEmpty then some value else none

end JavaRecipes.Json
