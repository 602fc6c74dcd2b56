import JavaRecipes.Text.Blank

/-!
Attributed types: primitives, classes, methods and variables. Methods, variables and nested classes
name what they belong to by its position in the type table.
-/

namespace JavaRecipes

inductive Primitive where
  | boolean | byte | char | short | int | long | float | double | void
  deriving DecidableEq, Repr

namespace Primitive

def all : List Primitive :=
  [.boolean, .byte, .char, .short, .int, .long, .float, .double, .void]

def keyword : Primitive → String
  | .boolean => "boolean"
  | .byte => "byte"
  | .char => "char"
  | .short => "short"
  | .int => "int"
  | .long => "long"
  | .float => "float"
  | .double => "double"
  | .void => "void"

def ofKeyword? (s : String) : Option Primitive := all.find? fun p => p.keyword == s

theorem ofKeyword?_keyword (p : Primitive) : ofKeyword? p.keyword = some p := by
  cases p <;> decide

theorem keyword_eq_of_ofKeyword? {s : String} {p : Primitive} (h : ofKeyword? s = some p) :
    p.keyword = s := by
  have := List.find?_some h
  simpa using this

end Primitive

/-- Position of an entry in a type table. -/
abbrev TypeId := Nat

structure ClassType where
  name : String
  /-- The enclosing class of a nested one. -/
  owner : Option TypeId
  deriving DecidableEq, Repr

structure MethodType where
  declaring : TypeId
  name : String
  returns : Option TypeId
  params : List TypeId
  deriving DecidableEq, Repr

structure VariableType where
  name : String
  /-- The method or class that declares the variable. -/
  owner : Option TypeId
  type : Option TypeId
  deriving DecidableEq, Repr

inductive TypeEntry where
  | classType (c : ClassType)
  | primitive (p : Primitive)
  | method (m : MethodType)
  | variable (v : VariableType)
  | unknown
  deriving DecidableEq, Repr

namespace TypeEntry

def asClass? : TypeEntry → Option ClassType
  | .classType c => some c
  | _ => none

def asMethod? : TypeEntry → Option MethodType
  | .method m => some m
  | _ => none

def asVariable? : TypeEntry → Option VariableType
  | .variable v => some v
  | _ => none

/-- The qualified name of a class or the keyword of a primitive. -/
def name? : TypeEntry → Option String
  | .classType c => some c.name
  | .primitive p => some p.keyword
  | _ => none

end TypeEntry

/-! ## Qualified class names -/

namespace ClassName

/-- What follows the last `.` or `$`. -/
def simple (name : String) : String :=
  match Text.cutAtLast (fun c => c = '.' || c = '$') name.toList with
  | some (_, rest) => String.ofList rest
  | none => name

/-- What stands before the last `.`; empty in the default package. -/
def package (name : String) : String :=
  match Text.cutAtLast (· = '.') name.toList with
  | some (front, _) => String.ofList front
  | none => ""

/-- All before the simple name, with the separator. -/
def qualifier (name : String) : String :=
  String.ofList (name.toList.take (name.length - (simple name).length))

end ClassName

end JavaRecipes
