import JavaRecipes.Types.Basic

/-!
The type table of a file. Class types are interned by their qualified name through an index that is
kept beside the entries, primitives and methods by equality; every variable is an entry of its own.
-/

namespace JavaRecipes

/-- Class names with the positions of their entries, each name once. -/
abbrev ClassIndex := List (String × TypeId)

namespace ClassIndex

def find? : ClassIndex → String → Option TypeId
  | [], _ => none
  | (key, id) :: rest, name => if key = name then some id else find? rest name

/-- Set the position of a name; a new name comes last. -/
def put : ClassIndex → String → TypeId → ClassIndex
  | [], name, id => [(name, id)]
  | (key, old) :: rest, name, id =>
    if key = name then (key, id) :: rest else (key, old) :: put rest name id

/-- Give the position of one name to another. -/
def rekey (index : ClassIndex) (source target : String) : ClassIndex :=
  index.map fun (key, id) => (if key = source then target else key, id)

@[simp]
theorem find?_put (index : ClassIndex) (name key : String) (id : TypeId) :
    (put index name id).find? key = if name = key then some id else index.find? key := by
  induction index with
  | nil => simp [put, find?]
  | cons e rest ih =>
    obtain ⟨k, old⟩ := e
    by_cases h : k = name
    · subst h
      by_cases hk : k = key <;> simp [put, find?, hk]
    · by_cases hk : k = key
      · subst hk
        simp [put, find?, h, Ne.symm h]
      · simp [put, find?, h, hk, ih]

end ClassIndex

structure TypeTable where
  entries : Array TypeEntry := #[]
  classes : ClassIndex := []
  deriving DecidableEq, Repr

namespace TypeTable

def empty : TypeTable := {}

def size (t : TypeTable) : Nat := t.entries.size

def get? (t : TypeTable) (id : TypeId) : Option TypeEntry := t.entries[id]?

def classAt? (t : TypeTable) (id : TypeId) : Option ClassType := (t.get? id).bind TypeEntry.asClass?

def methodAt? (t : TypeTable) (id : TypeId) : Option MethodType :=
  (t.get? id).bind TypeEntry.asMethod?

def variableAt? (t : TypeTable) (id : TypeId) : Option VariableType :=
  (t.get? id).bind TypeEntry.asVariable?

/-- The qualified name of a class or the keyword of a primitive. -/
def name? (t : TypeTable) (id : TypeId) : Option String := (t.get? id).bind TypeEntry.name?

def lookupClass (t : TypeTable) (name : String) : Option TypeId := t.classes.find? name

/-- Whether a type is there and has the name. -/
def isNamed (t : TypeTable) (type : Option TypeId) (name : String) : Bool :=
  type.bind t.name? == some name

/-- Index the class entries afresh; of several with one name the last counts. -/
def reindex (t : TypeTable) : TypeTable :=
  { t with
    classes := t.entries.toList.zipIdx.foldl
      (fun index (entry, id) => match entry with
        | .classType c => index.put c.name id
        | _ => index) [] }

def push (t : TypeTable) (entry : TypeEntry) : TypeTable :=
  { t with entries := t.entries.push entry }

/-- The class of the name, added with the given owner if the index has none. -/
def internClass (t : TypeTable) (name : String) (owner : Option TypeId) : TypeId × TypeTable :=
  match t.lookupClass name with
  | some id => (id, t)
  | none =>
    (t.size, { t.push (.classType ⟨name, owner⟩) with classes := t.classes.put name t.size })

/-- The first entry equal to `entry`, added if there is none. -/
def internEntry (t : TypeTable) (entry : TypeEntry) : TypeId × TypeTable :=
  match t.entries.toList.findIdx? (· = entry) with
  | some id => (id, t)
  | none => (t.size, t.push entry)

def internPrimitive (t : TypeTable) (p : Primitive) : TypeId × TypeTable :=
  t.internEntry (.primitive p)

def internMethod (t : TypeTable) (m : MethodType) : TypeId × TypeTable :=
  t.internEntry (.method m)

def addVariable (t : TypeTable) (v : VariableType) : TypeId × TypeTable :=
  (t.size, t.push (.variable v))

/-- The primitive of a keyword, or the class of any other name. -/
def internName (t : TypeTable) (name : String) : TypeId × TypeTable :=
  match Primitive.ofKeyword? name with
  | some p => t.internPrimitive p
  | none => t.internClass name none

/-- The types of several names, interned in order. -/
def internNames (t : TypeTable) : List String → List TypeId × TypeTable
  | [] => ([], t)
  | name :: names =>
    let (id, t) := t.internName name
    let (ids, t) := t.internNames names
    (id :: ids, t)

def modify (t : TypeTable) (id : TypeId) (f : TypeEntry → TypeEntry) : TypeTable :=
  { t with entries := t.entries.modify id f }

/-- Overwrite an entry and leave the index alone; `none` if there is no such entry. -/
def overwrite (t : TypeTable) (id : TypeId) (entry : TypeEntry) : Option TypeTable :=
  if id < t.size then some (t.modify id fun _ => entry) else none

/-- Rename a class and keep its position. There is no result when no class has the name `source`, or
another one has the name `target`. -/
def renameClass (t : TypeTable) (source target : String) : Option TypeTable :=
  match t.lookupClass source with
  | none => none
  | some id =>
    if source = target then some t
    else if (t.lookupClass target).isSome then none
    else
      some { t.modify id (fun
        | .classType c => .classType { c with name := target }
        | entry => entry) with classes := t.classes.rekey source target }

/-- Give another name to a method entry; `none` if the entry is no method. -/
def renameMethod (t : TypeTable) (id : TypeId) (name : String) : Option TypeTable :=
  (t.methodAt? id).map fun m => t.modify id fun _ => .method { m with name }

/-! ## What a change leaves -/

theorem get?_push (t : TypeTable) (entry : TypeEntry) (id : TypeId) :
    (t.push entry).get? id = if id = t.size then some entry else t.get? id := by
  by_cases h : id = t.size
  · simp [push, get?, size, h]
  · have h' : id ≠ t.entries.size := h
    simp [push, get?, Array.getElem?_push, h, h']

theorem get?_modify (t : TypeTable) (id id' : TypeId) (f : TypeEntry → TypeEntry) :
    (t.modify id f).get? id' = if id' = id then (t.get? id').map f else t.get? id' := by
  by_cases h : id' = id
  · simp [modify, get?, Array.getElem?_modify, h]
  · simp [modify, get?, Array.getElem?_modify, h, Ne.symm h]

@[simp]
theorem size_modify (t : TypeTable) (id : TypeId) (f : TypeEntry → TypeEntry) :
    (t.modify id f).size = t.size := by
  simp [modify, size]

/-- A class that was interned is found under its name, and no other name moves. -/
theorem lookupClass_internClass (t : TypeTable) (name key : String) (owner : Option TypeId) :
    (t.internClass name owner).2.lookupClass key =
      if name = key then some (t.internClass name owner).1 else t.lookupClass key := by
  unfold internClass
  cases h : t.lookupClass name with
  | some id =>
    by_cases hk : name = key
    · subst hk
      simp [h]
    · simp [hk]
  | none => simp [lookupClass]

/-- Interning keeps the entries that are there. -/
theorem get?_internClass (t : TypeTable) (name : String) (owner : Option TypeId) {id : TypeId}
    (h : id < t.size) : (t.internClass name owner).2.get? id = t.get? id := by
  unfold internClass
  cases t.lookupClass name with
  | some _ => rfl
  | none =>
    have hpush := get?_push t (.classType ⟨name, owner⟩) id
    rw [if_neg (Nat.ne_of_lt h)] at hpush
    exact hpush

theorem get?_internEntry (t : TypeTable) (entry : TypeEntry) {id : TypeId} (h : id < t.size) :
    (t.internEntry entry).2.get? id = t.get? id := by
  unfold internEntry
  split
  · rfl
  · rw [get?_push]
    simp [Nat.ne_of_lt h]

end TypeTable

end JavaRecipes
