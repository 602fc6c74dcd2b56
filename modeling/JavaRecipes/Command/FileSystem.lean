import JavaRecipes.Command.Path

/-!
A file system as a value: files with their texts and directories, both by the names that lead to
them from the root.
-/

namespace JavaRecipes

/-- Names from the root down. -/
abbrev Location := List String

structure FileSystem where
  /-- The files, each with its text; none for a file that is not text. -/
  files : List (Location × Option String) := []
  /-- Directories, beside those that hold something. -/
  dirs : List Location := []
  /-- The working directory, where relative paths start. -/
  base : Location := []
  deriving DecidableEq, Repr

inductive FileEntry where
  | file (text : Option String)
  | directory
  deriving DecidableEq, Repr

namespace FileSystem

/-- What is at a location. A directory is there also when only something under it is listed. -/
def entry? (fs : FileSystem) (l : Location) : Option FileEntry :=
  match fs.files.lookup l with
  | some text => some (.file text)
  | none =>
    if l.isPrefixOf fs.base || fs.dirs.any l.isPrefixOf || fs.files.any (l.isPrefixOf ·.1) then
      some .directory
    else none

/-- Where a path starts. -/
def origin (fs : FileSystem) (p : String) : Location := if Path.isAbsolute p then [] else fs.base

/-- One step of a path. Above the root is the root. -/
def step (l : Location) (name : String) : Location :=
  if name = ".." then l.dropLast else l ++ [name]

/-- The location that the steps of a path lead to, if all on the way are directories. -/
def place (fs : FileSystem) (p : String) : Location := (Path.steps p).foldl step (fs.origin p)

/-- Follow steps from a location. All but the last must lead to directories. -/
def follow (fs : FileSystem) (l : Location) : List String → Option Location
  | [] => some l
  | name :: rest => if fs.entry? l = some .directory then fs.follow (step l name) rest else none

/-- The location of a path, whether or not something is there. -/
def locate? (fs : FileSystem) (p : String) : Option Location :=
  fs.follow (fs.origin p) (Path.steps p)

/-- What a path leads to. -/
def at? (fs : FileSystem) (p : String) : Option FileEntry :=
  match (fs.locate? p).bind fs.entry? with
  | some (.file text) => if Path.namesDirectory p then none else some (.file text)
  | entry => entry

def isFile (fs : FileSystem) (p : String) : Bool :=
  match fs.at? p with
  | some (.file _) => true
  | _ => false

def isDirectory (fs : FileSystem) (p : String) : Bool := fs.at? p = some .directory

/-- The text of a file. -/
def read? (fs : FileSystem) (p : String) : Option String :=
  match fs.at? p with
  | some (.file text) => text
  | _ => none

/-- The files under a directory, by the names from there. -/
def filesUnder (fs : FileSystem) (l : Location) : List Location :=
  fs.files.filterMap fun (location, _) =>
    if l.isPrefixOf location && l ≠ location then some (location.drop l.length) else none

/-- Make the directories of a path, from a directory that is there. -/
def makeSteps (fs : FileSystem) (l : Location) : List String → Option FileSystem
  | [] => some fs
  | name :: rest =>
    match fs.entry? (step l name) with
    | some .directory => fs.makeSteps (step l name) rest
    | some (.file _) => none
    | none => makeSteps { fs with dirs := fs.dirs ++ [step l name] } (step l name) rest

/-- Make a directory and those above it; those that are there stay. -/
def makeDirectory (fs : FileSystem) (p : String) : Option FileSystem :=
  fs.makeSteps (fs.origin p) (Path.steps p)

/-- Set what is at a location. -/
def put (l : Location) (text : Option String) :
    List (Location × Option String) → List (Location × Option String)
  | [] => [(l, text)]
  | (k, old) :: files => if k = l then (l, text) :: files else (k, old) :: put l text files

/-- Write a file. A directory cannot be written to, and the one above must be there. -/
def write (fs : FileSystem) (p text : String) : Option FileSystem :=
  if Path.namesDirectory p then none
  else
    match fs.locate? p with
    | none => none
    | some l =>
      match fs.entry? l with
      | some .directory => none
      | _ => some { fs with files := put l (some text) fs.files }

/-- The files and directories at paths. Of two files at one place the later one is there. -/
def ofPaths (base : Location) (files : List (String × String)) (dirs : List String) : FileSystem :=
  let empty : FileSystem := { base }
  { files := files.foldl (fun placed (p, text) => put (empty.place p) (some text) placed) []
    dirs := dirs.map empty.place
    base }

/-- Whether two lists of names are in order, name by name. -/
def locationLe : Location → Location → Bool
  | [], _ => true
  | _ :: _, [] => false
  | a :: as, b :: bs => if a = b then locationLe as bs else a < b

/-- The files that are new or have another text than before. -/
def written (before after : FileSystem) : List (Location × String) :=
  after.files.filterMap fun (l, text) =>
    if before.files.lookup l = some text then none else text.map (l, ·)

/-- The written files in the working directory by their paths from there, sorted. -/
def touched (before after : FileSystem) : List (String × String) :=
  let inside := (before.written after).filterMap fun (l, text) =>
    if after.base.isPrefixOf l then
      some (Text.joinWith "/" (l.drop after.base.length), text)
    else none
  inside.mergeSort fun a b => a.1 ≤ b.1

/-- A path that can be followed leads to its place. -/
theorem follow_eq_some {fs : FileSystem} {l l' : Location} {names : List String}
    (h : fs.follow l names = some l') : l' = names.foldl step l := by
  induction names generalizing l with
  | nil => simpa [follow] using h.symm
  | cons name rest ih =>
    simp only [follow] at h
    split at h
    · exact ih h
    · contradiction

theorem locate?_eq_some {fs : FileSystem} {p : String} {l : Location}
    (h : fs.locate? p = some l) : l = fs.place p := follow_eq_some h

/-- What was set is found, and all else stays. -/
theorem lookup_put (l l' : Location) (text : Option String)
    (files : List (Location × Option String)) :
    (put l text files).lookup l' = if l' = l then some text else files.lookup l' := by
  induction files with
  | nil =>
    rcases Decidable.em (l' = l) with rfl | h
    · simp [put]
    · simp [put, List.lookup_cons, beq_eq_false_iff_ne.2 h, h]
  | cons f files ih =>
    obtain ⟨k, old⟩ := f
    rcases Decidable.em (l' = k) with rfl | h
    · by_cases hk : l' = l <;> simp [put, hk]
    · by_cases hk : k = l
      · subst hk
        simp [put, List.lookup_cons, beq_eq_false_iff_ne.2 h, h]
      · simpa [put, List.lookup_cons, hk, beq_eq_false_iff_ne.2 h] using ih

end FileSystem

end JavaRecipes
