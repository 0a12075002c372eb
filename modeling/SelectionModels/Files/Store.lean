import SelectionModels.Files.Path
import SelectionModels.Json.Reader

/-! # A file store

Files and directories as a value: a tree, and which place in it is the current directory.

A path is walked name by name. Every name but the last has to lead to a directory, so a path through
a missing name or through a file leads nowhere, even if it turns back.

* `Node.at?`: what stands at a place;
* `putAt`: a directory with something else under a name at a place below it (`at?_putAt`);
* `Store.locate`: what a path leads to, and the way there;
* `Store.view`, `Store.writer`: access to the store.
-/

namespace SelectionModels.Files

/-! ## Trees of files

A directory holds names, and under each of them a file or a directory. A place is the list of names
that leads to it from the outermost directory. -/

open Json (Bytes)

abbrev Place := List String

inductive Node where
  | file (content : Bytes)
  | directory (entries : List (String × Node))
deriving Repr

/-- What a directory holds. -/
abbrev Entries := List (String × Node)

namespace Node

def isDirectory : Node → Bool
  | file _ => false
  | directory _ => true

/-- What stands at a place below a node. -/
def at? : Place → Node → Option Node
  | [], node => some node
  | name :: place, directory entries => (entries.lookup name).bind (at? place)
  | _ :: _, file _ => none

/-- A directory that holds something else; a file stays as it is. -/
def mapEntries (f : Entries → Entries) : Node → Node
  | file content => file content
  | directory entries => directory (f entries)

end Node

/-- The entries with another node under a name. -/
def put (name : String) (node : Node) (entries : Entries) : Entries :=
  (name, node) :: entries.filter (·.1 ≠ name)

/-- The entries with the node under a name changed. -/
def mapAt (name : String) (f : Node → Node) (entries : Entries) : Entries :=
  entries.map fun (other, node) => (other, if other = name then f node else node)

/-- The entries with another node under a name in the directory at a place. -/
def putAt (name : String) (node : Node) : Place → Entries → Entries
  | [] => put name node
  | outer :: place => mapAt outer (Node.mapEntries (putAt name node place))

theorem lookup_put (name : String) (node : Node) (entries : Entries) :
    (put name node entries).lookup name = some node := by
  simp [put]

theorem lookup_mapAt (name : String) (f : Node → Node) (entries : Entries) :
    (mapAt name f entries).lookup name = (entries.lookup name).map f := by
  induction entries with
  | nil => rfl
  | cons entry entries ih =>
    obtain ⟨other, node⟩ := entry
    by_cases h : other = name
    · simp [mapAt, h]
    · have h' : (name == other) = false := by simp [Ne.symm h]
      simp only [mapAt, List.map_cons, List.lookup_cons, h', h] at ih ⊢
      exact ih

theorem at?_putAt {name : String} {node : Node} {place : Place} {entries inner : Entries}
    (h : (Node.directory entries).at? place = some (.directory inner)) :
    (Node.directory (putAt name node place entries)).at? (place ++ [name]) = some node := by
  induction place generalizing entries with
  | nil => simp [putAt, Node.at?, lookup_put]
  | cons outer place ih =>
    simp only [Node.at?, Option.bind_eq_some_iff] at h
    obtain ⟨next, found, h⟩ := h
    cases next with
    | file => cases place <;> simp [Node.at?] at h
    | directory below =>
      simp [putAt, Node.at?, lookup_mapAt, found, Node.mapEntries, ih h]

/-! ## Stores -/

/-- What the root holds, and the current directory. -/
structure Store where
  entries : Entries
  current : Place
deriving Repr

namespace Store

/-! ### Walking -/

/-- The way from the root to a place, its last step first: names, and what stands under them. -/
abbrev Trail := List (String × Node)

/-- What stands at the end of a way. -/
def nodeAt (s : Store) : Trail → Node
  | [] => .directory s.entries
  | (_, node) :: _ => node

/-- There must be a directory at the end of a way. -/
def enter (s : Store) (trail : Trail) : Except FileError Entries :=
  match s.nodeAt trail with
  | .directory entries => .ok entries
  | .file _ => .error .notDirectory

/-- One name further. -/
def step (s : Store) (trail : Trail) (name : String) : Except FileError Trail := do
  let entries ← s.enter trail
  if name = "." then return trail
  else if name = ".." then return trail.tail
  else if maxName < name.utf8ByteSize then throw .nameTooLong
  else match entries.lookup name with
    | some node => return (name, node) :: trail
    | none => throw .noEntry

/-- One name after the other. -/
def walk (s : Store) (trail : Trail) : List String → Except FileError Trail
  | [] => .ok trail
  | name :: names => do s.walk (← s.step trail name) names

/-- Where a path starts. -/
def start (s : Store) (path : String) : Except FileError Trail :=
  if isAbsolute path then .ok [] else s.walk [] s.current

/-- The names that a path goes through. -/
def pathNames (path : String) : List String :=
  (segments path).filter (· ≠ "")

/-- A path that may be asked for at all. -/
def askable (path : String) : Except FileError Unit :=
  if '\x00' ∈ path.toList then .error .nulByte
  else if path = "" then .error .noEntry
  else if maxPath < path.utf8ByteSize then .error .nameTooLong
  else .ok ()

/-- The way that a path leads. Behind a slash at its end there must be a directory. -/
def locate (s : Store) (path : String) : Except FileError Trail := do
  askable path
  let trail ← s.walk (← s.start path) (pathNames path)
  if endsWithSlash path then discard (s.enter trail)
  return trail

/-- The directory that holds the last name of a path, and that name. -/
structure Slot where
  place : Place
  entries : Entries
  name : String
deriving Repr

/-- Where the last name of a path belongs; nowhere for the root. -/
def slot? (s : Store) (path : String) : Except FileError (Option Slot) := do
  askable path
  match (pathNames path).getLast? with
  | none => return none
  | some name =>
    let trail ← s.walk (← s.start path) (pathNames path).dropLast
    return some ⟨(trail.map (·.1)).reverse, ← s.enter trail, name⟩

/-- The store with something else in a slot. -/
def fill (s : Store) (slot : Slot) (node : Node) : Store :=
  { s with entries := putAt slot.name node slot.place s.entries }

/-! ### Access -/

def read (s : Store) (path : String) : Except FileError Bytes := do
  match s.nodeAt (← s.locate path) with
  | .file content => return content
  | .directory _ => throw .isDirectory

def isDirectory (s : Store) (path : String) : Bool :=
  match s.locate path with
  | .ok trail => (s.nodeAt trail).isDirectory
  | .error _ => false

def exists? (s : Store) (path : String) : Bool :=
  (s.locate path).isOk

def list (s : Store) (path : String) : Except FileError (List Listed) := do
  let entries ← s.enter (← s.locate path)
  return entries.map fun (name, node) => ⟨name, node.isDirectory⟩

/-- The store with a new directory. -/
def makeDirectory (s : Store) (path : String) : Except FileError Store := do
  match ← s.slot? path with
  | none => throw .exists
  | some slot =>
    if slot.name = "." || slot.name = ".." then throw .exists
    else if maxName < slot.name.utf8ByteSize then throw .nameTooLong
    else if (slot.entries.lookup slot.name).isSome then throw .exists
    else return s.fill slot (.directory [])

/-- The store with a file of the given content, new or not. -/
def write (s : Store) (path : String) (content : Bytes) : Except FileError Store := do
  match ← s.slot? path with
  | none => throw .isDirectory
  | some slot =>
    if slot.name = "." || slot.name = ".." || endsWithSlash path then throw .isDirectory
    else if maxName < slot.name.utf8ByteSize then throw .nameTooLong
    else if (slot.entries.lookup slot.name).any (·.isDirectory) then throw .isDirectory
    else return s.fill slot (.file content)

/-- Looking at a store changes nothing. -/
def view (s : Store) : View Id where
  read path := s.read path
  isDirectory path := s.isDirectory path
  exists? path := s.exists? path
  list path := s.list path

/-- A change that may fail, and then changes nothing. -/
def change (f : Store → Except FileError Store) : StateM Store (Except FileError Unit) :=
  fun s =>
    match f s with
    | .ok s' => (.ok (), s')
    | .error e => (.error e, s)

/-- Changing the store at hand. -/
def writer : Writer (StateM Store) where
  makeDirectory path := change (·.makeDirectory path)
  isDirectory path := fun s => (s.isDirectory path, s)
  write path content := change (·.write path content)

end Store

end SelectionModels.Files
