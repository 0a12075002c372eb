import SelectionModels.Json.Reader

/-! # Paths and access to files

What can be said of a path without looking at any file, and what a run needs to see of the files and
to change. A path is cut at its slashes; empty segments and lone dots say nothing, except for a dot
at the very front.

* `parent?`: the path without its last component, in the spelling it was given in;
* `ancestors`: the path, its parent, the parent of that, and so on;
* `fileName?`: the last component, if it is a name;
* `join`: a name behind a path;
* `View`, `Writer`: looking at files, and changing them.
-/

namespace SelectionModels.Files

/-! ## Paths as texts -/

/-- A text cut at every slash. -/
def splitSlash : List Char → List (List Char)
  | [] => [[]]
  | c :: cs =>
    if c = '/' then [] :: splitSlash cs
    else match splitSlash cs with
      | [] => [[c]]
      | first :: rest => (c :: first) :: rest

/-- The segments of a path, empty ones included. -/
def segments (path : String) : List String :=
  (splitSlash path.toList).map String.ofList

/-- A segment that says nothing where it stands. -/
def isIdle (segment : String) : Bool :=
  segment = "" || segment = "."

/-- How a path begins. -/
inductive Front where
  /-- With a slash. -/
  | root
  /-- With a dot of its own. -/
  | here
  /-- With a name. -/
  | plain
deriving DecidableEq, Repr

/-- The front of a path and the segments behind it. -/
def frontAndBody (path : String) : Front × List String :=
  match segments path with
  | "" :: second :: rest => (.root, second :: rest)
  | "." :: rest => (.here, rest)
  | all => (.plain, all)

/-- A path that starts at the root. -/
def isAbsolute (path : String) : Bool :=
  (frontAndBody path).1 = .root

/-- Segments without the idle ones at their end. -/
def dropIdleEnd (body : List String) : List String :=
  (body.reverse.dropWhile isIdle).reverse

/-- Segments behind a front. -/
def spell : Front → List String → String
  | .root, body => "/" ++ "/".intercalate body
  | .here, [] => "."
  | .here, body => "./" ++ "/".intercalate body
  | .plain, body => "/".intercalate body

/-- The path without its last component; none for the root and for the empty path. -/
def parent? (path : String) : Option String :=
  let (front, body) := frontAndBody path
  match front, dropIdleEnd body with
  | .here, [] => some ""
  | _, [] => none
  | _, kept => some (spell front (dropIdleEnd kept.dropLast))

/-- At most the given number of paths outwards from a path, itself first. -/
def ancestorsWithin : Nat → String → List String
  | 0, _ => []
  | n + 1, path =>
    match parent? path with
    | none => [path]
    | some outer => path :: ancestorsWithin n outer

/-- The paths outwards from a path, itself first. Each has a segment less than the one before. -/
def ancestors (path : String) : List String :=
  ancestorsWithin (path.length + 1) path

/-- The last component, if it is a name. -/
def fileName? (path : String) : Option String :=
  match (dropIdleEnd (frontAndBody path).2).getLast? with
  | some ".." => none
  | last => last

/-- The path says "here" and nothing else. -/
def isHere (path : String) : Bool :=
  let (front, body) := frontAndBody path
  front = .here && (dropIdleEnd body).isEmpty

/-- The text ends with a slash. -/
def endsWithSlash (path : String) : Bool :=
  path.toList.getLast? = some '/'

/-- A name behind a path. -/
def join (path name : String) : String :=
  if path = "" || endsWithSlash path then path ++ name else path ++ "/" ++ name

/-- The longest name that a file can have, in bytes. -/
def maxName : Nat := 255

/-- The longest path that can be asked for, in bytes. -/
def maxPath : Nat := 4095

example : parent? "./deep/./o.json" = some "./deep" := by decide +kernel
example : parent? "x/" = some "" := by decide +kernel
example : parent? "/" = none := by decide +kernel

/-! ## Access

A view only looks; a writer makes directories and files. Both are given over any monad, so that the
same run works on the files of the machine and on a file store that is a value. -/

open Json (Bytes)

/-- Why a file operation fails. -/
inductive FileError where
  | noEntry
  | exists
  | notDirectory
  | isDirectory
  | nameTooLong
  | nulByte
  /-- Any other cause, in the machine's words. -/
  | other (message : String)
deriving DecidableEq, Repr

def FileError.message : FileError → String
  | .noEntry => "No such file or directory (os error 2)"
  | .exists => "File exists (os error 17)"
  | .notDirectory => "Not a directory (os error 20)"
  | .isDirectory => "Is a directory (os error 21)"
  | .nameTooLong => "File name too long (os error 36)"
  | .nulByte => "file name contained an unexpected NUL byte"
  | .other message => message

/-- What a directory tells of something that stands in it. -/
structure Listed where
  name : String
  isDirectory : Bool
deriving DecidableEq, Repr

/-- Looking at files. -/
structure View (m : Type → Type) where
  read : String → m (Except FileError Bytes)
  isDirectory : String → m Bool
  exists? : String → m Bool
  /-- What stands in a directory, in any order. -/
  list : String → m (Except FileError (List Listed))

/-- Changing files. -/
structure Writer (m : Type → Type) where
  makeDirectory : String → m (Except FileError Unit)
  isDirectory : String → m Bool
  write : String → Bytes → m (Except FileError Unit)

variable {m : Type → Type} [Monad m]

/-- Makes a directory where there may be one already. -/
def Writer.ensureOne (w : Writer m) (path : String) : m (Except FileError Unit) := do
  match ← w.makeDirectory path with
  | .error .exists => return if ← w.isDirectory path then .ok () else .error .exists
  | result => return result

/-- Makes the first of the given directories, each of which lies in the next one; those that are
missing are made from the outside in. -/
def Writer.ensureFrom (w : Writer m) : List String → m (Except FileError Unit)
  | [] => return .ok ()
  | path :: outer => do
    if path = "" then return .ok ()
    match ← w.ensureOne path with
    | .error .noEntry =>
      match ← w.ensureFrom outer with
      | .ok () => w.ensureOne path
      | .error e => return .error e
    | result => return result

end SelectionModels.Files
