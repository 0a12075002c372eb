import SelectionModels.Files.Path
import SelectionModels.Glob.Pattern

/-! # Expanding glob patterns

The paths that a pattern stands for, directory by directory, each directory in the order of its
names. A component without wildcards is only asked for; a component with wildcards is tried on every
name in the directory, leading dots included; `**` stands for every directory below, the nearest
first.

* `inDirectory`: the paths below a directory that fit the components;
* `expandComponents`: the paths that a pattern stands for.

A pattern is walked in steps that each use up a component or go one directory deeper. No directory
with a path longer than `maxPath` can be read, so a bound on the steps is no bound on what is found.
What a directory lists has been reached even when its own path is too long to be asked for.
-/

namespace SelectionModels.Glob

open Files (FileError View join isHere fileName? endsWithSlash segments maxPath)

/-- A directory that could not be read. -/
structure UnreadableDirectory where
  path : String
  cause : FileError
deriving DecidableEq, Repr

def UnreadableDirectory.message (e : UnreadableDirectory) : String :=
  s!"attempting to read `{e.path}` resulted in an error: " ++ e.cause.message

/-- What is found, in order, unless a directory cannot be read. -/
abbrev Search (m : Type → Type) := ExceptT UnreadableDirectory m (List String)

variable {m : Type → Type} [Monad m]

/-- The results of searches one after the other. -/
def searchAll {α : Type} (search : α → Search m) : List α → Search m
  | [] => return []
  | a :: rest => do return (← search a) ++ (← searchAll search rest)

/-- A path that has been reached, and whether a directory stands there, as it was told on the way:
by the directory that lists it, or else by the path. -/
structure Reached where
  path : String
  isDirectory : Bool
deriving DecidableEq, Repr

/-- A path that no directory has listed. -/
def ask (v : View m) (path : String) : ExceptT UnreadableDirectory m Reached :=
  return ⟨path, ← v.isDirectory path⟩

/-- A path that fits: when only directories are wanted, it has to be one. -/
def found (onlyDirectories : Bool) (place : Reached) : List String :=
  if onlyDirectories && !place.isDirectory then [] else [place.path]

/-- A path below a directory; the current directory is not spelled out. -/
def below (directory name : String) : String :=
  if isHere directory then name else join directory name

/-- The two names that every directory has, as far as a pattern that starts with a dot fits them. -/
def dotNames (p : Pattern) : List String :=
  if p.head? = some (.char '.') then ["..", "."].filter p.admits else []

mutual

/-- The paths below a directory that fit the components. -/
def inDirectory (v : View m) (onlyDirectories : Bool) :
    Nat → List Pattern → Reached → Search m
  | 0, _, _ => return []
  | _ + 1, [], _ => return []
  | steps + 1, p :: rest, directory => do
    match p.literal? with
    | some name =>
      let path := below directory.path name
      let there ←
        if name = "." || name = ".." then pure directory.isDirectory else v.exists? path
      if there then onwards v onlyDirectories steps rest (← ask v path) else return []
    | none =>
      if directory.isDirectory then
        match ← v.list directory.path with
        | .error cause => throw ⟨directory.path, cause⟩
        | .ok entries =>
          let dots ← searchAll
            (fun name => do
              onwards v onlyDirectories steps rest (← ask v (join directory.path name)))
            (dotNames p)
          let others ← searchAll
            (fun e => atEntry v onlyDirectories steps p rest
              ⟨below directory.path e.name, e.isDirectory⟩)
            (entries.mergeSort fun a b => a.name ≤ b.name)
          return dots ++ others
      else return []

/-- The paths from a path on that has been accepted. -/
def onwards (v : View m) (onlyDirectories : Bool) : Nat → List Pattern → Reached → Search m
  | 0, _, _ => return []
  | _ + 1, [], place => return found onlyDirectories place
  | steps + 1, p :: rest, place => inDirectory v onlyDirectories steps (p :: rest) place

/-- The paths at and below an entry of a directory, on which the first component is tried. -/
def atEntry (v : View m) (onlyDirectories : Bool) :
    Nat → Pattern → List Pattern → Reached → Search m
  | 0, _, _, _ => return []
  | steps + 1, p, rest, place => do
    if p.isAnyDirectories then
      let rest := rest.dropWhile Pattern.isAnyDirectories
      let own ← match rest with
        | [] => pure (found true place)
        | q :: rest => atEntry v onlyDirectories steps q rest place
      let deeper ←
        if place.isDirectory then inDirectory v onlyDirectories steps (p :: rest) place
        else pure []
      return own ++ deeper
    else match fileName? place.path with
      | none => return []
      | some name =>
        if p.admits name then onwards v onlyDirectories steps rest place else return []

end

/-- The components of a pattern behind its root, without an empty one at the end. -/
def components (pattern : String) : List String :=
  let all := segments pattern
  let behindRoot := if pattern.startsWith "/" then all.tail else all
  if behindRoot.getLast? = some "" then behindRoot.dropLast else behindRoot

/-- The components of a pattern, if it and each of them is well-formed. -/
def parseComponents (pattern : String) : Except PatternError (List Pattern) := do
  let _ ← Pattern.parse pattern
  (components pattern).mapM Pattern.parse

/-- The paths that well-formed components stand for. -/
def expandComponents (v : View m) (pattern : String) (patterns : List Pattern) : Search m := do
  let start ← ask v (if pattern.startsWith "/" then "/" else ".")
  inDirectory v (endsWithSlash pattern) (3 * (maxPath + patterns.length)) patterns start

end SelectionModels.Glob
