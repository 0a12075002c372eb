import SelectionModels.CommandLine.Run
import SelectionModels.CommandLine.Arguments

/-! # The program

Runs the command that its arguments ask for on the files of the machine. Nothing is decided here:
the arguments are read, the command is run and its texts are printed by the rules of the command
line, and this module only lends them the machine.
-/

namespace SelectionModels.CommandLine

open Files (FileError View Writer)

/-! ## Files of the machine -/

/-- The number of an error and its words. -/
def errorNumber? : IO.Error → Option (UInt32 × String)
  | .alreadyExists _ n words | .interrupted _ n words | .noFileOrDirectory _ n words
  | .invalidArgument _ n words | .permissionDenied _ n words | .resourceExhausted _ n words
  | .inappropriateType _ n words | .noSuchThing _ n words => some (n, words)
  | .otherError n words | .resourceBusy n words | .resourceVanished n words
  | .unsupportedOperation n words | .hardwareFault n words | .unsatisfiedConstraints n words
  | .illegalOperation n words | .protocolError n words | .timeExpired n words => some (n, words)
  | .unexpectedEof | .userError _ => none

def fileError (e : IO.Error) : FileError :=
  match errorNumber? e with
  | some (2, _) => .noEntry
  | some (17, _) => .exists
  | some (20, _) => .notDirectory
  | some (21, _) => .isDirectory
  | some (36, _) => .nameTooLong
  | some (n, words) => .other s!"{words} (os error {n})"
  | none => .other (toString e)

/-- An action whose failure is a value. -/
def attempt {α : Type} (act : IO α) : IO (Except FileError α) := do
  match ← act.toBaseIO with
  | .ok a => return .ok a
  | .error e => return .error (fileError e)

/-- A path as the machine takes it. -/
def onMachine (path : String) :=
  System.mkFilePath [path]

/-- Looking at the files of the machine. What a directory lists is asked for by the directory's
shortest path, so that it is not lost behind a long one. -/
def machineView : View IO where
  read path := attempt do return (← (← IO.FS.Handle.mk path .read).readBinToEnd).toList
  isDirectory path := (onMachine path).isDir
  exists? path := (onMachine path).pathExists
  list path := attempt do
    let entries ← (onMachine path).readDir
    let directory ← IO.FS.realPath path
    entries.toList.mapM fun e => do
      return ⟨e.fileName, ← (directory / e.fileName).isDir⟩

/-- Changing the files of the machine. -/
def machineWriter : Writer IO where
  makeDirectory path := attempt (IO.FS.createDir path)
  isDirectory path := (onMachine path).isDir
  write path content := attempt (IO.FS.writeBinFile path ⟨content.toArray⟩)

/-! ## Colours -/

/-- The variable is set, and not to zero. -/
def isOn (name : String) : IO Bool := do
  return (← IO.getEnv name).any (· ≠ "0")

/-- Colours are used where they are forced, and else on a terminal, unless they are forbidden. -/
def wantsColours : IO Bool := do
  if ← isOn "CLICOLOR_FORCE" then return true
  if (← IO.getEnv "NO_COLOR").isSome then return false
  if (← IO.getEnv "CLICOLOR") = some "0" then return false
  (← IO.getStdout).isTty

/-! ## Whole runs -/

/-- The arguments ask for no run. -/
def explain : Stop → IO UInt32
  | .help => do
    IO.print usage
    return 0
  | .refused reason => do
    IO.eprint s!"error: {reason.message}\n\n{usage}"
    return 2

/-- A command on the files of the machine. -/
def runHere (command : Command) : IO UInt32 := do
  let coloured ← wantsColours
  let transcript ← run machineView machineWriter command
  IO.eprint (transcript.stderr coloured)
  IO.print transcript.stdout
  return if transcript.failure.isSome then 1 else 0

end SelectionModels.CommandLine

def main (args : List String) : IO UInt32 :=
  match SelectionModels.CommandLine.parse args with
  | .error stop => SelectionModels.CommandLine.explain stop
  | .ok command => SelectionModels.CommandLine.runHere command
