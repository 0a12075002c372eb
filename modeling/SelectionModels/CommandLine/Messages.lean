import SelectionModels.CommandLine.Arguments
import SelectionModels.Document
import SelectionModels.Glob.Expand
import SelectionModels.Text.Quoted

/-! # What a run says

Failures, notices and the outline of a command, each with the one text that tells it. A notice is
one line beside the output proper; its first word is shown in bold and in colour if colours are
wanted.

* `Command.outline`: what was understood of a command line, part by part;
* `Failure.message`: what was attempted, and then why it went wrong;
* `noticeText`: the lines of some notices.
-/

namespace SelectionModels.Text

/-! ## Styled words -/

inductive Colour where
  | red
  | green
  | yellow
deriving DecidableEq, Repr

/-- The terminal's number for a foreground colour. -/
def Colour.code : Colour → String
  | .red => "31"
  | .green => "32"
  | .yellow => "33"

/-- A word in bold and in colour, or plain. -/
def styled (coloured : Bool) (colour : Colour) (word : String) : String :=
  if coloured then "\x1b[1;" ++ colour.code ++ "m" ++ word ++ "\x1b[0m" else word

end SelectionModels.Text

namespace SelectionModels.CommandLine

/-! ## The outline of a command

Every part stands on lines of its own, four blanks deeper than what it is part of, and ends with a
comma. Texts are quoted, so no part breaks a line where it should not. -/

/-! ### Lines -/

abbrev Lines := List String

/-- The last line ends with a comma. -/
def endWithComma : Lines → Lines
  | [] => []
  | [line] => [line ++ ","]
  | line :: rest => line :: endWithComma rest

/-- Parts between an opening and a closing line. -/
def block (opening closing : String) (parts : List Lines) : Lines :=
  opening :: parts.flatMap (fun part => (endWithComma part).map ("    " ++ ·)) ++ [closing]

/-- A part behind its key. -/
def labelled (key : String) : Lines → Lines
  | [] => []
  | first :: rest => (key ++ ": " ++ first) :: rest

/-- A name and its members. -/
def recordLines (name : String) (members : List (String × Lines)) : Lines :=
  block (name ++ " \x7b") "\x7d" (members.map fun (key, part) => labelled key part)

/-- A name around one part. -/
def wrappedLines (name : String) (part : Lines) : Lines :=
  block (name ++ "(") ")" [part]

def textLines (s : String) : Lines :=
  [Text.quoted s]

def flagLines (b : Bool) : Lines :=
  [if b then "true" else "false"]

def listLines (texts : List String) : Lines :=
  if texts.isEmpty then ["[]"] else block "[" "]" (texts.map textLines)

def optionalLines : Option String → Lines
  | none => ["None"]
  | some s => wrappedLines "Some" (textLines s)

/-! ### Commands -/

def inputsOutline (inputs : List String) : Lines :=
  recordLines "InputSettings" [("input", listLines inputs)]

def OutputSettings.outline (o : OutputSettings) : Lines :=
  recordLines "OutputSettings" [("out", optionalLines o.out), ("compact", flagLines o.compact)]

def Target.outline (name : String) (t : Target) : Lines :=
  recordLines name [
    ("input_settings", inputsOutline t.inputs),
    ("output_settings", t.output.outline),
    ("no_op", flagLines t.noOp)]

/-- The part of a command behind its verb. -/
def Command.verbOutline : Command → Lines
  | .models t => wrappedLines "Models" (t.outline "ModelsOut")
  | .scalars t => wrappedLines "Scalars" (t.outline "ScalarsOut")
  | .check inputs =>
    wrappedLines "Check" (recordLines "CheckOnly" [("input_settings", inputsOutline inputs)])

/-- What was understood. -/
def Command.outline (c : Command) : String :=
  "\n".intercalate (recordLines "CommandLineInterface" [("cmd", c.verbOutline)])

/-! ## Why a run fails

A run resolves its inputs, reads them, works on the documents and puts the result out. Each stage
has failures of its own. -/

open Files (FileError)
open Glob (PatternError UnreadableDirectory)

/-- Why an input stands for no paths. -/
inductive InputError where
  | badPattern (cause : PatternError)
  | unreadableDirectory (cause : UnreadableDirectory)
  | noMatch (pattern : String)
deriving DecidableEq, Repr

def InputError.message : InputError → String
  | .badPattern cause => cause.message
  | .unreadableDirectory cause => cause.message
  | .noMatch pattern => "glob pattern matched no files: " ++ pattern

inductive Failure where
  | unresolved (cause : InputError)
  | unreadable (path : String) (cause : FileError)
  | malformed (path : String) (cause : DocumentError)
  /-- A document cannot be compiled. -/
  | rejected (path : String) (cause : DocumentError)
  /-- A document's custom scalars give no registry. -/
  | badScalars (path : String) (cause : DocumentError)
  /-- So many documents have been reported as bad. -/
  | violations (count : Nat)
  /-- The directory for the output cannot be made. -/
  | noDirectory (path : String) (cause : FileError)
  | unwritten (path : String) (cause : FileError)
deriving DecidableEq, Repr

def Failure.message : Failure → String
  | .unresolved cause => "failed to resolve input file paths: " ++ cause.message
  | .unreadable path cause => s!"failed to read source file {path}: " ++ cause.message
  | .malformed path cause => s!"failed to parse IR document {path}: " ++ cause.message
  | .rejected path cause => s!"failed to compile {path}: " ++ cause.message
  | .badScalars path cause => s!"invalid custom scalars in {path}: " ++ cause.message
  | .violations count => s!"{count} document(s) violate IR preconditions"
  | .noDirectory path cause => s!"failed to create {path}: " ++ cause.message
  | .unwritten path cause => s!"failed to write {path}: " ++ cause.message

/-! ## Notices -/

open Text (styled)

inductive Notice where
  /-- A document has been compiled. -/
  | compiled (path : String) (declarations scalars : Nat)
  /-- Some custom scalars of a document have no mapping. -/
  | unmapped (path : String) (count : Nat)
  | accepted (path : String)
  | rejected (path : String) (error : DocumentError)
  /-- Nothing is done but to show the command. -/
  | understood (command : Command)
deriving DecidableEq, Repr

/-- A notice as a line, its first word in colour if colours are wanted. -/
def Notice.line (coloured : Bool) : Notice → String
  | .compiled path declarations scalars =>
    styled coloured .green "compiled" ++
      s!" {path}: {declarations} declarations, {scalars} custom scalars"
  | .unmapped path count =>
    styled coloured .yellow "warning" ++ s!" {path}: {count} custom scalar(s) have no mapping"
  | .accepted path => styled coloured .green "ok" ++ " " ++ path
  | .rejected path error => styled coloured .red "error" ++ s!" {path}: " ++ error.message
  | .understood command => command.outline

/-- The lines of some notices. -/
def noticeText (coloured : Bool) (notices : List Notice) : String :=
  String.join (notices.map fun n => n.line coloured ++ "\n")

end SelectionModels.CommandLine
