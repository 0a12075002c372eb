/-! # Arguments

What is asked for on the command line. A verb comes first and settles which options there are:
`models` and `scalars` take inputs, an output file and two flags, `check` takes inputs only. An
option collects the words that follow it, until a word that starts with a dash; a value that is
attached to the option is its only one.

* `parse`: the command, or help, or why the arguments are refused;
* `Progress.settle`: an option that is still collecting gets what it has collected when the next
  option or the end comes, and not before;
* `usage`, `Refusal.message`: what is said instead of doing anything.
-/

namespace SelectionModels.CommandLine

/-! ## Commands -/

structure OutputSettings where
  /-- The file to write to; the standard output if there is none. -/
  out : Option String
  /-- One line instead of an indented text. -/
  compact : Bool
deriving DecidableEq, Repr

structure Target where
  inputs : List String
  output : OutputSettings
  /-- Only show what was understood. -/
  noOp : Bool
deriving DecidableEq, Repr

inductive Command where
  | models (target : Target)
  | scalars (target : Target)
  | check (inputs : List String)
deriving DecidableEq, Repr

/-- Why arguments are refused. -/
inductive Refusal where
  | nothingAsked
  | unknownCommand
  | unknownArgument
  | badValue
  | repeatedArgument
  | unwantedValue
  | missingInput
deriving DecidableEq, Repr

/-- What ends the reading of arguments early. -/
inductive Stop where
  | help
  | refused (reason : Refusal)
deriving DecidableEq, Repr

inductive Verb where
  | models
  | scalars
  | check
deriving DecidableEq, Repr

/-- The verb that a word names. -/
def Verb.ofWord? : String → Option Verb
  | "models" => some .models
  | "scalars" => some .scalars
  | "check" => some .check
  | _ => none

/-- Only what is produced can be written somewhere. -/
def Verb.produces : Verb → Bool
  | .models | .scalars => true
  | .check => false

/-! ## Options -/

/-- An option that takes values. -/
inductive Valued where
  | input
  | out
deriving DecidableEq, Repr

inductive Switch where
  | compact
  | noOp
  | help
deriving DecidableEq, Repr

/-- What the name of an option stands for. -/
inductive NamedOption where
  | valued (o : Valued)
  | switch (s : Switch)
deriving DecidableEq, Repr

/-- The option with a long name. -/
def longOption? (verb : Verb) (name : String) : Option NamedOption :=
  match name with
  | "input" => some (.valued .input)
  | "help" => some (.switch .help)
  | "out" => if verb.produces then some (.valued .out) else none
  | "compact" => if verb.produces then some (.switch .compact) else none
  | "no-op" => if verb.produces then some (.switch .noOp) else none
  | _ => none

/-- The option with a name of one letter. -/
def shortOption? (verb : Verb) (letter : Char) : Option NamedOption :=
  match letter with
  | 'i' => some (.valued .input)
  | 'h' => some (.switch .help)
  | 'o' => if verb.produces then some (.valued .out) else none
  | _ => none

/-- A word as the command line sees it. -/
inductive Word where
  /-- Two dashes: no options follow. -/
  | stop
  /-- A long name, perhaps with an attached value. -/
  | long (name : String) (attached : Option String)
  /-- One dash and letters. -/
  | short (letters : List Char)
  | plain
deriving DecidableEq, Repr

def Word.ofText (text : String) : Word :=
  match text.toList with
  | ['-', '-'] => .stop
  | '-' :: '-' :: rest =>
    match rest.span (· ≠ '=') with
    | (name, []) => .long (String.ofList name) none
    | (name, _ :: value) => .long (String.ofList name) (some (String.ofList value))
  | '-' :: c :: rest => .short (c :: rest)
  | _ => .plain

/-! ## Progress -/

/-- What has been understood so far. -/
structure Progress where
  inputs : List String
  out : Option String
  compact : Bool
  noOp : Bool
  /-- The option that is collecting values, and what it has collected. -/
  pending : Option (Valued × List String)
deriving DecidableEq, Repr

namespace Progress

def start : Progress :=
  ⟨[], none, false, false, none⟩

/-- An option gets its values. -/
def take (p : Progress) (o : Valued) (values : List String) : Except Stop Progress :=
  match o, values with
  | _, [] => .error (.refused .badValue)
  | .input, values => .ok { p with inputs := p.inputs ++ values }
  | .out, value :: _ =>
    if p.out.isSome then .error (.refused .repeatedArgument)
    else if value = "" then .error (.refused .badValue)
    else .ok { p with out := some value }

/-- The option that is collecting gets what it has collected. -/
def settle (p : Progress) : Except Stop Progress :=
  match p.pending with
  | none => .ok p
  | some (o, values) => { p with pending := none }.take o values

/-- The option that is collecting can take one more value. -/
def wantsMore (p : Progress) : Bool :=
  match p.pending with
  | none => false
  | some (.input, _) => true
  | some (.out, values) => values.isEmpty

/-- One more value for the option that is collecting. -/
def collect (p : Progress) (value : String) : Progress :=
  { p with pending := p.pending.map fun (o, values) => (o, values ++ [value]) }

/-- An option that takes values: one that is attached, or those that follow. -/
def valued (p : Progress) (o : Valued) (attached : Option String) : Except Stop Progress := do
  let p ← p.settle
  match attached with
  | some value => p.take o [value]
  | none => return { p with pending := some (o, []) }

/-- A switch is turned on, once. -/
def switch (p : Progress) (s : Switch) : Except Stop Progress := do
  let p ← p.settle
  match s with
  | .help => throw .help
  | .compact =>
    if p.compact then throw (.refused .repeatedArgument)
    return { p with compact := true }
  | .noOp =>
    if p.noOp then throw (.refused .repeatedArgument)
    return { p with noOp := true }

/-- The value that is attached behind a letter, if there is one, perhaps after an equals sign. -/
def attachedToLetter : List Char → Option String
  | [] => none
  | '=' :: value => some (String.ofList value)
  | value => some (String.ofList value)

/-- The letters behind one dash. -/
def letters (verb : Verb) (p : Progress) : List Char → Except Stop Progress
  | [] => .ok p
  | c :: rest =>
    match shortOption? verb c with
    | none => .error (.refused .unknownArgument)
    | some (.switch s) => do letters verb (← p.switch s) rest
    | some (.valued o) => p.valued o (attachedToLetter rest)

/-- A long name. -/
def long (verb : Verb) (p : Progress) (name : String) (attached : Option String) :
    Except Stop Progress :=
  match longOption? verb name, attached with
  | none, _ => .error (.refused .unknownArgument)
  | some (.switch _), some _ => .error (.refused .unwantedValue)
  | some (.switch s), none => p.switch s
  | some (.valued o), attached => p.valued o attached

/-- All words behind the verb. -/
def words (verb : Verb) (p : Progress) : List String → Except Stop Progress
  | [] => p.settle
  | text :: rest =>
    match Word.ofText text with
    | .stop => if rest.isEmpty then p.settle else .error (.refused .unknownArgument)
    | .long name attached => do words verb (← p.long verb name attached) rest
    | .short cs => do words verb (← p.letters verb cs) rest
    | .plain =>
      if p.wantsMore then words verb (p.collect text) rest
      else .error (.refused .unknownArgument)

/-- The command that has been understood. -/
def command (p : Progress) (verb : Verb) : Except Stop Command :=
  if p.inputs.isEmpty then .error (.refused .missingInput)
  else
    let target : Target := ⟨p.inputs, ⟨p.out, p.compact⟩, p.noOp⟩
    match verb with
    | .models => .ok (.models target)
    | .scalars => .ok (.scalars target)
    | .check => .ok (.check p.inputs)

end Progress

/-! ## Whole command lines -/

/-- The word asks for something, as a verb or for help. -/
def isCommandWord (word : String) : Bool :=
  word = "help" || (Verb.ofWord? word).isSome

/-- The words that can follow `help`: one verb, or `help` itself. -/
def helpFor : List String → Stop
  | [] => .help
  | [word] => if isCommandWord word then .help else .refused .unknownCommand
  | _ => .refused .unknownCommand

/-- A word in front of the verb that is none. -/
def strayWord (text : String) : Stop :=
  match Word.ofText text with
  | .long "help" none => .help
  | .long "help" (some _) => .refused .unwantedValue
  | .short ('h' :: _) => .help
  | .long .. | .short _ => .refused .unknownArgument
  | .stop | .plain => .refused .unknownCommand

/-- The command that the arguments ask for. -/
def parse : List String → Except Stop Command
  | [] => .error (.refused .nothingAsked)
  | "--" :: [] => .error (.refused .nothingAsked)
  | "--" :: word :: _ =>
    if isCommandWord word then .error (.refused .unknownArgument)
    else .error (.refused .unknownCommand)
  | "help" :: rest => .error (helpFor rest)
  | word :: rest =>
    match Verb.ofWord? word with
    | some verb => do (← Progress.start.words verb rest).command verb
    | none => .error (strayWord word)

/-! ## Usage -/

def usage : String :=
  "\n".intercalate [
    "Usage: gql-modelgen <COMMAND> --input <INPUT>... [OPTIONS]",
    "",
    "Commands:",
    "  models   compile every operation and fragment and print the declaration tree as JSON",
    "  scalars  print only the custom scalar registry",
    "  check    run the IR precondition checks and report per file",
    "",
    "Options:",
    "  -i, --input <INPUT>...  One or more IR documents (JSON), as paths or quoted glob patterns",
    "  -o, --out <OUT>         output .json file (stdout if omitted)",
    "      --compact           single-line JSON instead of pretty-printed",
    "      --no-op             debugging",
    "  -h, --help              Print help",
    ""]

def Refusal.message : Refusal → String
  | .nothingAsked => "a command is needed"
  | .unknownCommand => "there is no such command"
  | .unknownArgument => "unexpected argument"
  | .badValue => "an option lacks a value"
  | .repeatedArgument => "an option is used more than once"
  | .unwantedValue => "an option takes no value"
  | .missingInput => "an input is required"

end SelectionModels.CommandLine
