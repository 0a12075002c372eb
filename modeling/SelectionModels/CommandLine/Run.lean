import SelectionModels.CommandLine.Messages
import SelectionModels.Files.Store
import SelectionModels.Format.Declaration
import SelectionModels.Format.Document

/-! # Running commands

An input is the path of a file or a pattern for paths; a pattern has to fit something. A run has two
halves. The first one only looks at files: it reads all documents, works on them, and comes to
notices and to what is to be put out, or to a failure. The second one puts that out, and does
nothing after a failure. So a run that cannot finish its work changes no file and prints nothing,
and an output file may be one of the inputs.

* `resolve`: the paths that the inputs stand for, in the order of the inputs and with repetitions;
* `plan`: the first half;
* `finish`: the second half;
* `runOn`: both, on a file store, which a failure of the first half leaves as it was
  (`runOn_of_error`).
-/

namespace SelectionModels.CommandLine

open Files (View Writer Store parent? ancestors)
open Glob (isPattern parseComponents expandComponents)
open Json (Value Layout)

variable {m : Type → Type} [Monad m]

/-! ## Sources -/

/-! ### Paths -/

/-- The paths that a pattern stands for. -/
def resolvePattern (v : View m) (pattern : String) : ExceptT InputError m (List String) := do
  match parseComponents pattern with
  | .error cause => throw (.badPattern cause)
  | .ok components =>
    let found ← (expandComponents v pattern components).adapt .unreadableDirectory
    if found.isEmpty then throw (.noMatch pattern) else return found

/-- The paths that an input stands for. -/
def resolveInput (v : View m) (input : String) : ExceptT InputError m (List String) :=
  if isPattern input then resolvePattern v input else return [input]

/-- The paths that the inputs stand for. -/
def resolve (v : View m) : List String → ExceptT InputError m (List String)
  | [] => return []
  | input :: rest => do return (← resolveInput v input) ++ (← resolve v rest)

/-! ### Documents -/

/-- A document and the path that it was read from. -/
structure Source where
  path : String
  document : Document
deriving DecidableEq

/-- The document at a path. -/
def Source.load (v : View m) (path : String) : ExceptT Failure m Source := do
  match ← v.read path with
  | .error cause => throw (.unreadable path cause)
  | .ok content =>
    match decode Document.reader content with
    | .error cause => throw (.malformed path cause)
    | .ok document => return ⟨path, document⟩

/-- The documents that the inputs stand for. -/
def loadSources (v : View m) (inputs : List String) : ExceptT Failure m (List Source) := do
  let paths ← (resolve v inputs).adapt .unresolved
  paths.mapM (Source.load v)

/-! ## Runs -/

/-! ### Work on documents -/

/-- What is noticed during some work, and what the work gives. -/
structure Work (α : Type) where
  notices : List Notice
  result : Except Failure α

namespace Work

variable {α β : Type}

def fail (f : Failure) : Work α :=
  ⟨[], .error f⟩

def map (g : α → β) (w : Work α) : Work β :=
  ⟨w.notices, g <$> w.result⟩

/-- Work on one thing after the other, up to the first that fails. -/
def forEach (work : α → Work β) : List α → Work (List β)
  | [] => ⟨[], .ok []⟩
  | a :: rest =>
    let first := work a
    match first.result with
    | .error f => ⟨first.notices, .error f⟩
    | .ok b =>
      let later := forEach work rest
      ⟨first.notices ++ later.notices, (b :: ·) <$> later.result⟩

end Work

namespace Source

def compile (s : Source) : Work CompiledDocument :=
  match s.document.compile with
  | .error e => .fail (.rejected s.path e)
  | .ok c => ⟨[.compiled s.path c.declarationCount c.registry.constants.length], .ok c⟩

def registry (s : Source) : Work Registry :=
  match Registry.ofScalars s.document.ns s.document.customScalars with
  | .error e => .fail (.badScalars s.path e)
  | .ok r =>
    let unmapped := r.constants.countP (·.isUnmapped)
    ⟨if unmapped = 0 then [] else [.unmapped s.path unmapped], .ok r⟩

/-- What a check says of a document. -/
def verdict (s : Source) : Notice :=
  match s.document.check with
  | .ok () => .accepted s.path
  | .error e => .rejected s.path e

/-- A check finds something wrong. -/
def isRejected (s : Source) : Bool :=
  !s.document.check.isOk

end Source

/-- Every document is checked, whatever is wrong with those before it. -/
def checkAll (sources : List Source) : Work Unit :=
  let bad := sources.countP (·.isRejected)
  ⟨sources.map (·.verdict), if bad = 0 then .ok () else .error (.violations bad)⟩

/-! ### What is put out -/

/-- One value stands for itself, several are a list. -/
def valueOf : List Value → Value
  | [v] => v
  | vs => .array vs

inductive Delivery where
  | nothing
  | print (text : String)
  | save (path text : String)
deriving DecidableEq, Repr

def OutputSettings.layout (o : OutputSettings) : Layout :=
  if o.compact then .compact else .pretty

/-- The values where they are wanted, in the layout that is wanted. -/
def OutputSettings.deliver (o : OutputSettings) (values : List Value) : Delivery :=
  let text := (valueOf values).render o.layout
  match o.out with
  | none => .print text
  | some path => .save path text

/-! ### The first half -/

/-- Work on the documents that the inputs stand for, once all of them are there. -/
def onSources {α : Type} (v : View m) (inputs : List String) (work : List Source → Work α) :
    m (Work α) := do
  match ← (loadSources v inputs).run with
  | .error f => return .fail f
  | .ok sources => return work sources

/-- Documents are turned into values, which are put out. -/
def produce {α : Type} (v : View m) (command : Command) (t : Target) (work : Source → Work α)
    (toJson : α → Value) : m (Work Delivery) :=
  if t.noOp then return ⟨[.understood command], .ok .nothing⟩
  else onSources v t.inputs fun sources =>
    (Work.forEach work sources).map fun results => t.output.deliver (results.map toJson)

/-- What a command comes to. -/
def plan (v : View m) (command : Command) : m (Work Delivery) :=
  match command with
  | .models t => produce v command t Source.compile CompiledDocument.toJson
  | .scalars t => produce v command t Source.registry Registry.toJson
  | .check inputs => onSources v inputs fun sources => (checkAll sources).map fun _ => .nothing

/-! ### The second half -/

/-- A text goes to a file, whose directory is made if it is missing. -/
def saveText (w : Writer m) (path text : String) : ExceptT Failure m Unit := do
  if let some parent := parent? path then
    if let .error cause ← w.ensureFrom (ancestors parent) then
      throw (.noDirectory parent cause)
  if let .error cause ← w.write path (textBytes text) then
    throw (.unwritten path cause)

/-- Puts out what has been come to, and gives the text for the standard output. -/
def Delivery.carryOut (w : Writer m) : Delivery → ExceptT Failure m String
  | .nothing => return ""
  | .print text => return text ++ "\n"
  | .save path text => do
    saveText w path text
    return ""

/-- What a run leaves behind, files apart. -/
structure Transcript where
  notices : List Notice
  stdout : String
  failure : Option Failure
deriving DecidableEq, Repr

/-- The text on the standard error: the notices, and the failure after them. -/
def Transcript.stderr (t : Transcript) (coloured : Bool) : String :=
  noticeText coloured t.notices ++
    match t.failure with
    | none => ""
    | some f => Text.styled coloured .red "error:" ++ " " ++ f.message ++ "\n"

/-- The end of a run. -/
def finish (w : Writer m) (work : Work Delivery) : m Transcript := do
  match work.result with
  | .error f => return ⟨work.notices, "", some f⟩
  | .ok delivery =>
    match ← (delivery.carryOut w).run with
    | .error f => return ⟨work.notices, "", some f⟩
    | .ok stdout => return ⟨work.notices, stdout, none⟩

/-- A whole run. -/
def run (v : View m) (w : Writer m) (command : Command) : m Transcript := do
  finish w (← plan v command)

/-! ### On a store -/

/-- A whole run on a store: what it leaves behind, and the store afterwards. -/
def runOn (s : Store) (command : Command) : Transcript × Store :=
  (finish Store.writer (Id.run (plan s.view command))).run s

theorem runOn_of_error {s : Store} {command : Command} {f : Failure}
    (h : (Id.run (plan s.view command)).result = .error f) :
    runOn s command = (⟨(Id.run (plan s.view command)).notices, "", some f⟩, s) := by
  simp only [runOn, finish, h]
  rfl

end SelectionModels.CommandLine
