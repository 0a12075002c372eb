import SelectionModels.Json.Reader.Bracket

/-! # Reading values of a known kind

Texts, flags, optional values, lists, records and choices. When a value of another kind is found, it
is read as far as is needed to name it, and the fault tells what was found and what was expected.

* `text`, `flag`, `optional`, `listOf`: the plain kinds;
* `record`: an object whose keys are known, or a list with the same values in the order of the
  keys; keys that are not known are skipped;
* `choice`: an object with one key, which names the kind of its value.

Every bracket is one level of nesting. A reader of a bracketed value is given the reader of its
inside, or nothing when the levels are used up.
-/

namespace SelectionModels.Json.Reader

variable {α σ κ : Type}

/-! ## Other kinds -/

/-- Names what stands where something else was expected. -/
def wrongKind (opening : Opening) (expected : String) : Reader α := do
  match opening with
  | .nothing => failNext .eofInValue
  | .null =>
    skip; nullWord
    failUnplaced (.wrongKind .null expected)
  | .true =>
    skip; trueWord
    failUnplaced (.wrongKind (.bool true) expected)
  | .false =>
    skip; falseWord
    failUnplaced (.wrongKind (.bool false) expected)
  | .minus | .digit =>
    let n ← number
    failUnplaced (.wrongKind (.number n) expected)
  | .quote =>
    skip
    let s ← stringBody
    failUnplaced (.wrongKind (.text s) expected)
  | .bracket => failUnplaced (.wrongKind .list expected)
  | .brace => failUnplaced (.wrongKind .object expected)
  | .other => failNext .expectedValue

/-! ## Plain kinds -/

/-- A text that is expected under the given name. -/
def textAs (expected : String) : Reader String := placed do
  match ← peekOpening with
  | .quote => skip; stringBody
  | opening => wrongKind opening expected

def text : Reader String :=
  textAs "a string"

def flag : Reader Bool := placed do
  match ← peekOpening with
  | .true => skip; trueWord; return true
  | .false => skip; falseWord; return false
  | opening => wrongKind opening "a boolean"

/-- A value, or `null` for none. -/
def optional (r : Reader α) : Reader (Option α) := do
  match ← peekOpening with
  | .null => skip; nullWord; return none
  | _ => some <$> r

/-- A list of values. -/
def listOf (item : Option (Reader α)) : Reader (List α) := placed do
  match ← peekOpening with
  | .bracket =>
    let taken ← inList <| item.map fun r =>
      items (fun taken index => (· :: taken) <$> r.under (.index index)) []
    return taken.reverse
  | opening => wrongKind opening "a sequence"

/-! ## Records -/

/-- A known key, and what reading its value adds to what is known. -/
structure Member (σ : Type) where
  name : String
  read : Reader (σ → σ)

/-- A record: its keys in order, what is known before anything has been read, and the value made
from what is known in the end, or else the first key that is missing. -/
structure Record (σ α : Type) where
  members : List (Member σ)
  blank : σ
  build : σ → Except String α

namespace Record

/-- One member of the object form: a known key must be new, an unknown one is skipped. The state is
what is known, with the known keys met so far. -/
def step (r : Record σ α) (state : List String × σ) (name : String) :
    Reader (List String × σ) := do
  match r.members.find? (·.name = name) with
  | some member =>
    if name ∈ state.1 then failUnplaced (.duplicateMember name)
    else
      colon
      let add ← member.read.under (.key name)
      return (name :: state.1, add state.2)
  | none =>
    colon
    skipValue.under (.key name)
    return state

/-- The inside of the object form. -/
def objectForm (r : Record σ α) : Reader α := do
  let (_, known) ← Reader.members r.step ([], r.blank)
  match r.build known with
  | .ok value => return value
  | .error name => failUnplaced (.missingMember name)

/-- The values of the list form, one per key; those at the end may be left out. -/
def listValues (known : σ) (index : Nat) : List (Member σ) → Reader σ
  | [] => return known
  | member :: rest => do
    if ← nextItem (index = 0) then
      let add ← member.read.under (.index index)
      listValues (add known) (index + 1) rest
    else return known

/-- The inside of the list form of a record with the given description. -/
def listForm (description : String) (r : Record σ α) : Reader α := do
  let known ← listValues r.blank 0 r.members
  match r.build known with
  | .ok value => return value
  | .error name =>
    let expected := description ++ " with " ++ elementsText r.members.length
    failUnplaced (.wrongLength (r.members.findIdx (·.name = name)) expected)

end Record

/-- One of two bracketed forms of the same thing; none if no bracket may be opened any more. -/
def listOrObject (description : String) (forms : Option (Reader α × Reader α)) : Reader α :=
  placed do
    match ← peekOpening with
    | .bracket => inList (forms.map (·.1))
    | .brace => inObject (forms.map (·.2))
    | opening => wrongKind opening description

/-- A record with the given description. -/
def record (description : String) (r : Record σ α) : Reader α :=
  listOrObject description (some (r.listForm description, r.objectForm))

/-- A record where no bracket may be opened any more. -/
def noRecord (description : String) : Reader α :=
  listOrObject description none

/-- A value that must be there, or the key that is missing. -/
def need (name : String) : Option α → Except String α
  | some value => .ok value
  | none => .error name

/-! ## Choices -/

/-- A name with what it chooses, if it is a known one. -/
def knownChoice (choices : List (String × κ)) (name : String) : Reader (String × κ) := do
  match choices.lookup name with
  | some chosen => return (name, chosen)
  | none => failUnplaced (.unknownChoice name (choices.map (·.1)))

/-- The key of an object with one key. -/
def soleKey (choices : List (String × κ)) : Reader (String × κ) := do
  match ← peekToken with
  | none => failNext .eofInObject
  | some b =>
    if b = '\x7d'.toUInt8 then failNext .expectedValue
    else if b = '"'.toUInt8 then placed do
      skip
      knownChoice choices (← stringBody)
    else failNext .keyMustBeString

/-- The brace that closes an object with one key. -/
def soleEnd : Reader Unit := do
  if ← takeIf '\x7d'.toUInt8 then return ()
  else match ← peekToken with
    | some _ => failHere .expectedValue
    | none => failHere .eofInObject

/-- The inside of an object with one key, which says how its value is read. -/
def choiceBody (choices : List (String × κ)) (value : κ → Reader α) : Reader α := do
  let (name, chosen) ← soleKey choices
  colon
  let result ← (value chosen).under (.key name)
  soleEnd
  return result

/-- A bare name where a name with a value is needed. -/
def bareChoice (choices : List (String × κ)) : Reader α := do
  let (name, _) ← placed do
    skip
    knownChoice choices (← stringBody)
  (failUnplaced (.wrongKind .bareName "newtype variant")).under (.key name)

/-- A choice of values by name; none if no bracket may be opened any more. -/
def choice (choices : List (String × κ)) (value : Option (κ → Reader α)) : Reader α := do
  match ← peekOpening with
  | .nothing => failNext .eofInValue
  | .brace =>
    match value with
    | none => failNext .nestingLimit
    | some value =>
      skip
      choiceBody choices value
  | .quote => bareChoice choices
  | _ => failNext .expectedValue

end SelectionModels.Json.Reader
