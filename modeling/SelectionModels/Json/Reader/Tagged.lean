import SelectionModels.Json.Fault
import SelectionModels.Json.Reader.Typed

/-! # Reading tagged values

An object whose kind stands under one of its own keys, wherever that key comes; or a list whose
first item is the kind. The rest is kept as content until the kind is known.

* `ContentRecord.ofContent`: a record from an object, or from a list with one value per key, in
  which nothing may be left out;
* `content`: any value, kept as it is;
* `tagged`: a kind and the content that goes with it.
-/

namespace SelectionModels.Json

/-! ## Content

What has been read before the kind is known is kept as it was found, and made sense of afterwards.
Faults in it belong to the whole object and are pointed at no place. -/

inductive Content where
  | null
  | bool (b : Bool)
  | number (n : Number)
  | text (s : String)
  | list (items : List Content)
  | object (members : List (String × Content))

namespace Content

/-- What a message calls the content. -/
def found : Content → Found
  | .null => .null
  | .bool b => .bool b
  | .number n => .number n
  | .text s => .text s
  | .list _ => .list
  | .object _ => .object

/-- A text. -/
def toText : Content → Except Fault String
  | .text s => .ok s
  | c => .error (.wrongKind c.found "a string")

/-- A text, or `null` for none. -/
def toOptionalText : Content → Except Fault (Option String)
  | .null => .ok none
  | c => some <$> c.toText

/-- A list of texts. -/
def toTexts : Content → Except Fault (List String)
  | .list items => items.mapM toText
  | c => .error (.wrongKind c.found "a sequence")

end Content

variable {σ α : Type}

/-- A known key, and what its content adds to what is known. -/
structure ContentMember (σ : Type) where
  name : String
  read : Content → Except Fault (σ → σ)

/-- A record that is made from content. -/
structure ContentRecord (σ α : Type) where
  description : String
  members : List (ContentMember σ)
  blank : σ
  build : σ → Except String α

namespace ContentRecord

/-- The object form: a known key must be new, an unknown one is passed over. -/
def objectForm (r : ContentRecord σ α) (seen : List String) (known : σ) :
    List (String × Content) → Except Fault σ
  | [] => .ok known
  | (name, content) :: rest =>
    match r.members.find? (·.name = name) with
    | some member => do
      if name ∈ seen then throw (.duplicateMember name)
      let add ← member.read content
      r.objectForm (name :: seen) (add known) rest
    | none => r.objectForm seen known rest

/-- The list form: exactly one value per key. -/
def listForm (r : ContentRecord σ α) (known : σ) (index : Nat) :
    List (ContentMember σ) → List Content → Except Fault σ
  | [], [] => .ok known
  | [], left => .error (.wrongLength (index + left.length) (elementsText index ++ " in sequence"))
  | _ :: _, [] =>
    let expected := r.description ++ " with " ++ elementsText r.members.length
    .error (.wrongLength index expected)
  | member :: members, content :: left => do
    let add ← member.read content
    r.listForm (add known) (index + 1) members left

/-- The record that a content holds. -/
def ofContent (r : ContentRecord σ α) : Content → Except Fault α
  | .object members => do
    match r.build (← r.objectForm [] r.blank members) with
    | .ok value => return value
    | .error name => throw (.missingMember name)
  | .list items => do
    match r.build (← r.listForm r.blank 0 r.members items) with
    | .ok value => return value
    | .error name => throw (.missingMember name)
  | c => .error (.wrongKind c.found r.description)

end ContentRecord

end SelectionModels.Json

namespace SelectionModels.Json.Reader

/-! ## Kinds and their content -/

variable {κ : Type}

/-- Any value, given the reader of values inside brackets, or none if no bracket may be opened any
more. -/
def contentWith (inner : Option (Reader Content)) : Reader Content := do
  match ← peekOpening with
  | .nothing => failNext .eofInValue
  | .null => skip; nullWord; return .null
  | .true => skip; trueWord; return .bool true
  | .false => skip; falseWord; return .bool false
  | .minus | .digit => return .number (← number)
  | .quote => skip; return .text (← stringBody)
  | .bracket =>
    let taken ← inList <| inner.map fun r =>
      items (fun taken index => (· :: taken) <$> r.under (.index index)) []
    return .list taken.reverse
  | .brace =>
    let taken ← inObject <| inner.map fun r =>
      members (fun taken name => do
        colon
        return (name, ← r.under (.key name)) :: taken) []
    return .object taken.reverse
  | .other => failNext .expectedValue

/-- Any value that nests at most `levels` deep. -/
def content : (levels : Nat) → Reader Content
  | 0 => contentWith none
  | levels + 1 => contentWith (some (.delay fun _ => content levels))

/-- The name of a kind. -/
def kindName (choices : List (String × κ)) : Reader κ := placed do
  let (_, kind) ← knownChoice choices (← textAs "variant identifier")
  return kind

/-- The kind, if it has been read, and the content so far, the latest first. -/
structure TaggedState (κ β : Type) where
  kind : Option κ
  taken : List β

/-- The kind must have been there. -/
def taggedResult {β : Type} (tag : String) (state : TaggedState κ β) : Reader (κ × List β) := do
  match state.kind with
  | some kind => return (kind, state.taken.reverse)
  | none => failUnplaced (.missingMember tag)

/-- The inside of the list form. -/
def taggedList (tag : String) (choices : List (String × κ)) (inner : Reader Content) :
    Reader (κ × Content) := do
  let step (state : TaggedState κ Content) (index : Nat) : Reader (TaggedState κ Content) :=
    if index = 0 then do
      let kind ← (kindName choices).under (.index index)
      return { state with kind := some kind }
    else do
      let c ← inner.under (.index index)
      return { state with taken := c :: state.taken }
  let (kind, taken) ← taggedResult tag (← items step ⟨none, []⟩)
  return (kind, .list taken)

/-- The inside of the object form. -/
def taggedObject (tag : String) (choices : List (String × κ)) (inner : Reader Content) :
    Reader (κ × Content) := do
  let step (state : TaggedState κ (String × Content)) (name : String) :
      Reader (TaggedState κ (String × Content)) :=
    if name = tag then do
      if state.kind.isSome then failUnplaced (.duplicateMember tag)
      colon
      let kind ← (kindName choices).under (.key name)
      return { state with kind := some kind }
    else do
      colon
      let c ← inner.under (.key name)
      return { state with taken := (name, c) :: state.taken }
  let (kind, taken) ← taggedResult tag (← members step ⟨none, []⟩)
  return (kind, .object taken)

/-- A kind and its content; none if no bracket may be opened any more. -/
def tagged (description tag : String) (choices : List (String × κ))
    (inner : Option (Reader Content)) : Reader (κ × Content) :=
  listOrObject description <| inner.map fun r =>
    (taggedList tag choices r, taggedObject tag choices r)

end SelectionModels.Json.Reader
