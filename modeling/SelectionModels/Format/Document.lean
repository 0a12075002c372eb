import SelectionModels.Document
import SelectionModels.Json.Reader.Tagged
import SelectionModels.Json.Value
import SelectionModels.TypeRef

/-! # The JSON form of documents

Every part of a document has a written form with all its keys, and a reader that takes any order of
the keys, leaves out what it does not know and fills in what may be missing. Exactly one value is
read from a text; whatever follows it is not looked at.

* `ModelPath.toJson`, `TypeRef.toJson`, `Field.toJson`, `Document.toJson` and their like: the
  written forms;
* `ModelPath.reader`, `TypeRef.reader`, `Field.reader`, `Document.reader`: reading them, within a
  number of levels of nesting;
* `decode`, `decodeText`: a value from bytes or from a text, or where and why reading failed.
-/

namespace SelectionModels

open Json

/-! ## Model paths

A record of the namespace and the list of the elements. A path without elements is no model path,
however well-formed its text. -/

namespace ModelPath

def toJson (p : ModelPath) : Value :=
  .object [("namespace", .string p.ns), ("elements", .strings p.elements)]

/-- What is known of a path while it is read. -/
structure Parts where
  ns : Option String
  elements : Option (List String)

def Parts.blank : Parts := ⟨none, none⟩

/-- The namespace and the elements, whether there are any or not. -/
def Parts.build (p : Parts) : Except String (String × List String) := do
  return (← Reader.need "namespace" p.ns, ← Reader.need "elements" p.elements)

/-- What a model path is called where something else is found. -/
def title : String := "struct RawModelPath"

/-- The record behind a path, given the readers of its values. -/
def recordOf (text : Reader String) (texts : Reader (List String)) :
    Reader.Record Parts (String × List String) where
  members := [
    ⟨"namespace", (fun s p => { p with ns := some s }) <$> text⟩,
    ⟨"elements", (fun ss p => { p with elements := some ss }) <$> texts⟩]
  blank := .blank
  build := Parts.build

/-- A list of texts that may open at most `levels` brackets. -/
def textsReader : (levels : Nat) → Reader (List String)
  | 0 => Reader.listOf none
  | _ + 1 => Reader.listOf (some Reader.text)

/-- A namespace and elements that may open at most `levels` brackets. -/
def partsReader : (levels : Nat) → Reader (String × List String)
  | 0 => Reader.noRecord title
  | levels + 1 => Reader.record title (recordOf Reader.text (textsReader levels))

/-- A model path that may open at most `levels` brackets. -/
def reader (levels : Nat) : Reader ModelPath := do
  let (ns, elements) ← partsReader levels
  match ofElements? ns elements with
  | some path => return path
  | none => Reader.failUnplaced .emptyModelPath

/-- The record behind a path in content. -/
def contentRecord : ContentRecord Parts (String × List String) where
  description := title
  members := [
    ⟨"namespace", fun c => (fun s p => { p with ns := some s }) <$> c.toText⟩,
    ⟨"elements", fun c => (fun ss p => { p with elements := some ss }) <$> c.toTexts⟩]
  blank := .blank
  build := Parts.build

/-- The model path that a content holds. -/
def ofContent (c : Content) : Except Fault ModelPath := do
  let (ns, elements) ← contentRecord.ofContent c
  match ofElements? ns elements with
  | some path => return path
  | none => throw .emptyModelPath

end ModelPath

/-! ## Type references

A leaf is an object with its kind under the key `kind`, beside what belongs to the kind. A type
reference is an object with one key, which names the layer, or `named` for the leaf at the core.
Every layer is one level of nesting. -/

/-! ### Leaves -/

namespace Leaf

def toJson : Leaf → Value
  | .string => .object [("kind", .string "string")]
  | .int => .object [("kind", .string "int")]
  | .float => .object [("kind", .string "float")]
  | .boolean => .object [("kind", .string "boolean")]
  | .id => .object [("kind", .string "id")]
  | .enum ns name =>
    .object [("kind", .string "enum"), ("namespace", .string ns), ("name", .string name)]
  | .customScalar name mappedType =>
    .object [("kind", .string "custom_scalar"), ("name", .string name),
      ("mapped_type", .optional mappedType)]
  | .model path => .object [("kind", .string "model"), ("path", path.toJson)]

/-- The kinds of leaf. -/
inductive Tag where
  | builtin (leaf : Leaf)
  | enum
  | customScalar
  | model

/-- The kinds by name, in the order in which they are listed. -/
def tags : List (String × Tag) := [
  ("string", .builtin .string),
  ("int", .builtin .int),
  ("float", .builtin .float),
  ("boolean", .builtin .boolean),
  ("id", .builtin .id),
  ("enum", .enum),
  ("custom_scalar", .customScalar),
  ("model", .model)]

/-- What is known of an enum while it is read. -/
structure EnumParts where
  ns : Option String
  name : Option String

def enumRecord : ContentRecord EnumParts Leaf where
  description := "struct variant LeafType::Enum"
  members := [
    ⟨"namespace", fun c => (fun s p => { p with ns := some s }) <$> c.toText⟩,
    ⟨"name", fun c => (fun s p => { p with name := some s }) <$> c.toText⟩]
  blank := ⟨none, none⟩
  build p := return .enum (← Reader.need "namespace" p.ns) (← Reader.need "name" p.name)

/-- What is known of a custom scalar while it is read. -/
structure CustomScalarParts where
  name : Option String
  mappedType : Option (Option String)

def customScalarRecord : ContentRecord CustomScalarParts Leaf where
  description := "struct variant LeafType::CustomScalar"
  members := [
    ⟨"name", fun c => (fun s p => { p with name := some s }) <$> c.toText⟩,
    ⟨"mapped_type", fun c => (fun s p => { p with mappedType := some s }) <$> c.toOptionalText⟩]
  blank := ⟨none, none⟩
  build p := return .customScalar (← Reader.need "name" p.name) p.mappedType.join

def modelRecord : ContentRecord (Option ModelPath) Leaf where
  description := "struct variant LeafType::Model"
  members := [⟨"path", fun c => (fun path _ => some path) <$> ModelPath.ofContent c⟩]
  blank := none
  build p := .model <$> Reader.need "path" p

/-- A kind without parts of its own takes no items; members are passed over. -/
def builtinOfContent (leaf : Leaf) : Content → Except Fault Leaf
  | .list (item :: items) =>
    .error (.wrongLength (item :: items).length (elementsText 0 ++ " in sequence"))
  | _ => .ok leaf

/-- The leaf of a kind that a content holds. -/
def ofContent : Tag → Content → Except Fault Leaf
  | .builtin leaf, c => builtinOfContent leaf c
  | .enum, c => enumRecord.ofContent c
  | .customScalar, c => customScalarRecord.ofContent c
  | .model, c => modelRecord.ofContent c

/-- A kind and the content that goes with it. -/
def taggedReader : (levels : Nat) → Reader (Tag × Content)
  | 0 => Reader.tagged "internally tagged enum LeafType" "kind" tags none
  | levels + 1 =>
    Reader.tagged "internally tagged enum LeafType" "kind" tags (some (Reader.content levels))

/-- A leaf that may open at most `levels` brackets. -/
def reader (levels : Nat) : Reader Leaf := do
  let (tag, content) ← taggedReader levels
  match ofContent tag content with
  | .ok leaf => return leaf
  | .error fault => Reader.failUnplaced fault

end Leaf

/-! ### References -/

namespace TypeRef

def toJson : TypeRef → Value
  | .named leaf => .object [("named", leaf.toJson)]
  | .nullable inner => .object [("nullable", toJson inner)]
  | .list inner => .object [("list", toJson inner)]

/-- The core of a reference, or one of its layers. -/
inductive Form where
  | named
  | wrapped (w : Wrap)

/-- The forms by name, in the order in which they are listed. -/
def forms : List (String × Form) := [
  ("named", .named),
  ("nullable", .wrapped .nullable),
  ("list", .wrapped .list)]

/-- A type reference that may open at most `levels` brackets. -/
def reader : (levels : Nat) → Reader TypeRef
  | 0 => Reader.choice forms none
  | levels + 1 => Reader.choice forms <| some fun
    | .named => .named <$> Leaf.reader levels
    | .wrapped w => (·.wrap w) <$> reader levels

end TypeRef

/-! ## Selections

A field needs its response name and its type, a field set its model name and its path; everything
else may be left out. -/

/-! ### Writing -/

mutual

def Field.toJson : Field → Value
  | .mk responseName type description deprecationReason isOverride fieldSets
      implementationFieldSets baseFieldSet => .object [
    ("response_name", .string responseName),
    ("type", type.toJson),
    ("description", .optional description),
    ("deprecation_reason", .optional deprecationReason),
    ("override", .bool isOverride),
    ("field_sets", .array (FieldSet.listToJson fieldSets)),
    ("implementation_field_sets", .array (FieldSet.listToJson implementationFieldSets)),
    ("base_field_set", FieldSet.optionToJson baseFieldSet)]
termination_by structural f => f

def FieldSet.toJson : FieldSet → Value
  | .mk modelName path fields implements => .object [
    ("model_name", .string modelName),
    ("full_path", path.toJson),
    ("fields", .array (Field.listToJson fields)),
    ("implements", .array (implements.map ModelPath.toJson))]
termination_by structural s => s

def FieldSet.optionToJson : Option FieldSet → Value
  | none => .null
  | some s => FieldSet.toJson s
termination_by structural s => s

def FieldSet.listToJson : List FieldSet → List Value
  | [] => []
  | s :: rest => FieldSet.toJson s :: FieldSet.listToJson rest
termination_by structural sets => sets

def Field.listToJson : List Field → List Value
  | [] => []
  | f :: rest => Field.toJson f :: Field.listToJson rest
termination_by structural fields => fields

end

theorem FieldSet.listToJson_eq_map (sets : List FieldSet) :
    FieldSet.listToJson sets = sets.map FieldSet.toJson := by
  induction sets with
  | nil => rfl
  | cons s rest ih => simp [FieldSet.listToJson, ih]

theorem Field.listToJson_eq_map (fields : List Field) :
    Field.listToJson fields = fields.map Field.toJson := by
  induction fields with
  | nil => rfl
  | cons f rest ih => simp [Field.listToJson, ih]

/-! ### Records -/

/-- What is known of a field while it is read. -/
structure Field.Parts where
  responseName : Option String
  type : Option TypeRef
  description : Option String
  deprecationReason : Option String
  isOverride : Bool
  fieldSets : List FieldSet
  implementationFieldSets : List FieldSet
  baseFieldSet : Option FieldSet

def Field.Parts.blank : Field.Parts :=
  ⟨none, none, none, none, false, [], [], none⟩

def Field.Parts.build (p : Field.Parts) : Except String Field := do
  return {
    responseName := ← Reader.need "response_name" p.responseName
    type := ← Reader.need "type" p.type
    description := p.description
    deprecationReason := p.deprecationReason
    isOverride := p.isOverride
    fieldSets := p.fieldSets
    implementationFieldSets := p.implementationFieldSets
    baseFieldSet := p.baseFieldSet }

/-- A field, given the readers of what is nested in it. -/
def Field.recordOf (type : Reader TypeRef) (set : Reader FieldSet)
    (sets : Reader (List FieldSet)) : Reader.Record Field.Parts Field where
  members := [
    ⟨"response_name", (fun s p => { p with responseName := some s }) <$> Reader.text⟩,
    ⟨"type", (fun t p => { p with type := some t }) <$> type⟩,
    ⟨"description", (fun s p => { p with description := s }) <$> Reader.optional Reader.text⟩,
    ⟨"deprecation_reason",
      (fun s p => { p with deprecationReason := s }) <$> Reader.optional Reader.text⟩,
    ⟨"override", (fun b p => { p with isOverride := b }) <$> Reader.flag⟩,
    ⟨"field_sets", (fun ss p => { p with fieldSets := ss }) <$> sets⟩,
    ⟨"implementation_field_sets",
      (fun ss p => { p with implementationFieldSets := ss }) <$> sets⟩,
    ⟨"base_field_set", (fun s p => { p with baseFieldSet := s }) <$> Reader.optional set⟩]
  blank := .blank
  build := Field.Parts.build

/-- What is known of a field set while it is read. -/
structure FieldSet.Parts where
  modelName : Option String
  path : Option ModelPath
  fields : List Field
  implements : List ModelPath

def FieldSet.Parts.blank : FieldSet.Parts :=
  ⟨none, none, [], []⟩

def FieldSet.Parts.build (p : FieldSet.Parts) : Except String FieldSet := do
  return {
    modelName := ← Reader.need "model_name" p.modelName
    path := ← Reader.need "full_path" p.path
    fields := p.fields
    implements := p.implements }

/-- A field set, given the readers of what is nested in it. -/
def FieldSet.recordOf (path : Reader ModelPath) (fields : Reader (List Field))
    (paths : Reader (List ModelPath)) : Reader.Record FieldSet.Parts FieldSet where
  members := [
    ⟨"model_name", (fun s p => { p with modelName := some s }) <$> Reader.text⟩,
    ⟨"full_path", (fun path p => { p with path := some path }) <$> path⟩,
    ⟨"fields", (fun fs p => { p with fields := fs }) <$> fields⟩,
    ⟨"implements", (fun ps p => { p with implements := ps }) <$> paths⟩]
  blank := .blank
  build := FieldSet.Parts.build

/-! ### Reading -/

/-- What a field is called where something else is found. -/
def Field.title : String := "struct IrField"

/-- What a field set is called where something else is found. -/
def FieldSet.title : String := "struct IrFieldSet"

/-- A list of model paths that may open at most `levels` brackets. -/
def ModelPath.listReader : (levels : Nat) → Reader (List ModelPath)
  | 0 => Reader.listOf none
  | levels + 1 => Reader.listOf (some (ModelPath.reader levels))

mutual

/-- A field that may open at most `levels` brackets. -/
def Field.reader : (levels : Nat) → Reader Field
  | 0 => Reader.noRecord Field.title
  | levels + 1 => Reader.record Field.title <|
    Field.recordOf (TypeRef.reader levels) (.delay fun _ => FieldSet.reader levels)
      (.delay fun _ => FieldSet.listReader levels)
termination_by structural levels => levels

/-- A field set that may open at most `levels` brackets. -/
def FieldSet.reader : (levels : Nat) → Reader FieldSet
  | 0 => Reader.noRecord FieldSet.title
  | levels + 1 => Reader.record FieldSet.title <|
    FieldSet.recordOf (ModelPath.reader levels) (.delay fun _ => Field.listReader levels)
      (ModelPath.listReader levels)
termination_by structural levels => levels

/-- A list of field sets that may open at most `levels` brackets. -/
def FieldSet.listReader : (levels : Nat) → Reader (List FieldSet)
  | 0 => Reader.listOf none
  | levels + 1 => Reader.listOf (some (.delay fun _ => FieldSet.reader levels))
termination_by structural levels => levels

/-- A list of fields that may open at most `levels` brackets. -/
def Field.listReader : (levels : Nat) → Reader (List Field)
  | 0 => Reader.listOf none
  | levels + 1 => Reader.listOf (some (.delay fun _ => Field.reader levels))
termination_by structural levels => levels

end

/-! ## Whole documents -/

/-! ### Decoding -/

/-- How many brackets may be open at once. -/
def nestingLimit : Nat := 127

/-- The error that a failure in reading `input` amounts to. -/
def decodeError (input : Bytes) (failure : Failure) : DocumentError :=
  .decode (Location.display failure.location) (failure.message input)

/-- The value at the front of the given bytes. -/
def decode {α : Type} (reader : (levels : Nat) → Reader α) (input : Bytes) :
    Except DocumentError α :=
  match (reader nestingLimit).run input with
  | .done value _ => .ok value
  | .failed failure _ => .error (decodeError input failure)

/-- The bytes of a text. -/
def textBytes (s : String) : Bytes :=
  s.toUTF8.toList

/-- The value at the front of a text. -/
def decodeText {α : Type} (reader : (levels : Nat) → Reader α) (s : String) :
    Except DocumentError α :=
  decode reader (textBytes s)

/-- A list that may open at most the given number of brackets, of values that may open one less. -/
def listReader {α : Type} (reader : (levels : Nat) → Reader α) : (levels : Nat) → Reader (List α)
  | 0 => Reader.listOf none
  | levels + 1 => Reader.listOf (some (reader levels))

/-! ### Custom scalars -/

namespace CustomScalar

def toJson (s : CustomScalar) : Value :=
  .object [
    ("name", .string s.name),
    ("mapped_type", .optional s.mappedType),
    ("description", .optional s.description),
    ("deprecation_reason", .optional s.deprecationReason)]

/-- What is known of a custom scalar while it is read. -/
structure Parts where
  name : Option String
  mappedType : Option String
  description : Option String
  deprecationReason : Option String

def record : Reader.Record Parts CustomScalar where
  members := [
    ⟨"name", (fun s p => { p with name := some s }) <$> Reader.text⟩,
    ⟨"mapped_type", (fun s p => { p with mappedType := s }) <$> Reader.optional Reader.text⟩,
    ⟨"description", (fun s p => { p with description := s }) <$> Reader.optional Reader.text⟩,
    ⟨"deprecation_reason",
      (fun s p => { p with deprecationReason := s }) <$> Reader.optional Reader.text⟩]
  blank := ⟨none, none, none, none⟩
  build p := return ⟨← Reader.need "name" p.name, p.mappedType, p.description, p.deprecationReason⟩

/-- What a custom scalar is called where something else is found. -/
def title : String := "struct IrCustomScalar"

/-- A custom scalar that may open at most `levels` brackets. -/
def reader : (levels : Nat) → Reader CustomScalar
  | 0 => Reader.noRecord title
  | _ + 1 => Reader.record title record

end CustomScalar

/-! ### Operations and fragments -/

/-- What is known of a named data field while it is read. -/
structure NamedFieldParts where
  name : Option String
  dataField : Option Field

/-- A name and a data field, given the reader of the latter. -/
def namedFieldRecord {α : Type} (make : String → Field → α) (field : Reader Field) :
    Reader.Record NamedFieldParts α where
  members := [
    ⟨"name", (fun s p => { p with name := some s }) <$> Reader.text⟩,
    ⟨"data_field", (fun f p => { p with dataField := some f }) <$> field⟩]
  blank := ⟨none, none⟩
  build p := return make (← Reader.need "name" p.name) (← Reader.need "data_field" p.dataField)

/-- A name and a data field that may open at most `levels` brackets. -/
def namedFieldReader {α : Type} (description : String) (make : String → Field → α) :
    (levels : Nat) → Reader α
  | 0 => Reader.noRecord description
  | levels + 1 => Reader.record description (namedFieldRecord make (Field.reader levels))

def Operation.toJson (o : Operation) : Value :=
  .object [("name", .string o.name), ("data_field", o.dataField.toJson)]

def Operation.reader : (levels : Nat) → Reader Operation :=
  namedFieldReader "struct IrOperation" Operation.mk

def Fragment.toJson (f : Fragment) : Value :=
  .object [("name", .string f.name), ("data_field", f.dataField.toJson)]

def Fragment.reader : (levels : Nat) → Reader Fragment :=
  namedFieldReader "struct IrFragment" Fragment.mk

/-! ### Documents -/

namespace Document

def toJson (d : Document) : Value :=
  .object [
    ("namespace", .string d.ns),
    ("custom_scalars", .array (d.customScalars.map CustomScalar.toJson)),
    ("operations", .array (d.operations.map Operation.toJson)),
    ("fragments", .array (d.fragments.map Fragment.toJson))]

/-- What is known of a document while it is read. -/
structure Parts where
  ns : Option String
  customScalars : List CustomScalar
  operations : List Operation
  fragments : List Fragment

/-- A document, given the readers of its lists. -/
def recordOf (scalars : Reader (List CustomScalar)) (operations : Reader (List Operation))
    (fragments : Reader (List Fragment)) : Reader.Record Parts Document where
  members := [
    ⟨"namespace", (fun s p => { p with ns := some s }) <$> Reader.text⟩,
    ⟨"custom_scalars", (fun ss p => { p with customScalars := ss }) <$> scalars⟩,
    ⟨"operations", (fun os p => { p with operations := os }) <$> operations⟩,
    ⟨"fragments", (fun fs p => { p with fragments := fs }) <$> fragments⟩]
  blank := ⟨none, [], [], []⟩
  build p := return ⟨← Reader.need "namespace" p.ns, p.customScalars, p.operations, p.fragments⟩

/-- What a document is called where something else is found. -/
def title : String := "struct IrDocument"

/-- A document that may open at most `levels` brackets. -/
def reader : (levels : Nat) → Reader Document
  | 0 => Reader.noRecord title
  | levels + 1 => Reader.record title <|
    recordOf (listReader CustomScalar.reader levels) (listReader Operation.reader levels)
      (listReader Fragment.reader levels)

end Document

end SelectionModels
