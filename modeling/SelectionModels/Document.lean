import SelectionModels.Text.Quoted
import SelectionModels.TypeRef

/-! # Documents

One schema's worth of selections: the custom scalars it refers to, its operations and its fragments.
An operation or fragment is a named data field, below which the selection tree hangs.

* `Field.decEq`, `FieldSet.decEq`: two selections can be compared, whatever their depth;
* `DocumentError.message`: what can be wrong with a document, and the one text that tells it.
-/

namespace SelectionModels

/-! ## Selections

A field selects a response name and a type. A field that is selected further carries field sets:
shared shapes, one concrete shape per type condition, and perhaps the shape that all variants have
in common. A field set in turn holds fields, so the two types are defined together. -/

mutual

/-- What is selected under one response name. -/
structure Field where
  responseName : String
  type : TypeRef
  description : Option String
  deprecationReason : Option String
  /-- The field declares again what an implemented interface declares. -/
  isOverride : Bool
  /-- Shared shapes, declared as interfaces. -/
  fieldSets : List FieldSet
  /-- One concrete shape per type condition. -/
  implementationFieldSets : List FieldSet
  /-- The shape that all variants have in common. -/
  baseFieldSet : Option FieldSet

/-- A shape: the fields that are selected of one model. -/
structure FieldSet where
  modelName : String
  path : ModelPath
  fields : List Field
  implements : List ModelPath

end

/-! ### Comparison -/

mutual

/-- Fields are compared part by part, and so are the field sets in them. -/
def Field.decEq : (a b : Field) → Decidable (a = b)
  | .mk name type desc depr again sets impls base,
    .mk name' type' desc' depr' again' sets' impls' base' =>
    if h : name = name' ∧ type = type' ∧ desc = desc' ∧ depr = depr' ∧ again = again' then
      match FieldSet.decEqList sets sets', FieldSet.decEqList impls impls',
          FieldSet.decEqOption base base' with
      | .isTrue h₁, .isTrue h₂, .isTrue h₃ => .isTrue (by
          obtain ⟨rfl, rfl, rfl, rfl, rfl⟩ := h; subst h₁; subst h₂; subst h₃; rfl)
      | .isFalse h₁, _, _ => .isFalse (fun e => h₁ (by injection e))
      | _, .isFalse h₂, _ => .isFalse (fun e => h₂ (by injection e))
      | _, _, .isFalse h₃ => .isFalse (fun e => h₃ (by injection e))
    else .isFalse (fun e => h (by injection e; simp [*]))
termination_by structural a => a

def FieldSet.decEq : (a b : FieldSet) → Decidable (a = b)
  | .mk name path fields impls, .mk name' path' fields' impls' =>
    if h : name = name' ∧ path = path' ∧ impls = impls' then
      match Field.decEqList fields fields' with
      | .isTrue h₁ => .isTrue (by obtain ⟨rfl, rfl, rfl⟩ := h; subst h₁; rfl)
      | .isFalse h₁ => .isFalse (fun e => h₁ (by injection e))
    else .isFalse (fun e => h (by injection e; simp [*]))
termination_by structural a => a

def FieldSet.decEqOption : (a b : Option FieldSet) → Decidable (a = b)
  | none, none => .isTrue rfl
  | some a, some b =>
    match FieldSet.decEq a b with
    | .isTrue h => .isTrue (by rw [h])
    | .isFalse h => .isFalse (fun e => h (Option.some.inj e))
  | none, some _ => .isFalse nofun
  | some _, none => .isFalse nofun
termination_by structural a => a

def FieldSet.decEqList : (as bs : List FieldSet) → Decidable (as = bs)
  | [], [] => .isTrue rfl
  | a :: as, b :: bs =>
    match FieldSet.decEq a b, FieldSet.decEqList as bs with
    | .isTrue h, .isTrue hs => .isTrue (by rw [h, hs])
    | .isFalse h, _ => .isFalse (fun e => h (List.cons.inj e).1)
    | _, .isFalse hs => .isFalse (fun e => hs (List.cons.inj e).2)
  | [], _ :: _ => .isFalse nofun
  | _ :: _, [] => .isFalse nofun
termination_by structural as => as

def Field.decEqList : (as bs : List Field) → Decidable (as = bs)
  | [], [] => .isTrue rfl
  | a :: as, b :: bs =>
    match Field.decEq a b, Field.decEqList as bs with
    | .isTrue h, .isTrue hs => .isTrue (by rw [h, hs])
    | .isFalse h, _ => .isFalse (fun e => h (List.cons.inj e).1)
    | _, .isFalse hs => .isFalse (fun e => hs (List.cons.inj e).2)
  | [], _ :: _ => .isFalse nofun
  | _ :: _, [] => .isFalse nofun
termination_by structural as => as

end

instance : DecidableEq Field := Field.decEq
instance : DecidableEq FieldSet := FieldSet.decEq

/-- The field is selected further. -/
def Field.hasSubSelection (f : Field) : Bool :=
  !f.fieldSets.isEmpty || !f.implementationFieldSets.isEmpty || f.baseFieldSet.isSome

/-! ## Whole documents -/

/-- A scalar that the schema adds to the built-in ones. -/
structure CustomScalar where
  name : String
  /-- Absent when no mapping was registered. -/
  mappedType : Option String
  description : Option String
  deprecationReason : Option String
deriving DecidableEq, Repr

/-- A query, mutation or subscription. -/
structure Operation where
  name : String
  dataField : Field
deriving DecidableEq

/-- A selection that several operations may share. -/
structure Fragment where
  name : String
  dataField : Field
deriving DecidableEq

/-- Everything that is generated from at once. -/
structure Document where
  ns : String
  customScalars : List CustomScalar
  operations : List Operation
  fragments : List Fragment
deriving DecidableEq

/-- A document that holds nothing. -/
def Document.empty (ns : String) : Document :=
  ⟨ns, [], [], []⟩

/-! ## Errors

All but the last two are found by checking a document that could be read; the last one is found by
reading it. -/

/-- What can be wrong with a document. -/
inductive DocumentError where
  | duplicateScalar (name : String)
  | scalarNameClash (first second generated : String)
  | undeclaredScalar (name : String)
  | scalarMappingMismatch (name : String) (leaf declared : Option String)
  | duplicateModelPath (path : String)
  | duplicateResponseName (model name : String)
  | emptyModelPath
  | decode (path message : String)
deriving DecidableEq, Repr

/-- The text of an error. -/
def DocumentError.message : DocumentError → String
  | .duplicateScalar name => s!"custom scalar `{name}` is declared more than once"
  | .scalarNameClash first second generated =>
    s!"custom scalars `{first}` and `{second}` both generate `{generated}`"
  | .undeclaredScalar name => s!"custom scalar `{name}` is used but not declared"
  | .scalarMappingMismatch name leaf declared =>
    let used := Text.quotedOption leaf
    let registered := Text.quotedOption declared
    s!"custom scalar `{name}` maps to `{used}` at a use site but `{registered}` in the registry"
  | .duplicateModelPath path => s!"model path `{path}` is used by more than one field set"
  | .duplicateResponseName model name =>
    s!"field set `{model}` selects response name `{name}` more than once"
  | .emptyModelPath => "model path must have at least one segment"
  | .decode path message => s!"at JSON path {path} → {message}"

end SelectionModels
