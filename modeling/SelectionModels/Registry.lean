import SelectionModels.Declaration
import SelectionModels.Document

/-! # The registry of custom scalars

Every custom scalar of a schema becomes one constant, in the order of the scalars. A constant is
named after its scalar and carries the name of the scalar's holder type, so the scalars must have
different names as written, as constants and as holders.

* `checkScalars`: the first scalar that repeats a name of an earlier one is an error;
* `Registry.build`: one constant per scalar (`length_constants_build`), unmapped scalars included;
* `isUnmapped_constant`: a constant is marked exactly when its scalar has no mapping.
-/

namespace SelectionModels

/-! ## Generated names -/

/-- The name of the scalar's constant. -/
def CustomScalar.constantName (s : CustomScalar) : String :=
  Name.identifier s.name

/-- The simple name of the scalar's holder type. -/
def CustomScalar.holderName (s : CustomScalar) : String :=
  Name.capitalize s.constantName

/-- The scalar's holder type. -/
def CustomScalar.holder (ns : String) (s : CustomScalar) : QualifiedName :=
  ⟨ns, [Name.scalarsHolder, s.holderName]⟩

/-- The names that a scalar takes. -/
structure ScalarNames where
  name : String
  constant : String
  holder : String
deriving DecidableEq, Repr

def CustomScalar.names (s : CustomScalar) : ScalarNames :=
  ⟨s.name, s.constantName, s.holderName⟩

/-! ## Checking -/

/-- The names of a scalar beside those before it: its own name is looked at first, then its
constant, then its holder. -/
def checkNames (earlier : List ScalarNames) (s : ScalarNames) : Except DocumentError Unit :=
  if earlier.any (·.name = s.name) then
    .error (.duplicateScalar s.name)
  else if let some first := earlier.find? (·.constant = s.constant) then
    .error (.scalarNameClash first.name s.name s.constant)
  else if let some first := earlier.find? (·.holder = s.holder) then
    .error (.scalarNameClash first.name s.name s.holder)
  else
    .ok ()

/-- The names of scalars in turn, `earlier` being those already seen, the latest first. -/
def checkNamesAfter (earlier : List ScalarNames) : List ScalarNames → Except DocumentError Unit
  | [] => .ok ()
  | s :: rest => do
    checkNames earlier s
    checkNamesAfter (s :: earlier) rest

/-- All names that the registry will declare are different. -/
def checkScalars (scalars : List CustomScalar) : Except DocumentError Unit :=
  checkNamesAfter [] (scalars.map (·.names))

/-! ## Building -/

/-- What (de)serializers are keyed on. -/
structure ScalarMapping where
  graphqlName : String
  mappedType : Option String
deriving DecidableEq, Repr

structure ScalarConstant where
  name : String
  /-- The holder type that the constant stands for. -/
  typeName : QualifiedName
  value : ScalarMapping
  docs : Docs
  unmappedNote : Option String
deriving DecidableEq, Repr

/-- The constant is marked as one without a mapping. -/
def ScalarConstant.isUnmapped (c : ScalarConstant) : Bool :=
  c.unmappedNote.isSome

structure Registry where
  name : String
  typeName : QualifiedName
  doc : String
  constants : List ScalarConstant
deriving DecidableEq, Repr

namespace Registry

def docText : String :=
  "Auto generated constants for custom scalars. Use them to register your response adapters."

def unmappedNoteText : String :=
  "No mapping was registered for this custom scalar. " ++
    "Add one to the custom scalar mapping option."

/-- The constant of one scalar. -/
def constant (ns : String) (s : CustomScalar) : ScalarConstant where
  name := s.constantName
  typeName := s.holder ns
  value := ⟨s.name, s.mappedType⟩
  docs := ⟨s.description, s.deprecationReason⟩
  unmappedNote := if s.mappedType.isNone then some unmappedNoteText else none

/-- The registry of scalars whose names are known to differ. -/
def build (ns : String) (scalars : List CustomScalar) : Registry where
  name := Name.registryName
  typeName := ⟨ns, [Name.registryName]⟩
  doc := docText
  constants := scalars.map (constant ns)

/-- The registry of a schema's scalars, if their names differ. -/
def ofScalars (ns : String) (scalars : List CustomScalar) : Except DocumentError Registry := do
  checkScalars scalars
  return build ns scalars

@[simp] theorem length_constants_build (ns : String) (scalars : List CustomScalar) :
    (build ns scalars).constants.length = scalars.length := by
  simp [build]

theorem isUnmapped_constant (ns : String) (s : CustomScalar) :
    (constant ns s).isUnmapped = s.mappedType.isNone := by
  cases h : s.mappedType <;> simp [constant, ScalarConstant.isUnmapped, h]

end Registry

end SelectionModels
