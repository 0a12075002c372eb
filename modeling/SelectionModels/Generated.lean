import SelectionModels.Declaration
import SelectionModels.Document

/-! # Declarations generated from selections

Every field set becomes one declaration, with one property per field and the declarations of its
fields' own field sets nested inside. Which field sets of a field are followed depends on the kind
of the enclosing declaration: an interface follows only the common shape, an implementation first
every shared shape, as an interface, and then every concrete one.

* `Field.emits`: the field sets that a field contributes, each with its kind;
* `Field.nested_eq_map_emits`, `FieldSet.nested_declare`: the nested declarations are these, in
  this order, over all fields.
-/

namespace SelectionModels

/-- The property that a field contributes. -/
def Field.property (f : Field) : Property where
  name := f.responseName
  type := f.type.resolve
  rawType := f.type.resolveRaw
  isOverride := f.isOverride
  docs := ⟨f.description, f.deprecationReason⟩

mutual

/-- The declaration of a field set. Both kinds have the same properties and supertypes. -/
def FieldSet.declare (kind : Kind) : FieldSet → Declaration
  | .mk modelName path fields implements => {
      kind
      name := modelName
      typeName := path.typeName
      adapterTypeName := path.adapterTypeName
      properties := fields.map Field.property
      superTypes := implements.map ModelPath.typeName
      nested := Field.nestedList kind fields }
termination_by structural s => s

/-- The declarations that a field contributes to an enclosing declaration. -/
def Field.nested (kind : Kind) : Field → List Declaration
  | .mk _ _ _ _ _ fieldSets implementationFieldSets baseFieldSet =>
    match kind with
    | .interface => FieldSet.declareOption .interface baseFieldSet
    | .implementation =>
      FieldSet.declareList .interface fieldSets ++
        FieldSet.declareList .implementation implementationFieldSets
termination_by structural f => f

/-- The declaration of a field set that may be missing. -/
def FieldSet.declareOption (kind : Kind) : Option FieldSet → List Declaration
  | none => []
  | some s => [FieldSet.declare kind s]
termination_by structural s => s

/-- The declarations of field sets, in their order. -/
def FieldSet.declareList (kind : Kind) : List FieldSet → List Declaration
  | [] => []
  | s :: rest => FieldSet.declare kind s :: FieldSet.declareList kind rest
termination_by structural sets => sets

/-- The declarations that fields contribute, in their order. -/
def Field.nestedList (kind : Kind) : List Field → List Declaration
  | [] => []
  | f :: rest => Field.nested kind f ++ Field.nestedList kind rest
termination_by structural fields => fields

end

/-! ## What a field emits -/

/-- The field sets that a field contributes, each with the kind of its declaration. -/
def Field.emits (kind : Kind) (f : Field) : List (FieldSet × Kind) :=
  match kind with
  | .interface => f.baseFieldSet.toList.map (·, .interface)
  | .implementation =>
    f.fieldSets.map (·, .interface) ++ f.implementationFieldSets.map (·, .implementation)

theorem FieldSet.declareList_eq_map (kind : Kind) (sets : List FieldSet) :
    declareList kind sets = sets.map (declare kind) := by
  induction sets with
  | nil => rfl
  | cons s rest ih => simp [declareList, ih]

theorem FieldSet.declareOption_eq_map (kind : Kind) (s : Option FieldSet) :
    declareOption kind s = s.toList.map (declare kind) := by
  cases s <;> rfl

theorem Field.nestedList_eq_flatMap (kind : Kind) (fields : List Field) :
    nestedList kind fields = fields.flatMap (nested kind) := by
  induction fields with
  | nil => rfl
  | cons f rest ih => simp [nestedList, ih]

/-- A field contributes one declaration for each field set that it emits, in that order. -/
theorem Field.nested_eq_map_emits (kind : Kind) (f : Field) :
    f.nested kind = (f.emits kind).map fun (s, k) => s.declare k := by
  cases f
  cases kind <;>
    simp [nested, emits, FieldSet.declareOption_eq_map, FieldSet.declareList_eq_map,
      Function.comp_def]

/-- What is nested in a declaration comes from its fields, in their order. -/
@[simp] theorem FieldSet.nested_declare (kind : Kind) (s : FieldSet) :
    (s.declare kind).nested = s.fields.flatMap (Field.nested kind) := by
  cases s; simp [declare, Field.nestedList_eq_flatMap]

@[simp] theorem FieldSet.kind_declare (kind : Kind) (s : FieldSet) :
    (s.declare kind).kind = kind := by
  cases s; rfl

@[simp] theorem FieldSet.typeName_declare (kind : Kind) (s : FieldSet) :
    (s.declare kind).typeName = s.path.typeName := by
  cases s; rfl

@[simp] theorem FieldSet.properties_declare (kind : Kind) (s : FieldSet) :
    (s.declare kind).properties = s.fields.map Field.property := by
  cases s; rfl

end SelectionModels
