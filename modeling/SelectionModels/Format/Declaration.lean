import SelectionModels.CompiledDocument
import SelectionModels.Json.Value

/-! # The JSON form of declarations

What is generated is written as JSON. Docs leave out what is absent, and a mapped constant has no
note; everything else is always written.
-/

namespace SelectionModels

open Json

/-- The namespace and the simple names apart. -/
def QualifiedName.toJson (q : QualifiedName) : Value :=
  .object [("namespace", .string q.ns), ("simple_names", .strings q.simpleNames)]

/-- One object for each layer, the outermost first. -/
def TypeName.toJson : TypeName → Value
  | .named name nullable =>
    .object [("kind", .string "class"), ("name", name.toJson), ("nullable", .bool nullable)]
  | .list element nullable =>
    .object [("kind", .string "list"), ("element", toJson element), ("nullable", .bool nullable)]

/-- A member that is left out when there is nothing to say. -/
def optionalMember (key : String) (s : Option String) : List (String × Value) :=
  s.toList.map fun text => (key, .string text)

/-- What is absent is left out. -/
def Docs.toJson (d : Docs) : Value :=
  .object (optionalMember "description" d.description ++
    optionalMember "deprecation_reason" d.deprecationReason)

/-- A property with its type and its raw type. -/
def Property.toJson (p : Property) : Value :=
  .object [
    ("name", .string p.name),
    ("type", p.type.toJson),
    ("raw_type", p.rawType.toJson),
    ("override", .bool p.isOverride),
    ("docs", p.docs.toJson)]

def Kind.toJson : Kind → Value
  | .interface => .string "interface"
  | .implementation => .string "implementation"

mutual

/-- A declaration with all that is nested in it. -/
def Declaration.toJson : Declaration → Value
  | .mk kind name typeName adapterTypeName properties superTypes nested => .object [
    ("kind", kind.toJson),
    ("name", .string name),
    ("type_name", typeName.toJson),
    ("adapter_type_name", adapterTypeName.toJson),
    ("properties", .array (properties.map Property.toJson)),
    ("super_types", .array (superTypes.map QualifiedName.toJson)),
    ("nested", .array (Declaration.listToJson nested))]
termination_by structural d => d

def Declaration.listToJson : List Declaration → List Value
  | [] => []
  | d :: rest => Declaration.toJson d :: Declaration.listToJson rest
termination_by structural ds => ds

end

theorem Declaration.listToJson_eq_map (ds : List Declaration) :
    Declaration.listToJson ds = ds.map Declaration.toJson := by
  induction ds with
  | nil => rfl
  | cons d rest ih => simp [Declaration.listToJson, ih]

/-! ## The registry -/

def ScalarMapping.toJson (m : ScalarMapping) : Value :=
  .object [("graphql_name", .string m.graphqlName), ("mapped_type", .optional m.mappedType)]

/-- A constant, with a note if its scalar has no mapping. -/
def ScalarConstant.toJson (c : ScalarConstant) : Value :=
  .object ([
    ("name", .string c.name),
    ("type_name", c.typeName.toJson),
    ("value", c.value.toJson),
    ("docs", c.docs.toJson)] ++ optionalMember "unmapped_note" c.unmappedNote)

/-- The holder of the constants and the constants. -/
def Registry.toJson (r : Registry) : Value :=
  .object [
    ("name", .string r.name),
    ("type_name", r.typeName.toJson),
    ("doc", .string r.doc),
    ("constants", .array (r.constants.map ScalarConstant.toJson))]

/-! ## Documents -/

def CompiledOperation.toJson (o : CompiledOperation) : Value :=
  .object [
    ("name", .string o.name),
    ("declarations", .array (o.declarations.map Declaration.toJson))]

/-- A fragment with its two views. -/
def CompiledFragment.toJson (f : CompiledFragment) : Value :=
  .object [
    ("name", .string f.name),
    ("interfaces", .array (f.interfaces.map Declaration.toJson)),
    ("implementations", .array (f.implementations.map Declaration.toJson))]

/-- All that a document is compiled to. -/
def CompiledDocument.toJson (c : CompiledDocument) : Value :=
  .object [
    ("namespace", .string c.ns),
    ("operations", .array (c.operations.map CompiledOperation.toJson)),
    ("fragments", .array (c.fragments.map CompiledFragment.toJson)),
    ("registry", c.registry.toJson)]

end SelectionModels
