import SelectionModels.Name

/-! # Types

Where a model lives, a type as it occurs at a property, and the type of a field, from which the
occurrence is resolved.

* `ModelPath.ofElements?_eq_some_iff`: a path is exactly a namespace and a non-empty chain;
* `ModelPath.typeName`, `ModelPath.adapterTypeName`: the model's own name and that of its adapter,
  which differ in the namespace and the root only;
* `TypeRef.resolve`: the type as it occurs, with every layer applied from the inside out;
* `TypeRef.resolveRaw`: the leaf alone, never absent;
* `TypeRef.ofWraps_wraps`: a reference is its leaf together with its layers.
-/

namespace SelectionModels

/-! ## Model paths

A namespace and the chain of enclosing declarations, of which the first is the root of the operation
or fragment and the last is the model itself. The chain is never empty, and a path is built so that
it cannot be. -/

structure ModelPath where
  ns : String
  root : String
  descendants : List String
deriving DecidableEq, Repr

namespace ModelPath

/-- The whole chain, root first. -/
def elements (p : ModelPath) : List String :=
  p.root :: p.descendants

/-- The path with the given chain, unless the chain is empty. -/
def ofElements? (ns : String) : List String → Option ModelPath
  | [] => none
  | root :: descendants => some ⟨ns, root, descendants⟩

@[simp] theorem ofElements?_elements (p : ModelPath) : ofElements? p.ns p.elements = some p := rfl

theorem ofElements?_eq_some_iff {ns : String} {names : List String} {p : ModelPath} :
    ofElements? ns names = some p ↔ p.ns = ns ∧ p.elements = names := by
  cases names <;> cases p <;> simp [ofElements?, elements, eq_comm]

/-- The name of the model at a path. -/
def typeName (p : ModelPath) : QualifiedName :=
  ⟨p.ns, p.elements⟩

/-- The name of the model's adapter. Only the root is renamed: adapters nest as their models do, and
the root adapter must not clash with the root model. -/
def adapterTypeName (p : ModelPath) : QualifiedName :=
  ⟨Name.adapterNamespace p.ns, Name.responseAdapter p.root :: p.descendants⟩

/-- The dotted text of a path. -/
def display (p : ModelPath) : String :=
  p.typeName.display

end ModelPath

/-! ## Type occurrences

A named type or a list, where each layer says for itself whether it may be absent. It is displayed
as `List<…>` with a question mark after every nullable layer. -/

inductive TypeName where
  | named (name : QualifiedName) (nullable : Bool)
  | list (element : TypeName) (nullable : Bool)
deriving DecidableEq, Repr

namespace TypeName

/-- A named type that is always there. -/
def ofName (name : QualifiedName) : TypeName :=
  .named name false

/-- A list that is always there. -/
def listOf (element : TypeName) : TypeName :=
  .list element false

/-- The outermost layer may be absent. -/
def isNullable : TypeName → Bool
  | .named _ nullable => nullable
  | .list _ nullable => nullable

/-- The same type with the outermost layer's nullability replaced. -/
def withNullable (nullable : Bool) : TypeName → TypeName
  | .named name _ => .named name nullable
  | .list element _ => .list element nullable

@[simp] theorem isNullable_withNullable (b : Bool) (t : TypeName) :
    (t.withNullable b).isNullable = b := by cases t <;> rfl

@[simp] theorem withNullable_withNullable (b b' : Bool) (t : TypeName) :
    (t.withNullable b).withNullable b' = t.withNullable b' := by cases t <;> rfl

/-- The mark of a layer. -/
def nullableMark (nullable : Bool) : String :=
  if nullable then "?" else ""

/-- The text of a type occurrence. -/
def display : TypeName → String
  | .named name nullable => name.display ++ nullableMark nullable
  | .list element nullable => "List<" ++ display element ++ ">" ++ nullableMark nullable

end TypeName

/-! ## Type references

A leaf under any number of wrapping layers. An unwrapped leaf is never absent, and the order of the
layers counts: a nullable list is not a list of nullables. -/

/-- What a type reference comes down to. -/
inductive Leaf where
  | string
  | int
  | float
  | boolean
  | id
  | enum (ns name : String)
  | customScalar (name : String) (mappedType : Option String)
  | model (path : ModelPath)
deriving DecidableEq, Repr

/-- The name of a leaf, wherever it occurs. -/
def Leaf.typeName : Leaf → QualifiedName
  | .string => .prelude "String"
  | .int => .prelude "Int"
  | .float => .prelude "Float"
  | .boolean => .prelude "Boolean"
  | .id => .prelude "ID"
  | .enum ns name => ⟨Name.enumNamespace ns, [Name.capitalize name]⟩
  | .customScalar _ (some mapped) => .ofDotted mapped
  | .customScalar _ none => .prelude Name.unmappedScalarType
  | .model path => path.typeName

inductive TypeRef where
  | named (leaf : Leaf)
  | nullable (inner : TypeRef)
  | list (inner : TypeRef)
deriving DecidableEq, Repr

/-- A wrapping layer. -/
inductive Wrap where
  | nullable
  | list
deriving DecidableEq, Repr

namespace TypeRef

/-- The leaf under all layers. -/
def leaf : TypeRef → Leaf
  | .named leaf => leaf
  | .nullable inner => inner.leaf
  | .list inner => inner.leaf

/-- One more layer around a reference. -/
def wrap (t : TypeRef) : Wrap → TypeRef
  | .nullable => .nullable t
  | .list => .list t

/-- The layers, innermost first. -/
def wraps : TypeRef → List Wrap
  | .named _ => []
  | .nullable inner => inner.wraps ++ [.nullable]
  | .list inner => inner.wraps ++ [.list]

/-- A leaf under the given layers, innermost first. -/
def ofWraps (leaf : Leaf) (layers : List Wrap) : TypeRef :=
  layers.foldl wrap (.named leaf)

theorem ofWraps_append_singleton (leaf : Leaf) (layers : List Wrap) (w : Wrap) :
    ofWraps leaf (layers ++ [w]) = (ofWraps leaf layers).wrap w := by
  simp [ofWraps]

@[simp] theorem ofWraps_wraps (t : TypeRef) : ofWraps t.leaf t.wraps = t := by
  induction t with
  | named leaf => rfl
  | nullable inner ih => rw [leaf, wraps, ofWraps_append_singleton, ih]; rfl
  | list inner ih => rw [leaf, wraps, ofWraps_append_singleton, ih]; rfl

/-- The type as it occurs. -/
def resolve : TypeRef → TypeName
  | .named leaf => .ofName leaf.typeName
  | .list inner => .listOf (resolve inner)
  | .nullable inner => (resolve inner).withNullable true

/-- The leaf's type, never absent. -/
def resolveRaw (t : TypeRef) : TypeName :=
  .ofName t.leaf.typeName

@[simp] theorem isNullable_resolveRaw (t : TypeRef) : t.resolveRaw.isNullable = false := rfl

end TypeRef

end SelectionModels
