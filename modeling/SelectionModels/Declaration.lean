import SelectionModels.TypeRef

/-! # Declarations

What is generated: a tree of type declarations, in which every name and type is resolved. A
declaration is an interface, which has property signatures only, or an implementation, a value
holder with one constructor parameter per property.

* `count_eq_length_preorder`: `preorder` lists a declaration and all that is nested below it, and
  `count` counts just these.
-/

namespace SelectionModels

/-- The two kinds of declaration, which are also the two ways to view a selection. -/
inductive Kind where
  | interface
  | implementation
deriving DecidableEq, Repr

/-- The documentation that goes with a declared name. -/
structure Docs where
  description : Option String
  deprecationReason : Option String
deriving DecidableEq, Repr

structure Property where
  name : String
  type : TypeName
  /-- The leaf's type, by which adapters are looked up. -/
  rawType : TypeName
  isOverride : Bool
  docs : Docs
deriving DecidableEq, Repr

structure Declaration where
  kind : Kind
  name : String
  typeName : QualifiedName
  adapterTypeName : QualifiedName
  properties : List Property
  superTypes : List QualifiedName
  nested : List Declaration
deriving Repr

namespace Declaration

def isInterface (d : Declaration) : Bool :=
  d.kind = .interface

/-- An interface is never constructed. -/
def constructorParameters (d : Declaration) : List Property :=
  match d.kind with
  | .interface => []
  | .implementation => d.properties

/-- The first property of the given name. -/
def property? (d : Declaration) (name : String) : Option Property :=
  d.properties.find? (·.name = name)

/-! ## The whole tree -/

mutual

/-- The declaration and everything nested below it, each before what it encloses. -/
def preorder : Declaration → List Declaration
  | .mk kind name type adapter properties supers nested =>
    .mk kind name type adapter properties supers nested :: preorderList nested
termination_by structural d => d

/-- The trees of a list, one after the other. -/
def preorderList : List Declaration → List Declaration
  | [] => []
  | d :: ds => preorder d ++ preorderList ds
termination_by structural ds => ds

end

mutual

/-- How many declarations the tree holds. -/
def count : Declaration → Nat
  | .mk _ _ _ _ _ _ nested => 1 + countList nested
termination_by structural d => d

/-- How many declarations the trees of a list hold. -/
def countList : List Declaration → Nat
  | [] => 0
  | d :: ds => count d + countList ds
termination_by structural ds => ds

end

mutual

theorem count_eq_length_preorder : (d : Declaration) → d.count = d.preorder.length
  | .mk _ _ _ _ _ _ nested => by
    simp [count, preorder, countList_eq_length_preorderList nested, Nat.add_comm]

theorem countList_eq_length_preorderList :
    (ds : List Declaration) → countList ds = (preorderList ds).length
  | [] => rfl
  | d :: ds => by
    simp [countList, preorderList, count_eq_length_preorder d, countList_eq_length_preorderList ds]

end

theorem preorderList_eq_flatMap (ds : List Declaration) :
    preorderList ds = ds.flatMap preorder := by
  induction ds with
  | nil => rfl
  | cons d ds ih => simp [preorderList, ih]

end Declaration

end SelectionModels
