import SelectionModels.Generated
import SelectionModels.Registry

/-! # Compiled documents

What a whole document is turned into: the declarations of every operation, both views of every
fragment, and the registry of the custom scalars. A document is checked first; after that nothing
can fail.

* `visitEmitted`: the field sets a field emits, visited in order;
* `visitField_eq`, `visitFieldSet_eq`: what a visit does, step by step;
* `Document.check`, `Document.compile`: the check, and the whole compilation.
-/

namespace SelectionModels

/-! ## Checking documents

Generation takes for granted that scalar names differ, that every use of a custom scalar agrees with
the registry, that a tree declares no path twice, that a path means the same field set in every
tree, and that a field set selects no response name twice. A document is checked by walking its
trees just as they are generated: an operation is one tree, a fragment two, its interface and its
implementation view. A visit keeps the claims it has made even when it fails. -/

/-! ### Claims -/

/-- What the walk remembers: for every path met so far its field set, in the order of claiming, and
the paths that the current tree has declared. -/
structure Claims where
  claimed : List (ModelPath × FieldSet)
  emitted : List ModelPath

namespace Claims

/-- Nothing is claimed yet. -/
def empty : Claims := ⟨[], []⟩

/-- The field set that claims a path. -/
def claim? (c : Claims) (path : ModelPath) : Option FieldSet :=
  c.claimed.lookup path

/-- How many paths are claimed. -/
def count (c : Claims) : Nat :=
  c.claimed.length

/-- The path now belongs to the field set. -/
def add (c : Claims) (path : ModelPath) (s : FieldSet) : Claims :=
  { c with claimed := c.claimed ++ [(path, s)] }

/-- The current tree declares the path. -/
def emit (c : Claims) (path : ModelPath) : Claims :=
  { c with emitted := c.emitted ++ [path] }

/-- A new tree begins, which has declared nothing. -/
def newTree (c : Claims) : Claims :=
  { c with emitted := [] }

end Claims

/-- A step of the walk. The claims survive a failure. -/
abbrev Visit := EStateM DocumentError Claims Unit

/-! ### The single checks -/

/-- The mapping that is in force for a scalar: of several declarations of a name, the last one. -/
def declaredMapping? (scalars : List CustomScalar) (name : String) : Option (Option String) :=
  (scalars.reverse.find? (·.name = name)).map (·.mappedType)

/-- The registry has the say on every custom scalar; a use has to agree with it. -/
def checkLeaf (scalars : List CustomScalar) : Leaf → Except DocumentError Unit
  | .customScalar name mappedType =>
    match declaredMapping? scalars name with
    | none => .error (.undeclaredScalar name)
    | some declared =>
      if declared = mappedType then .ok ()
      else .error (.scalarMappingMismatch name mappedType declared)
  | _ => .ok ()

/-- The first name that repeats one before it. -/
def firstRepeated? (seen : List String) : List String → Option String
  | [] => none
  | name :: rest => if name ∈ seen then some name else firstRepeated? (name :: seen) rest

/-- A field set selects every response name once. -/
def checkResponseNames (s : FieldSet) : Except DocumentError Unit :=
  match firstRepeated? [] (s.fields.map (·.responseName)) with
  | some name => .error (.duplicateResponseName s.modelName name)
  | none => .ok ()

/-- The path is free, or already belongs to an equal field set, and is new to the current tree. -/
def claimPath (s : FieldSet) : Visit := do
  let duplicate := DocumentError.duplicateModelPath s.path.display
  let c ← get
  match c.claim? s.path with
  | some previous => unless previous = s do throw duplicate
  | none => set (c.add s.path s)
  let c ← get
  if s.path ∈ c.emitted then throw duplicate
  set (c.emit s.path)

/-- A check that looks at no claims. -/
def Visit.ofCheck : Except DocumentError Unit → Visit
  | .ok () => pure ()
  | .error e => throw e

/-! ### The walk -/

mutual

/-- A field: its leaf, then the field sets it emits. -/
def visitField (scalars : List CustomScalar) (kind : Kind) : Field → Visit
  | .mk _ type _ _ _ fieldSets implementationFieldSets baseFieldSet => do
    Visit.ofCheck (checkLeaf scalars type.leaf)
    match kind with
    | .interface => visitFieldSetOption scalars .interface baseFieldSet
    | .implementation =>
      visitFieldSetList scalars .interface fieldSets
      visitFieldSetList scalars .implementation implementationFieldSets
termination_by structural f => f

/-- A field set: its path, its response names, then its fields. -/
def visitFieldSet (scalars : List CustomScalar) (kind : Kind) : FieldSet → Visit
  | .mk modelName path fields implements => do
    claimPath ⟨modelName, path, fields, implements⟩
    Visit.ofCheck (checkResponseNames ⟨modelName, path, fields, implements⟩)
    visitFieldList scalars kind fields
termination_by structural s => s

def visitFieldSetOption (scalars : List CustomScalar) (kind : Kind) : Option FieldSet → Visit
  | none => pure ()
  | some s => visitFieldSet scalars kind s
termination_by structural s => s

def visitFieldSetList (scalars : List CustomScalar) (kind : Kind) : List FieldSet → Visit
  | [] => pure ()
  | s :: rest => do
    visitFieldSet scalars kind s
    visitFieldSetList scalars kind rest
termination_by structural sets => sets

def visitFieldList (scalars : List CustomScalar) (kind : Kind) : List Field → Visit
  | [] => pure ()
  | f :: rest => do
    visitField scalars kind f
    visitFieldList scalars kind rest
termination_by structural fields => fields

end

/-- One tree, from its data field. -/
def visitTree (scalars : List CustomScalar) (kind : Kind) (dataField : Field) : Visit := do
  modify Claims.newTree
  visitField scalars kind dataField

/-! ### Documents -/

/-- The trees of a document, in the order in which they are generated. -/
def Document.trees (d : Document) : List (Field × Kind) :=
  d.operations.map (fun o => (o.dataField, .implementation)) ++
    d.fragments.flatMap (fun f => [(f.dataField, .interface), (f.dataField, .implementation)])

/-- The trees one after the other, over one set of claims. -/
def visitTrees (scalars : List CustomScalar) : List (Field × Kind) → Visit
  | [] => pure ()
  | (dataField, kind) :: rest => do
    visitTree scalars kind dataField
    visitTrees scalars rest

/-- The first thing that is wrong with a document. -/
def Document.check (d : Document) : Except DocumentError Unit := do
  checkScalars d.customScalars
  match (visitTrees d.customScalars d.trees).run .empty with
  | .ok () _ => .ok ()
  | .error e _ => .error e

/-! ### The walk, step by step -/

/-- The field sets that a field emits, visited in order. -/
def visitEmitted (scalars : List CustomScalar) : List (FieldSet × Kind) → Visit
  | [] => pure ()
  | (s, kind) :: rest => do
    visitFieldSet scalars kind s
    visitEmitted scalars rest

theorem visitFieldSetList_eq (scalars : List CustomScalar) (kind : Kind) (sets : List FieldSet) :
    visitFieldSetList scalars kind sets = visitEmitted scalars (sets.map (·, kind)) := by
  induction sets with
  | nil => rfl
  | cons s rest ih => simp [visitFieldSetList, visitEmitted, ih]

theorem visitFieldSetOption_eq (scalars : List CustomScalar) (kind : Kind) (s : Option FieldSet) :
    visitFieldSetOption scalars kind s = visitEmitted scalars (s.toList.map (·, kind)) := by
  cases s <;> simp [visitFieldSetOption, visitEmitted]

theorem visitEmitted_append (scalars : List CustomScalar) (xs ys : List (FieldSet × Kind)) :
    visitEmitted scalars (xs ++ ys) = (do visitEmitted scalars xs; visitEmitted scalars ys) := by
  induction xs with
  | nil => simp [visitEmitted]
  | cons x xs ih => simp [visitEmitted, ih]

theorem visitField_eq (scalars : List CustomScalar) (kind : Kind) (f : Field) :
    visitField scalars kind f = (do
      Visit.ofCheck (checkLeaf scalars f.type.leaf)
      visitEmitted scalars (f.emits kind)) := by
  cases f
  cases kind <;>
    simp [visitField, Field.emits, visitEmitted_append, visitFieldSetList_eq,
      visitFieldSetOption_eq]

theorem visitFieldSet_eq (scalars : List CustomScalar) (kind : Kind) (s : FieldSet) :
    visitFieldSet scalars kind s = (do
      claimPath s
      Visit.ofCheck (checkResponseNames s)
      visitFieldList scalars kind s.fields) := by
  cases s; rfl

/-! ## Compiling -/

structure CompiledOperation where
  name : String
  declarations : List Declaration

structure CompiledFragment where
  name : String
  interfaces : List Declaration
  implementations : List Declaration

structure CompiledDocument where
  ns : String
  operations : List CompiledOperation
  fragments : List CompiledFragment
  registry : Registry

/-- An operation's models are implementations. -/
def Operation.compile (o : Operation) : CompiledOperation where
  name := o.name
  declarations := o.dataField.nested .implementation

/-- A fragment has both views. -/
def Fragment.compile (f : Fragment) : CompiledFragment where
  name := f.name
  interfaces := f.dataField.nested .interface
  implementations := f.dataField.nested .implementation

/-- The compiled document, or what is wrong with it. -/
def Document.compile (d : Document) : Except DocumentError CompiledDocument := do
  d.check
  let registry ← Registry.ofScalars d.ns d.customScalars
  return {
    ns := d.ns
    operations := d.operations.map Operation.compile
    fragments := d.fragments.map Fragment.compile
    registry }

namespace CompiledDocument

/-- The trees of declarations, operations first. -/
def trees (c : CompiledDocument) : List Declaration :=
  c.operations.flatMap (·.declarations) ++
    c.fragments.flatMap fun f => f.interfaces ++ f.implementations

/-- Every declaration, at any depth of any tree. -/
def declarations (c : CompiledDocument) : List Declaration :=
  Declaration.preorderList c.trees

/-- How many declarations the document has. -/
def declarationCount (c : CompiledDocument) : Nat :=
  Declaration.countList c.trees

theorem declarationCount_eq_length (c : CompiledDocument) :
    c.declarationCount = c.declarations.length :=
  Declaration.countList_eq_length_preorderList c.trees

end CompiledDocument

end SelectionModels
