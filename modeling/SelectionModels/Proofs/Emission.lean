import Mathlib.Data.List.Basic
import SelectionModels.Proofs.Obligations

/-! # Declarations and the field sets they come from

The declarations of a tree, taken at every depth and in order, are made from the field sets that the
tree emits, one from each. So whatever is said of declarations can be said of field sets.

* `Field.preorderList_nested`: the declarations of a tree come from its emission;
* `Document.compile_eq_ok_iff`: what a document is compiled to, once it has passed the check;
* `Document.declarations_compiled`: the declarations of a document come from its emission;
* `Document.filterMap_obligations`: its emission are the field sets that it owes a path for.
-/

namespace SelectionModels

/-! ## Trees -/

/-- A declaration comes before what is nested in it. -/
theorem Declaration.preorder_eq (d : Declaration) : d.preorder = d :: preorderList d.nested := by
  cases d
  rfl

/-- The declaration of a field set in its kind. -/
def declareEmitted (e : FieldSet × Kind) : Declaration :=
  e.1.declare e.2

/-- The kind makes a difference to nothing but itself and what is nested. -/
theorem FieldSet.declare_eq_of_kind (kind kind' : Kind) (s : FieldSet) :
    s.declare kind' = { s.declare kind with
      kind := kind', nested := s.fields.flatMap (Field.nested kind') } := by
  cases s
  simp [declare, Field.nestedList_eq_flatMap]

/-- A field set and all below it are declared in the order in which they are emitted. -/
theorem preorder_eq_map_emission :
    (∀ (f : Field) (kind : Kind), Declaration.preorderList (f.nested kind) =
      (f.emission kind).map declareEmitted) ∧
    ∀ (s : FieldSet) (kind : Kind), (FieldSet.declare kind s).preorder =
      (s.emission kind).map declareEmitted := by
  apply Field.emits_induction
  · intro f hsets kind
    rw [f.nested_eq_map_emits, f.emission_eq, Declaration.preorderList_eq_flatMap,
      List.flatMap_map, List.map_flatMap]
    exact List.flatMap_congr fun e he => hsets kind e he e.2
  · intro s hfields kind
    -- what is nested comes field by field
    have hnested : Declaration.preorderList (s.fields.flatMap (Field.nested kind)) =
        s.fields.flatMap fun f => Declaration.preorderList (f.nested kind) := by
      simp only [Declaration.preorderList_eq_flatMap, List.flatMap_assoc]
    rw [Declaration.preorder_eq, FieldSet.nested_declare, hnested, s.emission_eq, List.map_cons,
      List.map_flatMap]
    congr 1
    exact List.flatMap_congr fun f hf => hfields f hf kind

/-- The declarations of a tree are made from its emission, one from each field set. -/
theorem Field.preorderList_nested (f : Field) (kind : Kind) :
    Declaration.preorderList (f.nested kind) = (f.emission kind).map declareEmitted :=
  preorder_eq_map_emission.1 f kind

@[simp] theorem typeName_declareEmitted (e : FieldSet × Kind) :
    (declareEmitted e).typeName = e.1.path.typeName :=
  FieldSet.typeName_declare e.2 e.1

@[simp] theorem kind_declareEmitted (e : FieldSet × Kind) : (declareEmitted e).kind = e.2 :=
  FieldSet.kind_declare e.2 e.1

/-- A model's name tells its path. -/
theorem ModelPath.typeName_injective : Function.Injective ModelPath.typeName := by
  rintro ⟨ns, root, descendants⟩ ⟨ns', root', descendants'⟩ h
  simpa [typeName, elements] using h

/-! ## Documents -/

theorem Document.mem_trees_of_operation {d : Document} {o : Operation} (ho : o ∈ d.operations) :
    (o.dataField, Kind.implementation) ∈ d.trees :=
  List.mem_append_left _ (List.mem_map.mpr ⟨o, ho, rfl⟩)

theorem Document.mem_trees_of_fragment {d : Document} {f : Fragment} (hf : f ∈ d.fragments)
    (kind : Kind) : (f.dataField, kind) ∈ d.trees :=
  List.mem_append_right _ (List.mem_flatMap.mpr ⟨f, hf, by cases kind <;> simp⟩)

/-- The field sets that a document emits, tree by tree. -/
def Document.emission (d : Document) : List (FieldSet × Kind) :=
  d.trees.flatMap fun t => t.1.emission t.2

/-- What a document is compiled to if nothing is wrong with it. -/
def Document.compiled (d : Document) : CompiledDocument where
  ns := d.ns
  operations := d.operations.map Operation.compile
  fragments := d.fragments.map Fragment.compile
  registry := Registry.build d.ns d.customScalars

/-- The scalars are checked first. -/
theorem Document.checkScalars_of_check {d : Document} (h : d.check = .ok ()) :
    checkScalars d.customScalars = .ok () := by
  unfold Document.check at h
  cases hscalars : checkScalars d.customScalars with
  | ok u => rfl
  | error e => simp [hscalars, bind, Except.bind] at h

/-- A document is compiled if it is accepted, and then nothing can fail. -/
theorem Document.compile_eq_ok_iff {d : Document} {c : CompiledDocument} :
    d.compile = .ok c ↔ d.check = .ok () ∧ c = d.compiled := by
  unfold Document.compile
  cases hcheck : d.check with
  | error e => simp [bind, Except.bind]
  | ok u =>
    -- the registry asks for the same scalars to pass once more
    have hscalars := d.checkScalars_of_check hcheck
    simp [bind, Except.bind, Registry.ofScalars, hscalars, pure, Except.pure, compiled, eq_comm]

theorem Document.trees_compiled (d : Document) :
    d.compiled.trees = d.trees.flatMap fun t => t.1.nested t.2 := by
  simp [CompiledDocument.trees, compiled, Document.trees, Operation.compile, Fragment.compile,
    List.flatMap_map, List.flatMap_assoc]

/-- The declarations of a document are made from its emission, in order. -/
theorem Document.declarations_compiled (d : Document) :
    d.compiled.declarations = d.emission.map declareEmitted := by
  simp [CompiledDocument.declarations, d.trees_compiled, emission, List.map_flatMap,
    Declaration.preorderList_eq_flatMap, List.flatMap_assoc, ← Field.preorderList_nested]

/-- The field sets emitted are those that the document owes a path for. -/
theorem filterMap_numbered (next : Nat) (owed : List (List Obligation)) :
    (numbered next owed).filterMap (·.2.emitted?) =
      owed.flatMap (List.filterMap Obligation.emitted?) := by
  induction owed generalizing next with
  | nil => rfl
  | cons os owed ih => simp [ih, List.filterMap_map]

/-- A path is owed for each field set that is emitted. -/
theorem Document.filterMap_obligations (d : Document) :
    d.obligations.filterMap (·.2.emitted?) = d.emission := by
  rw [obligations, filterMap_numbered, owed_eq_map, List.flatMap_map]
  rfl

end SelectionModels
