import SelectionModels.Proofs.Acceptance

/-! # Interfaces and implementations in one tree

The kind of a declaration changes on the way down a tree, but only from implementation to interface:
an interface is made of what all variants share, and so is everything inside it. So whatever
encloses an implementation is an implementation.

* `kind_of_mem_emission`: what an interface emits are interfaces;
* `Field.contributes_nested`, `FieldSet.forall₂_nested_interface`: what is nested directly, field by
  field;
* `FieldSet.views_declare`: what holds of the declaration of every field set;
* `interfaces_enclose_interfaces`: the same of every declaration of a tree.
-/

namespace SelectionModels

/-! ## What is nested directly -/

/-- The declaration is that of the field set, in the given kind. -/
def FieldSet.DeclaredAs (kind : Kind) (s : FieldSet) (d : Declaration) : Prop :=
  d.kind = kind ∧ d = s.declare kind

theorem FieldSet.declaredAs_declare (kind : Kind) (s : FieldSet) :
    s.DeclaredAs kind (s.declare kind) :=
  ⟨s.kind_declare kind, rfl⟩

/-- The declarations that a field contributes to an implementation are an interface for every shared
shape, and after them an implementation for every concrete one. -/
def Field.Contributes (f : Field) (ds : List Declaration) : Prop :=
  ∃ shared concrete, ds = shared ++ concrete ∧
    List.Forall₂ (FieldSet.DeclaredAs .interface) f.fieldSets shared ∧
    List.Forall₂ (FieldSet.DeclaredAs .implementation) f.implementationFieldSets concrete

theorem FieldSet.forall₂_declaredAs (kind : Kind) (sets : List FieldSet) :
    List.Forall₂ (DeclaredAs kind) sets (sets.map (declare kind)) := by
  rw [List.forall₂_map_right_iff, List.forall₂_same]
  intro s _
  exact s.declaredAs_declare kind

theorem Field.contributes_nested (f : Field) : f.Contributes (f.nested .implementation) := by
  refine ⟨f.fieldSets.map (FieldSet.declare .interface),
    f.implementationFieldSets.map (FieldSet.declare .implementation), ?_,
    FieldSet.forall₂_declaredAs _ _, FieldSet.forall₂_declaredAs _ _⟩
  rw [f.nested_eq_map_emits]
  simp [emits, Function.comp_def]

theorem Field.nested_interface (f : Field) :
    f.nested .interface = f.baseFieldSet.toList.map (FieldSet.declare .interface) := by
  rw [f.nested_eq_map_emits]
  simp [emits, Function.comp_def]

/-- An interface nests one declaration for every field with a common shape, in their order. -/
theorem FieldSet.forall₂_nested_interface (fields : List Field) :
    List.Forall₂ (fun f d => ∃ s, f.baseFieldSet = some s ∧ s.DeclaredAs .interface d)
      (fields.filter (·.baseFieldSet.isSome)) (fields.flatMap (Field.nested .interface)) := by
  induction fields with
  | nil => exact .nil
  | cons f fields ih =>
    rw [List.flatMap_cons, f.nested_interface]
    cases hbase : f.baseFieldSet with
    | none => simpa [hbase] using ih
    | some s =>
      rw [List.filter_cons_of_pos (by simp [hbase])]
      exact .cons ⟨s, hbase, s.declaredAs_declare .interface⟩ ih

/-! ## What is nested at any depth -/

/-- An interface emits interfaces only. -/
theorem kind_of_mem_emission :
    (∀ f : Field, ∀ e ∈ f.emission .interface, e.2 = .interface) ∧
      ∀ s : FieldSet, ∀ e ∈ s.emission .interface, e.2 = .interface := by
  apply Field.emits_induction
  · intro f hsets e he
    rw [f.emission_eq] at he
    rcases List.mem_flatMap.mp he with ⟨e', he', he⟩
    -- the common shape is followed as an interface
    have hkind : e'.2 = .interface := by
      rcases List.mem_map.mp he' with ⟨s, -, rfl⟩
      rfl
    rw [hkind] at he
    exact hsets .interface e' he' e he
  · intro s hfields e he
    rw [s.emission_eq] at he
    rcases List.mem_cons.mp he with rfl | he
    · rfl
    · rcases List.mem_flatMap.mp he with ⟨f, hf, he⟩
      exact hfields f hf e he

theorem Field.kind_of_mem_preorderList_nested {f : Field} {d : Declaration}
    (hd : d ∈ Declaration.preorderList (f.nested .interface)) : d.kind = .interface := by
  rw [f.preorderList_nested] at hd
  rcases List.mem_map.mp hd with ⟨e, he, rfl⟩
  rw [kind_declareEmitted]
  exact kind_of_mem_emission.1 f e he

theorem FieldSet.kind_of_mem_preorder_declare {s : FieldSet} {d : Declaration}
    (hd : d ∈ (s.declare .interface).preorder) : d.kind = .interface := by
  rw [preorder_eq_map_emission.2 s .interface] at hd
  rcases List.mem_map.mp hd with ⟨e, he, rfl⟩
  rw [kind_declareEmitted]
  exact kind_of_mem_emission.2 s e he

/-! ## All of a tree -/

/-- What holds of a declaration that is made from a field set. -/
structure Declaration.Views (d : Declaration) (s : FieldSet) : Prop where
  declared : s.DeclaredAs d.kind d
  /-- Whatever is nested in an interface, at any depth, is an interface. -/
  below_interface : d.kind = .interface → ∀ e ∈ preorderList d.nested, e.kind = .interface
  /-- Whatever an implementation is nested in, at any depth, is an implementation. -/
  above_implementation :
    ∀ e ∈ preorderList d.nested, e.kind = .implementation → d.kind = .implementation
  /-- An interface nests one declaration for every field with a common shape, in their order. -/
  nested_interface : d.kind = .interface →
    List.Forall₂ (fun f e => ∃ b, f.baseFieldSet = some b ∧ b.DeclaredAs .interface e)
      (s.fields.filter (·.baseFieldSet.isSome)) d.nested
  /-- An implementation nests what its fields contribute, field by field. -/
  nested_implementation : d.kind = .implementation →
    ∃ parts, d.nested = parts.flatten ∧ List.Forall₂ Field.Contributes s.fields parts

theorem FieldSet.views_declare (s : FieldSet) (kind : Kind) : (s.declare kind).Views s := by
  have hbelow : (s.declare kind).kind = .interface →
      ∀ e ∈ Declaration.preorderList (s.declare kind).nested, e.kind = .interface := by
    intro hkind e he
    obtain rfl : kind = .interface := by rwa [s.kind_declare] at hkind
    refine FieldSet.kind_of_mem_preorder_declare (s := s) ?_
    rw [Declaration.preorder_eq]
    exact List.mem_cons_of_mem _ he
  refine ⟨?_, hbelow, ?_, ?_, ?_⟩
  · rw [s.kind_declare]
    exact s.declaredAs_declare kind
  · intro e he hkind
    cases hd : (s.declare kind).kind with
    | implementation => rfl
    | interface => cases hkind.symm.trans (hbelow hd e he)
  · intro hkind
    obtain rfl : kind = .interface := by rwa [s.kind_declare] at hkind
    rw [s.nested_declare]
    exact forall₂_nested_interface s.fields
  · intro hkind
    obtain rfl : kind = .implementation := by rwa [s.kind_declare] at hkind
    refine ⟨s.fields.map (Field.nested .implementation), ?_, ?_⟩
    · rw [s.nested_declare, List.flatMap_def]
    · rw [List.forall₂_map_right_iff, List.forall₂_same]
      intro f _
      exact f.contributes_nested

theorem forall₂_views_emission (emission : List (FieldSet × Kind)) :
    List.Forall₂ Declaration.Views (emission.map declareEmitted) (emission.map Prod.fst) := by
  rw [List.forall₂_map_left_iff, List.forall₂_map_right_iff, List.forall₂_same]
  intro e _
  exact e.1.views_declare e.2

/-- Every declaration of a tree, whether it is the tree of a field or that of a field set, is made
from a field set of it. Interfaces have nothing but interfaces inside, at any depth, and directly
one for every field with a common shape; implementations have what each field contributes, with the
interfaces before the implementations. The interface view of a fragment has at most one root, and no
implementation anywhere. -/
theorem interfaces_enclose_interfaces (f : Field) (s : FieldSet) (kind : Kind)
    (fragment : Fragment) :
    List.Forall₂ Declaration.Views (Declaration.preorderList (f.nested kind))
      ((f.emission kind).map Prod.fst) ∧
    List.Forall₂ Declaration.Views (s.declare kind).preorder ((s.emission kind).map Prod.fst) ∧
    f.Contributes (f.nested .implementation) ∧
    fragment.compile.interfaces.length ≤ 1 ∧
    ∀ d ∈ Declaration.preorderList fragment.compile.interfaces, d.kind = .interface := by
  refine ⟨?_, ?_, f.contributes_nested, ?_, ?_⟩
  · rw [f.preorderList_nested]
    exact forall₂_views_emission _
  · rw [preorder_eq_map_emission.2 s kind]
    exact forall₂_views_emission _
  · rw [Fragment.compile, Field.nested_interface]
    cases fragment.dataField.baseFieldSet <;> simp
  · intro d hd
    exact Field.kind_of_mem_preorderList_nested hd

/-- The hero's shared shape is an interface inside the implementation of the query's data, and the
friend inside it is an interface too. In the fragment both are interfaces from the root on. -/
theorem interfaces_enclose_heroDocument :
    ∃ o fragment, o ∈ heroDocument.operations ∧ fragment ∈ heroDocument.fragments ∧
      (∃ d e, d ∈ Declaration.preorderList (o.dataField.nested .implementation) ∧
        e ∈ Declaration.preorderList d.nested ∧ d.kind = .interface ∧ e.kind = .interface) ∧
      ∃ d, d ∈ Declaration.preorderList fragment.compile.interfaces ∧ d.kind = .interface := by
  let o := heroDocument.operations.head (List.cons_ne_nil _ _)
  let fragment := heroDocument.fragments.head (List.cons_ne_nil _ _)
  let root := (o.dataField.emission .implementation).head (List.cons_ne_nil _ _)
  obtain ⟨hviews, -, -, -, hinterfaces⟩ :=
    interfaces_enclose_interfaces o.dataField root.1 .implementation fragment
  let d := (Declaration.preorderList (o.dataField.nested .implementation)).get ⟨1, by decide⟩
  let e := (Declaration.preorderList d.nested).head (List.cons_ne_nil _ _)
  have hd : d.kind = .interface := rfl
  have he : e ∈ Declaration.preorderList d.nested := List.head_mem _
  have hshared : d.Views _ := hviews.get (i := 1) (by decide) (by decide)
  exact ⟨o, fragment, .head _, .head _,
    ⟨d, e, List.get_mem _ _, he, hd, hshared.below_interface hd e he⟩,
    _, .head _, hinterfaces _ (.head _)⟩

end SelectionModels
