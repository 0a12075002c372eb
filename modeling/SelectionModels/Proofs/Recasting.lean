import Mathlib.Data.List.Forall2
import SelectionModels.Proofs.Agreement

/-! # Selections that are walked alike

A walk over a selection goes by its leaves, its paths, its response names and the field sets that
are emitted. A selection that has been changed in other parts owes the same obligations one by one,
each about the changed field set. They hold or fail alike, but for those of paths, which compare
whole field sets; and even these cannot tell the difference as long as there is one tree only.

* `Recast`: a change that keeps what a walk goes by;
* `Recast.forall₂_obligations`, `Recast.emission_field`: what a changed selection owes and emits;
* `Recast.soundTree_iff`: a changed tree is sound by itself if the tree was;
* `Recast.firstFailure?_eq`: within one tree the same obligation is the first to fail;
* `Recast.nested_field`: what a changed field nests.
-/

namespace SelectionModels

/-- A change of selections, which may depend on the kind that they are declared in, and which keeps
what a walk goes by. -/
structure Recast where
  field : Kind → Field → Field
  fieldSet : Kind → FieldSet → FieldSet
  leaf_field : ∀ kind f, (field kind f).type.leaf = f.type.leaf
  responseName_field : ∀ kind f, (field kind f).responseName = f.responseName
  emits_field : ∀ kind f,
    (field kind f).emits kind = (f.emits kind).map fun e => (fieldSet e.2 e.1, e.2)
  modelName_fieldSet : ∀ kind s, (fieldSet kind s).modelName = s.modelName
  path_fieldSet : ∀ kind s, (fieldSet kind s).path = s.path
  fields_fieldSet : ∀ kind s, (fieldSet kind s).fields = s.fields.map (field kind)

namespace Recast

variable (r : Recast)

/-! ## What is owed and emitted -/

/-- The second obligation is the first one about the changed field set. -/
inductive Obliges : Obligation → Obligation → Prop where
  | leaf (l : Leaf) : Obliges (.leaf l) (.leaf l)
  | path (s : FieldSet) (kind : Kind) : Obliges (.path s kind) (.path (r.fieldSet kind s) kind)
  | responseNames (s : FieldSet) (kind : Kind) :
    Obliges (.responseNames s) (.responseNames (r.fieldSet kind s))

theorem forall₂_flatMap {α β : Type} {R : β → β → Prop} {xs : List α} {g h : α → List β}
    (hgh : ∀ x ∈ xs, List.Forall₂ R (g x) (h x)) :
    List.Forall₂ R (xs.flatMap g) (xs.flatMap h) := by
  induction xs with
  | nil => exact .nil
  | cons x xs ih =>
    rcases List.forall_mem_cons.mp hgh with ⟨hx, hxs⟩
    rw [List.flatMap_cons, List.flatMap_cons]
    exact List.rel_append hx (ih hxs)

theorem obligations_recast :
    (∀ (f : Field) (kind : Kind),
      List.Forall₂ r.Obliges (f.obligations kind) ((r.field kind f).obligations kind)) ∧
    ∀ (s : FieldSet) (kind : Kind),
      List.Forall₂ r.Obliges (s.obligations kind) ((r.fieldSet kind s).obligations kind) := by
  apply Field.emits_induction
  · intro f hsets kind
    rw [f.obligations_eq, Field.obligations_eq, r.leaf_field, r.emits_field, List.flatMap_map]
    refine .cons (.leaf _) (forall₂_flatMap ?_)
    intro e he
    exact hsets kind e he e.2
  · intro s hfields kind
    rw [s.obligations_eq, FieldSet.obligations_eq, r.fields_fieldSet, List.flatMap_map]
    refine .cons (.path s kind) (.cons (.responseNames s kind) (forall₂_flatMap ?_))
    intro f hf
    exact hfields f hf kind

/-- A changed field owes the same, one by one, about changed field sets. -/
theorem forall₂_obligations (kind : Kind) (f : Field) :
    List.Forall₂ r.Obliges (f.obligations kind) ((r.field kind f).obligations kind) :=
  r.obligations_recast.1 f kind

/-- A changed field emits the changed field sets, in the same order and in the same kinds. -/
theorem emission_field (kind : Kind) (f : Field) :
    (r.field kind f).emission kind =
      (f.emission kind).map fun e => (r.fieldSet e.2 e.1, e.2) := by
  have howed := r.forall₂_obligations kind f
  unfold Field.emission
  generalize f.obligations kind = os, (r.field kind f).obligations kind = os' at howed ⊢
  induction howed with
  | nil => rfl
  | cons ho _ ih =>
    rw [List.filterMap_cons, List.filterMap_cons]
    cases ho with
    | leaf l => exact ih
    | path s kind' => exact congrArg (List.cons _) ih
    | responseNames s kind' => exact ih

/-! ## What holds by itself -/

theorem repeatedName?_fieldSet (kind : Kind) (s : FieldSet) :
    (r.fieldSet kind s).repeatedName? = s.repeatedName? := by
  have hnames : (r.fieldSet kind s).fields.map (·.responseName) =
      s.fields.map (·.responseName) := by
    rw [r.fields_fieldSet, List.map_map]
    exact List.map_congr_left fun f _ => r.responseName_field kind f
  rw [FieldSet.repeatedName?, FieldSet.repeatedName?, hnames]

variable {r}

theorem Obliges.holds_iff {o o' : Obligation} (h : r.Obliges o o') (scalars : List CustomScalar) :
    o'.Holds scalars ↔ o.Holds scalars := by
  cases h with
  | leaf l => rfl
  | path s kind => rfl
  | responseNames s kind => simp only [Obligation.Holds, r.repeatedName?_fieldSet]

theorem forall_holds_iff {os os' : List Obligation} (h : List.Forall₂ r.Obliges os os')
    (scalars : List CustomScalar) :
    (∀ o ∈ os', o.Holds scalars) ↔ ∀ o ∈ os, o.Holds scalars := by
  induction h with
  | nil => simp
  | cons ho _ ih => rw [List.forall_mem_cons, List.forall_mem_cons, ho.holds_iff, ih]

variable (r)

/-- A changed tree is sound by itself just when the tree was. -/
theorem soundTree_iff (scalars : List CustomScalar) (kind : Kind) (f : Field) :
    SoundTree scalars (r.field kind f, kind) ↔ SoundTree scalars (f, kind) := by
  have hholds := forall_holds_iff (r.forall₂_obligations kind f) scalars
  have hpaths : ((r.field kind f).emission kind).map (·.1.path) =
      (f.emission kind).map (·.1.path) := by
    rw [r.emission_field, List.map_map]
    exact List.map_congr_left fun e _ => r.path_fieldSet e.2 e.1
  constructor
  · rintro ⟨hall, hnodup⟩
    exact ⟨hholds.mp hall, hpaths ▸ hnodup⟩
  · rintro ⟨hall, hnodup⟩
    exact ⟨hholds.mpr hall, hpaths.symm ▸ hnodup⟩

/-! ## What fails within one tree -/

variable {r} {scalars : List CustomScalar} {tree : Nat}

/-- Within one tree a path clashes with every equal path before it, whatever the field sets. -/
theorem any_clashes_eq {earlier earlier' : List Obligation}
    (h : List.Forall₂ r.Obliges earlier earlier') {s s' : FieldSet} (hpath : s'.path = s.path) :
    (earlier'.map (tree, ·)).any (s'.clashes tree) =
      (earlier.map (tree, ·)).any (s.clashes tree) := by
  induction h with
  | nil => rfl
  | cons ho _ ih =>
    rw [List.map_cons, List.map_cons, List.any_cons, List.any_cons, ih]
    congr 1
    cases ho with
    | leaf l => rfl
    | path s kind => simp [FieldSet.clashes, hpath, r.path_fieldSet]
    | responseNames s kind => rfl

theorem failure?_eq {earlier earlier' : List Obligation}
    (hearlier : List.Forall₂ r.Obliges earlier earlier') {o o' : Obligation}
    (ho : r.Obliges o o') :
    o'.failure? scalars (earlier'.map (tree, ·)) tree =
      o.failure? scalars (earlier.map (tree, ·)) tree := by
  cases ho with
  | leaf l => rfl
  | path s kind =>
    have hpath := r.path_fieldSet kind s
    simp only [Obligation.failure?, any_clashes_eq hearlier hpath, hpath]
  | responseNames s kind =>
    simp only [Obligation.failure?, r.repeatedName?_fieldSet, r.modelName_fieldSet]

/-- Within one tree the obligations fail alike: the same one is the first, with the same error. -/
theorem firstFailure?_eq {os os' : List Obligation} (h : List.Forall₂ r.Obliges os os')
    {earlier earlier' : List Obligation} (hearlier : List.Forall₂ r.Obliges earlier earlier') :
    firstFailure? scalars (earlier'.map (tree, ·)) (os'.map (tree, ·)) =
      firstFailure? scalars (earlier.map (tree, ·)) (os.map (tree, ·)) := by
  induction h generalizing earlier earlier' with
  | nil => rfl
  | @cons o o' os os' ho _ ih =>
    have hnext : List.Forall₂ r.Obliges (earlier ++ [o]) (earlier' ++ [o']) :=
      List.rel_append hearlier (.cons ho .nil)
    have hlater := ih hnext
    rw [List.map_append, List.map_append] at hlater
    simp only [List.map_cons, firstFailure?, failure?_eq hearlier ho]
    exact congrArg _ hlater

end Recast

/-! ## What is declared -/

theorem FieldSet.declare_eq (kind : Kind) (s : FieldSet) :
    s.declare kind = {
      kind
      name := s.modelName
      typeName := s.path.typeName
      adapterTypeName := s.path.adapterTypeName
      properties := s.fields.map Field.property
      superTypes := s.implements.map ModelPath.typeName
      nested := s.fields.flatMap (Field.nested kind) } := by
  cases s
  rw [declare, Field.nestedList_eq_flatMap]

/-- If changed field sets are declared as changed declarations, fields nest changed declarations. -/
theorem Recast.nested_field (r : Recast) {change : Declaration → Declaration}
    (hdeclare : ∀ s kind,
      (r.fieldSet kind s).fields.flatMap (Field.nested kind) =
        (s.fields.flatMap (Field.nested kind)).map change →
      (r.fieldSet kind s).declare kind = change (s.declare kind)) (kind : Kind) (f : Field) :
    (r.field kind f).nested kind = (f.nested kind).map change := by
  have hboth : (∀ (f : Field) (kind : Kind),
        (r.field kind f).nested kind = (f.nested kind).map change) ∧
      ∀ (s : FieldSet) (kind : Kind),
        (r.fieldSet kind s).declare kind = change (s.declare kind) := by
    apply Field.emits_induction
    · intro f hsets kind
      rw [Field.nested_eq_map_emits, f.nested_eq_map_emits, r.emits_field, List.map_map,
        List.map_map]
      apply List.map_congr_left
      intro e he
      exact hsets kind e he e.2
    · intro s hfields kind
      apply hdeclare
      rw [r.fields_fieldSet, List.flatMap_map, List.map_flatMap]
      exact List.flatMap_congr fun f hf => hfields f hf kind
  exact hboth.1 f kind

end SelectionModels
