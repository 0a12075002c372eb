import SelectionModels.CompiledDocument

/-! # Obligations

Everything that a document has to satisfy, written down as one list. A field owes that its leaf
agrees with the registry; a field set owes that its path is its own and that its response names
differ. The list follows the order in which declarations are generated, so that the first thing
that is wrong with a document is the first obligation of the list that fails.

* `Document.obligations`: the list, every entry with the number of its tree;
* `Obligation.failure?`: what is wrong with an obligation, beside all obligations before it;
* `Document.verdict`: the error of the first obligation that fails;
* `Field.emission`: the field sets of a tree, in order, each with its kind;
* `Field.emits_induction`: the induction by which facts about trees are proved.
-/

namespace SelectionModels

/-! ## Induction over selections -/

/-- Selections by induction: a field by the field sets that it emits in either kind, a field set by
its fields. -/
theorem Field.emits_induction {P : Field → Prop} {Q : FieldSet → Prop}
    (field : ∀ f : Field, (∀ kind, ∀ e ∈ f.emits kind, Q e.1) → P f)
    (fieldSet : ∀ s : FieldSet, (∀ f ∈ s.fields, P f) → Q s) :
    (∀ f, P f) ∧ ∀ s, Q s := by
  have hfield : ∀ f, P f := by
    intro f
    -- the recursor goes through the lists and the option too, which only collect what holds of
    -- their members
    refine @Field.rec P Q (fun ss => ∀ s ∈ ss, Q s) (fun s? => ∀ s ∈ s?.toList, Q s)
      (fun fs => ∀ f ∈ fs, P f)
      ?field ?fieldSet ?noSet ?moreSets ?noBase ?base ?noField ?moreFields f
    case field =>
      intro _ _ _ _ _ _ _ _ hsets himpls hbase
      apply field
      intro kind e he
      cases kind with
      | interface =>
        obtain ⟨s, hs, rfl⟩ := List.mem_map.mp he
        exact hbase s hs
      | implementation =>
        rcases List.mem_append.mp he with he | he
        · obtain ⟨s, hs, rfl⟩ := List.mem_map.mp he
          exact hsets s hs
        · obtain ⟨s, hs, rfl⟩ := List.mem_map.mp he
          exact himpls s hs
    case fieldSet => exact fun _ _ _ _ hfields => fieldSet _ hfields
    case noSet | noBase | noField => simp
    case moreSets | moreFields => exact fun _ _ h hs => List.forall_mem_cons.mpr ⟨h, hs⟩
    case base => exact fun _ h => by simpa using h
  exact ⟨hfield, fun s => fieldSet s fun f _ => hfield f⟩

/-! ## The list -/

/-- One thing that a document has to satisfy. -/
inductive Obligation where
  /-- A leaf agrees with the registry if it is a custom scalar. -/
  | leaf (leaf : Leaf)
  /-- The field set, declared in the given kind, has its path to itself. -/
  | path (s : FieldSet) (kind : Kind)
  /-- The response names of the field set differ. -/
  | responseNames (s : FieldSet)

mutual

/-- What a field owes: its leaf, then what the field sets owe that it emits. An interface follows
the common shape, an implementation the shared shapes before the concrete ones. -/
def Field.obligations (kind : Kind) : Field → List Obligation
  | .mk _ type _ _ _ fieldSets implementationFieldSets baseFieldSet =>
    .leaf type.leaf ::
      match kind with
      | .interface => FieldSet.obligationsOption .interface baseFieldSet
      | .implementation =>
        FieldSet.obligationsList .interface fieldSets ++
          FieldSet.obligationsList .implementation implementationFieldSets
termination_by structural f => f

/-- What a field set owes: its path, its response names, then what its fields owe. -/
def FieldSet.obligations (kind : Kind) : FieldSet → List Obligation
  | .mk modelName path fields implements =>
    .path ⟨modelName, path, fields, implements⟩ kind ::
      .responseNames ⟨modelName, path, fields, implements⟩ :: Field.obligationsList kind fields
termination_by structural s => s

def FieldSet.obligationsOption (kind : Kind) : Option FieldSet → List Obligation
  | none => []
  | some s => FieldSet.obligations kind s
termination_by structural s => s

def FieldSet.obligationsList (kind : Kind) : List FieldSet → List Obligation
  | [] => []
  | s :: rest => FieldSet.obligations kind s ++ FieldSet.obligationsList kind rest
termination_by structural sets => sets

def Field.obligationsList (kind : Kind) : List Field → List Obligation
  | [] => []
  | f :: rest => Field.obligations kind f ++ Field.obligationsList kind rest
termination_by structural fields => fields

end

theorem FieldSet.obligationsList_eq_flatMap (kind : Kind) (sets : List FieldSet) :
    obligationsList kind sets = sets.flatMap (obligations kind) := by
  induction sets with
  | nil => rfl
  | cons s rest ih => simp [obligationsList, ih]

theorem FieldSet.obligationsOption_eq_flatMap (kind : Kind) (s : Option FieldSet) :
    obligationsOption kind s = s.toList.flatMap (obligations kind) := by
  cases s <;> simp [obligationsOption]

theorem Field.obligationsList_eq_flatMap (kind : Kind) (fields : List Field) :
    obligationsList kind fields = fields.flatMap (obligations kind) := by
  induction fields with
  | nil => rfl
  | cons f rest ih => simp [obligationsList, ih]

theorem Field.obligations_eq (kind : Kind) (f : Field) :
    f.obligations kind =
      .leaf f.type.leaf :: (f.emits kind).flatMap fun e => e.1.obligations e.2 := by
  cases f
  cases kind <;>
    simp [obligations, emits, FieldSet.obligationsOption_eq_flatMap,
      FieldSet.obligationsList_eq_flatMap, List.flatMap_map]

theorem FieldSet.obligations_eq (kind : Kind) (s : FieldSet) :
    s.obligations kind =
      .path s kind :: .responseNames s :: s.fields.flatMap (Field.obligations kind) := by
  cases s
  simp [obligations, Field.obligationsList_eq_flatMap]

/-- What every tree of a document owes: an operation is one tree, a fragment two, its interface
view before its implementation view. -/
def Document.owed (d : Document) : List (List Obligation) :=
  d.operations.map (fun o => o.dataField.obligations .implementation) ++
    d.fragments.flatMap fun f =>
      [f.dataField.obligations .interface, f.dataField.obligations .implementation]

/-- Trees one after the other, every obligation with the number of its tree, from `next` on. -/
def numbered (next : Nat) (owed : List (List Obligation)) : List (Nat × Obligation) :=
  (owed.zipIdx next).flatMap fun (os, tree) => os.map (tree, ·)

/-- All that a document owes, in order, every obligation with the number of its tree. -/
def Document.obligations (d : Document) : List (Nat × Obligation) :=
  numbered 0 d.owed

@[simp] theorem numbered_nil (next : Nat) : numbered next [] = [] := rfl

@[simp] theorem numbered_cons (next : Nat) (os : List Obligation) (owed : List (List Obligation)) :
    numbered next (os :: owed) = os.map (next, ·) ++ numbered (next + 1) owed := by
  simp [numbered, List.zipIdx_cons]

theorem Document.owed_eq_map (d : Document) :
    d.owed = d.trees.map fun t => t.1.obligations t.2 := by
  simp [owed, trees, List.map_flatMap, Function.comp_def]

/-! ## Verdicts -/

/-- What is wrong with a leaf: it is a custom scalar that is not declared, or one that is declared
with another mapping. -/
def Leaf.failure? (scalars : List CustomScalar) : Leaf → Option DocumentError
  | .customScalar name mappedType =>
    match scalars.find? (·.name = name) with
    | none => some (.undeclaredScalar name)
    | some s =>
      if s.mappedType = mappedType then none
      else some (.scalarMappingMismatch name mappedType s.mappedType)
  | _ => none

/-- The first response name that an earlier field of the set has too. -/
def FieldSet.repeatedName? (s : FieldSet) : Option String :=
  let names := s.fields.map (·.responseName)
  (names.zipIdx.find? fun (name, i) => name ∈ names.take i).map Prod.fst

/-- An earlier obligation takes the path of the field set away: it is for the same path, and in the
same tree or for another field set. -/
def FieldSet.clashes (s : FieldSet) (tree : Nat) : Nat × Obligation → Bool
  | (tree', .path s' _) => s'.path = s.path && (tree' = tree || s' ≠ s)
  | _ => false

/-- What is wrong with an obligation of a tree, beside all obligations before it. -/
def Obligation.failure? (scalars : List CustomScalar) (earlier : List (Nat × Obligation))
    (tree : Nat) : Obligation → Option DocumentError
  | .leaf l => l.failure? scalars
  | .path s _ =>
    if earlier.any (s.clashes tree) then some (.duplicateModelPath s.path.display) else none
  | .responseNames s => s.repeatedName?.map (.duplicateResponseName s.modelName)

/-- What is wrong with the first obligation that fails, `earlier` being those before the list. -/
def firstFailure? (scalars : List CustomScalar) (earlier : List (Nat × Obligation)) :
    List (Nat × Obligation) → Option DocumentError
  | [] => none
  | (tree, o) :: rest =>
    (o.failure? scalars earlier tree).or (firstFailure? scalars (earlier ++ [(tree, o)]) rest)

/-- The verdict when this is what is wrong. -/
def verdictOf : Option DocumentError → Except DocumentError Unit
  | some e => .error e
  | none => .ok ()

theorem verdictOf_eq_ok_iff {e? : Option DocumentError} : verdictOf e? = .ok () ↔ e? = none := by
  cases e? <;> simp [verdictOf]

/-- The error of the scalars, if they have one, else that of the first obligation that fails. -/
def Document.verdict (d : Document) : Except DocumentError Unit :=
  match checkScalars d.customScalars with
  | .error e => .error e
  | .ok () => verdictOf (firstFailure? d.customScalars [] d.obligations)

theorem firstFailure?_append (scalars : List CustomScalar)
    (earlier xs ys : List (Nat × Obligation)) :
    firstFailure? scalars earlier (xs ++ ys) =
      (firstFailure? scalars earlier xs).or (firstFailure? scalars (earlier ++ xs) ys) := by
  induction xs generalizing earlier with
  | nil => simp [firstFailure?]
  | cons x xs ih => simp [firstFailure?, ih, Option.or_assoc]

/-- What is wrong with a list is wrong with one of its obligations. -/
theorem exists_failure?_of_firstFailure? {scalars : List CustomScalar}
    {earlier os : List (Nat × Obligation)} {e : DocumentError}
    (h : firstFailure? scalars earlier os = some e) :
    ∃ x ∈ os, ∃ before, x.2.failure? scalars before x.1 = some e := by
  induction os generalizing earlier with
  | nil => cases h
  | cons x os ih =>
    rcases Option.or_eq_some_iff.mp h with h | ⟨-, h⟩
    · exact ⟨x, List.mem_cons_self, earlier, h⟩
    · obtain ⟨y, hy, hfails⟩ := ih h
      exact ⟨y, List.mem_cons_of_mem x hy, hfails⟩

/-! ## Emission -/

/-- The field set that an obligation is about, when it is about its path. -/
def Obligation.emitted? : Obligation → Option (FieldSet × Kind)
  | .path s kind => some (s, kind)
  | _ => none

theorem Obligation.emitted?_eq_some_iff {o : Obligation} {e : FieldSet × Kind} :
    o.emitted? = some e ↔ o = .path e.1 e.2 := by
  cases o <;> simp [emitted?, Prod.ext_iff]

/-- The field sets below a field, in order, each with its kind. -/
def Field.emission (kind : Kind) (f : Field) : List (FieldSet × Kind) :=
  (f.obligations kind).filterMap Obligation.emitted?

/-- The field set itself and all below it, in order, each with its kind. -/
def FieldSet.emission (kind : Kind) (s : FieldSet) : List (FieldSet × Kind) :=
  (s.obligations kind).filterMap Obligation.emitted?

theorem Field.emission_eq (kind : Kind) (f : Field) :
    f.emission kind = (f.emits kind).flatMap fun e => e.1.emission e.2 := by
  simp only [emission, Field.obligations_eq, Obligation.emitted?, List.filterMap_cons,
    List.filterMap_flatMap]
  rfl

theorem FieldSet.emission_eq (kind : Kind) (s : FieldSet) :
    s.emission kind = (s, kind) :: s.fields.flatMap (Field.emission kind) := by
  simp only [emission, FieldSet.obligations_eq, Obligation.emitted?, List.filterMap_cons,
    List.filterMap_flatMap]
  rfl

end SelectionModels
