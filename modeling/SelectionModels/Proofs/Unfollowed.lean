import SelectionModels.Proofs.Recasting

/-! # Selections that are not followed

A walk takes some of a field's sets and leaves the others. In an interface it leaves all but the
common shape, in an implementation it leaves the common shape; and since shared shapes are declared
as interfaces wherever they stand, the kind changes on the way down.

What a walk leaves can still be seen by the check, for it compares field sets as a whole when it
meets a path again. As long as there is one tree only this makes no difference: a path that is met
again in its own tree is refused, whatever the field sets are.

* `Field.followed`: a field without all that a walk in the given kind leaves;
* `Field.nested_followed`: nothing else is declared;
* `Document.check_lone_followed`: nothing else is checked in a lone operation;
* `unfollowed_inert`: selections that differ only in what is left cannot be told apart.
-/

namespace SelectionModels

/-! ## What is followed -/

mutual

/-- The field without what a walk in the given kind leaves, here and at any depth. -/
def Field.followed (kind : Kind) : Field → Field
  | .mk responseName type description deprecationReason isOverride
      fieldSets implementationFieldSets baseFieldSet =>
    match kind with
    | .interface =>
      ⟨responseName, type, description, deprecationReason, isOverride, [], [],
        FieldSet.followedOption .interface baseFieldSet⟩
    | .implementation =>
      ⟨responseName, type, description, deprecationReason, isOverride,
        FieldSet.followedList .interface fieldSets,
        FieldSet.followedList .implementation implementationFieldSets, none⟩
termination_by structural f => f

/-- The field set with what is followed of its fields. -/
def FieldSet.followed (kind : Kind) : FieldSet → FieldSet
  | .mk modelName path fields implements =>
    ⟨modelName, path, Field.followedList kind fields, implements⟩
termination_by structural s => s

def FieldSet.followedOption (kind : Kind) : Option FieldSet → Option FieldSet
  | none => none
  | some s => some (FieldSet.followed kind s)
termination_by structural s => s

def FieldSet.followedList (kind : Kind) : List FieldSet → List FieldSet
  | [] => []
  | s :: rest => FieldSet.followed kind s :: FieldSet.followedList kind rest
termination_by structural sets => sets

def Field.followedList (kind : Kind) : List Field → List Field
  | [] => []
  | f :: rest => Field.followed kind f :: Field.followedList kind rest
termination_by structural fields => fields

end

theorem FieldSet.followedList_eq_map (kind : Kind) (sets : List FieldSet) :
    followedList kind sets = sets.map (followed kind) := by
  induction sets with
  | nil => rfl
  | cons s rest ih => rw [followedList, ih, List.map_cons]

theorem FieldSet.toList_followedOption (kind : Kind) (s : Option FieldSet) :
    (followedOption kind s).toList = s.toList.map (followed kind) := by
  cases s <;> rfl

theorem Field.followedList_eq_map (kind : Kind) (fields : List Field) :
    followedList kind fields = fields.map (followed kind) := by
  induction fields with
  | nil => rfl
  | cons f rest ih => rw [followedList, ih, List.map_cons]

theorem Field.emits_followed (kind : Kind) (f : Field) :
    (f.followed kind).emits kind = (f.emits kind).map fun e => (e.1.followed e.2, e.2) := by
  cases f
  cases kind <;>
    simp [followed, emits, FieldSet.followedList_eq_map, FieldSet.toList_followedOption,
      Function.comp_def]

theorem Field.property_followed (kind : Kind) (f : Field) :
    (f.followed kind).property = f.property := by
  cases f
  cases kind <;> rfl

/-- A walk goes by what it follows. -/
def Recast.followed : Recast where
  field := Field.followed
  fieldSet := FieldSet.followed
  leaf_field kind f := by cases f; cases kind <;> rfl
  responseName_field kind f := by cases f; cases kind <;> rfl
  emits_field := Field.emits_followed
  modelName_fieldSet _ s := by cases s; rfl
  path_fieldSet _ s := by cases s; rfl
  fields_fieldSet _ s := by cases s; simp [FieldSet.followed, Field.followedList_eq_map]

/-! ## Declaring -/

theorem FieldSet.declare_followed (s : FieldSet) (kind : Kind)
    (hnested : (s.followed kind).fields.flatMap (Field.nested kind) =
      (s.fields.flatMap (Field.nested kind)).map id) :
    (s.followed kind).declare kind = s.declare kind := by
  have hproperties : (s.followed kind).fields.map Field.property = s.fields.map Field.property := by
    rw [show (s.followed kind).fields = s.fields.map (Field.followed kind) from
      Recast.followed.fields_fieldSet kind s, List.map_map]
    exact List.map_congr_left fun f _ => f.property_followed kind
  rw [FieldSet.declare_eq, hnested, hproperties, List.map_id, s.declare_eq]
  cases s
  rfl

/-- Only what is followed is declared. -/
theorem Field.nested_followed (kind : Kind) (f : Field) :
    (f.followed kind).nested kind = f.nested kind :=
  (Recast.followed.nested_field FieldSet.declare_followed kind f).trans (List.map_id _)

/-- Fields that agree in what is followed are declared alike. -/
theorem Field.nested_eq_of_followed_eq {kind : Kind} {f g : Field}
    (h : f.followed kind = g.followed kind) : f.nested kind = g.nested kind := by
  rw [← f.nested_followed, h, g.nested_followed]

/-! ## Checking -/

/-- The document of one operation. -/
def Document.lone (ns : String) (scalars : List CustomScalar) (name : String) (f : Field) :
    Document :=
  ⟨ns, scalars, [⟨name, f⟩], []⟩

section Lone

variable (ns : String) (scalars : List CustomScalar) (name : String)

/-- A lone operation is one tree. -/
theorem Document.obligations_lone (f : Field) :
    (lone ns scalars name f).obligations = (f.obligations .implementation).map (0, ·) := by
  simp [lone, obligations, owed]

/-- Only what is followed is checked in a lone operation. -/
theorem Document.check_lone_followed (f : Field) :
    (lone ns scalars name (f.followed .implementation)).check =
      (lone ns scalars name f).check := by
  have howed := Recast.followed.forall₂_obligations .implementation f
  -- all obligations belong to the one tree, so they fail alike
  have hfailure : firstFailure? scalars []
        (lone ns scalars name (f.followed .implementation)).obligations =
      firstFailure? scalars [] (lone ns scalars name f).obligations := by
    rw [obligations_lone, obligations_lone]
    exact Recast.firstFailure?_eq howed .nil
  have hscalars : ∀ f, (lone ns scalars name f).customScalars = scalars := fun _ => rfl
  rw [check_eq_verdict, check_eq_verdict, verdict, verdict]
  simp only [hscalars, hfailure]

variable {f g : Field}

theorem Document.check_lone_eq_of_followed_eq
    (h : f.followed .implementation = g.followed .implementation) :
    (lone ns scalars name f).check = (lone ns scalars name g).check := by
  rw [← check_lone_followed ns scalars name f, h, check_lone_followed]

theorem Document.compile_lone_eq_of_followed_eq
    (h : f.followed .implementation = g.followed .implementation) :
    (lone ns scalars name f).compile = (lone ns scalars name g).compile := by
  have hcheck := check_lone_eq_of_followed_eq ns scalars name h
  have hnested := Field.nested_eq_of_followed_eq h
  have hoperation : Operation.compile ⟨name, f⟩ = Operation.compile ⟨name, g⟩ :=
    congrArg (CompiledOperation.mk name) hnested
  unfold compile
  rw [hcheck]
  simp only [lone, List.map_cons, List.map_nil, hoperation]

end Lone

/-! ## Inertness -/

/-- Lone operations whose data fields agree in what is followed are checked and compiled alike, and
interfaces are declared alike if what is followed in an interface agrees. -/
theorem unfollowed_inert (f g : Field) :
    (f.followed .implementation = g.followed .implementation →
      ∀ (ns : String) (scalars : List CustomScalar) (name : String),
        (Document.lone ns scalars name f).check = (Document.lone ns scalars name g).check ∧
        (Document.lone ns scalars name f).compile =
          (Document.lone ns scalars name g).compile) ∧
    (f.followed .interface = g.followed .interface →
      f.nested .interface = g.nested .interface) := by
  constructor
  · intro h ns scalars name
    exact ⟨Document.check_lone_eq_of_followed_eq ns scalars name h,
      Document.compile_lone_eq_of_followed_eq ns scalars name h⟩
  · intro h
    exact Field.nested_eq_of_followed_eq h

/-- The model of owners. -/
def ownerSet : FieldSet :=
  ⟨"Owner", ⟨"com.example", "Query", ["Owner"]⟩,
    [⟨"id", .named .id, none, none, false, [], [], none⟩], []⟩

/-- A field with a shared shape, in which an owner has the given concrete shapes; beside it perhaps
a common shape. -/
def ownedField (concrete : List FieldSet) (common : Option FieldSet) : Field :=
  let owner : Field := ⟨"owner", .named .string, none, none, false, [], concrete, some ownerSet⟩
  let shared : FieldSet := ⟨"Data", ⟨"com.example", "Query", ["Data"]⟩, [owner], []⟩
  ⟨"data", .named .string, none, none, false, [shared], [], common⟩

/-- The shared shape is an interface, so the concrete shapes in it are left, and so is the common
shape beside it, though both would declare once more what is declared. -/
theorem unfollowed_inert_ownedField :
    ownedField [] none ≠ ownedField [ownerSet] (some ownerSet) ∧
    (Document.lone "com.example" [] "Query" (ownedField [] none)).check = .ok () ∧
    (Document.lone "com.example" [] "Query" (ownedField [ownerSet] (some ownerSet))).check =
      .ok () ∧
    (Document.lone "com.example" [] "Query" (ownedField [] none)).compile =
      (Document.lone "com.example" [] "Query" (ownedField [ownerSet] (some ownerSet))).compile ∧
    (ownedField [] (some ownerSet)).nested .interface =
      (ownedField [ownerSet] (some ownerSet)).nested .interface := by
  have hagree : (ownedField [] none).followed .implementation =
      (ownedField [ownerSet] (some ownerSet)).followed .implementation := rfl
  have hcommon : (ownedField [] (some ownerSet)).followed .interface =
      (ownedField [ownerSet] (some ownerSet)).followed .interface := rfl
  have haccepted : (Document.lone "com.example" [] "Query" (ownedField [] none)).check = .ok () :=
    rfl
  obtain ⟨hlone, -⟩ :=
    unfollowed_inert (ownedField [] none) (ownedField [ownerSet] (some ownerSet))
  obtain ⟨-, hinterface⟩ :=
    unfollowed_inert (ownedField [] (some ownerSet)) (ownedField [ownerSet] (some ownerSet))
  obtain ⟨hcheck, hcompile⟩ := hlone hagree "com.example" [] "Query"
  exact ⟨by decide, haccepted, hcheck.symm.trans haccepted, hcompile, hinterface hcommon⟩

end SelectionModels
