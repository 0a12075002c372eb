import SelectionModels.Proofs.Recasting

/-! # Annotations

Documentation, override marks and the lists of implemented models are annotations: they are copied
to the declarations that are generated, and nothing else comes of them. A document without them is
compiled to the same declarations without them. They matter to the check in one place only: field
sets on one path have to be equal in their annotations too.

* `Document.bare`, `CompiledDocument.bare`: a document, and what it is compiled to, without
  annotations;
* `Document.compiled_bare`: compiling and taking the annotations away go in either order;
* `annotations_inert`: what becomes of an accepted document, and the one error that annotations can
  make.
-/

namespace SelectionModels

/-! ## Without annotations -/

mutual

/-- The field without its documentation and its override mark, and so all below it. -/
def Field.bare : Field → Field
  | .mk responseName type _ _ _ fieldSets implementationFieldSets baseFieldSet => {
      responseName
      type
      description := none
      deprecationReason := none
      isOverride := false
      fieldSets := FieldSet.bareList fieldSets
      implementationFieldSets := FieldSet.bareList implementationFieldSets
      baseFieldSet := FieldSet.bareOption baseFieldSet }
termination_by structural f => f

/-- The field set as if it implemented nothing, with its fields bare. -/
def FieldSet.bare : FieldSet → FieldSet
  | .mk modelName path fields _ => ⟨modelName, path, Field.bareList fields, []⟩
termination_by structural s => s

def FieldSet.bareOption : Option FieldSet → Option FieldSet
  | none => none
  | some s => some (FieldSet.bare s)
termination_by structural s => s

def FieldSet.bareList : List FieldSet → List FieldSet
  | [] => []
  | s :: rest => FieldSet.bare s :: FieldSet.bareList rest
termination_by structural sets => sets

def Field.bareList : List Field → List Field
  | [] => []
  | f :: rest => Field.bare f :: Field.bareList rest
termination_by structural fields => fields

end

/-- The scalar without its documentation. -/
def CustomScalar.bare (s : CustomScalar) : CustomScalar :=
  { s with description := none, deprecationReason := none }

/-- The document without its annotations. -/
def Document.bare (d : Document) : Document where
  ns := d.ns
  customScalars := d.customScalars.map CustomScalar.bare
  operations := d.operations.map fun o => { o with dataField := o.dataField.bare }
  fragments := d.fragments.map fun f => { f with dataField := f.dataField.bare }

/-- No documentation. -/
def Docs.empty : Docs :=
  ⟨none, none⟩

/-- The property without its documentation and its override mark. -/
def Property.bare (p : Property) : Property :=
  { p with isOverride := false, docs := .empty }

mutual

/-- The declaration without supertypes, with its properties bare, and so all that is nested in
it. -/
def Declaration.bare : Declaration → Declaration
  | .mk kind name typeName adapterTypeName properties _ nested => {
      kind
      name
      typeName
      adapterTypeName
      properties := properties.map Property.bare
      superTypes := []
      nested := Declaration.bareList nested }
termination_by structural d => d

def Declaration.bareList : List Declaration → List Declaration
  | [] => []
  | d :: rest => Declaration.bare d :: Declaration.bareList rest
termination_by structural ds => ds

end

/-- The registry with its constants undocumented. -/
def Registry.bare (r : Registry) : Registry :=
  { r with constants := r.constants.map fun c => { c with docs := .empty } }

/-- The compiled document without annotations. -/
def CompiledDocument.bare (c : CompiledDocument) : CompiledDocument where
  ns := c.ns
  operations := c.operations.map fun o =>
    { o with declarations := Declaration.bareList o.declarations }
  fragments := c.fragments.map fun f => { f with
    interfaces := Declaration.bareList f.interfaces
    implementations := Declaration.bareList f.implementations }
  registry := c.registry.bare

/-! ### Lists -/

theorem FieldSet.bareList_eq_map (sets : List FieldSet) :
    FieldSet.bareList sets = sets.map FieldSet.bare := by
  induction sets with
  | nil => rfl
  | cons s rest ih => rw [FieldSet.bareList, ih, List.map_cons]

theorem FieldSet.toList_bareOption (s : Option FieldSet) :
    (FieldSet.bareOption s).toList = s.toList.map FieldSet.bare := by
  cases s <;> rfl

theorem Field.bareList_eq_map (fields : List Field) :
    Field.bareList fields = fields.map Field.bare := by
  induction fields with
  | nil => rfl
  | cons f rest ih => rw [Field.bareList, ih, List.map_cons]

theorem Declaration.bareList_eq_map (ds : List Declaration) :
    Declaration.bareList ds = ds.map Declaration.bare := by
  induction ds with
  | nil => rfl
  | cons d rest ih => rw [Declaration.bareList, ih, List.map_cons]

/-! ## Compiling -/

theorem Field.emits_bare (kind : Kind) (f : Field) :
    f.bare.emits kind = (f.emits kind).map fun e => (e.1.bare, e.2) := by
  cases f
  cases kind <;>
    simp [bare, emits, FieldSet.bareList_eq_map, FieldSet.toList_bareOption, Function.comp_def]

/-- Annotations are nothing that a walk goes by. -/
def Recast.bare : Recast where
  field _ := Field.bare
  fieldSet _ := FieldSet.bare
  leaf_field _ f := by cases f; rfl
  responseName_field _ f := by cases f; rfl
  emits_field := Field.emits_bare
  modelName_fieldSet _ s := by cases s; rfl
  path_fieldSet _ s := by cases s; rfl
  fields_fieldSet _ s := by cases s; simp [FieldSet.bare, Field.bareList_eq_map]

theorem Field.property_bare (f : Field) : f.bare.property = f.property.bare := by
  cases f
  rfl

/-- A bare field set is declared as the field set is, but bare. -/
theorem FieldSet.declare_bare (s : FieldSet) (kind : Kind)
    (hnested : s.bare.fields.flatMap (Field.nested kind) =
      (s.fields.flatMap (Field.nested kind)).map Declaration.bare) :
    s.bare.declare kind = (s.declare kind).bare := by
  have hproperties : s.bare.fields.map Field.property =
      (s.fields.map Field.property).map Property.bare := by
    rw [show s.bare.fields = s.fields.map Field.bare from Recast.bare.fields_fieldSet kind s,
      List.map_map, List.map_map]
    exact List.map_congr_left fun f _ => f.property_bare
  rw [s.bare.declare_eq, hnested, hproperties, s.declare_eq, Declaration.bare,
    Declaration.bareList_eq_map]
  cases s
  rfl

theorem Field.nested_bare (f : Field) (kind : Kind) :
    f.bare.nested kind = Declaration.bareList (f.nested kind) := by
  rw [Declaration.bareList_eq_map]
  exact Recast.bare.nested_field FieldSet.declare_bare kind f

theorem Registry.build_bare (ns : String) (scalars : List CustomScalar) :
    Registry.build ns (scalars.map CustomScalar.bare) = (Registry.build ns scalars).bare := by
  simp only [Registry.build, Registry.bare, List.map_map]
  rfl

/-- The bare document is compiled to what the document is compiled to, but bare. -/
theorem Document.compiled_bare (d : Document) : d.bare.compiled = d.compiled.bare := by
  have hoperations : d.bare.operations.map Operation.compile = d.compiled.bare.operations := by
    simp [bare, compiled, CompiledDocument.bare, Operation.compile, Field.nested_bare]
  have hfragments : d.bare.fragments.map Fragment.compile = d.compiled.bare.fragments := by
    simp [bare, compiled, CompiledDocument.bare, Fragment.compile, Field.nested_bare]
  have hregistry := Registry.build_bare d.ns d.customScalars
  rw [compiled, hoperations, hfragments]
  exact congrArg (CompiledDocument.mk _ _ _) hregistry

/-! ## Checking -/

/-- The names of scalars are told without their documentation. -/
theorem checkScalars_bare (scalars : List CustomScalar) :
    checkScalars (scalars.map CustomScalar.bare) = checkScalars scalars := by
  rw [checkScalars, List.map_map]
  rfl

/-- A leaf is looked up by the name and the mapping of a scalar. -/
theorem Leaf.failure?_bare (scalars : List CustomScalar) (l : Leaf) :
    l.failure? (scalars.map CustomScalar.bare) = l.failure? scalars := by
  cases l with
  | customScalar name mappedType =>
    have hfind : (scalars.map CustomScalar.bare).find? (·.name = name) =
        (scalars.find? (·.name = name)).map CustomScalar.bare := by
      rw [List.find?_map]
      rfl
    rw [failure?, failure?, hfind]
    cases scalars.find? (·.name = name) <;> rfl
  | _ => rfl

theorem Obligation.holds_bare (scalars : List CustomScalar) (o : Obligation) :
    o.Holds (scalars.map CustomScalar.bare) ↔ o.Holds scalars := by
  cases o with
  | leaf l => rw [Holds, Holds, Leaf.failure?_bare]
  | path s kind => rfl
  | responseNames s => rfl

theorem Document.trees_bare (d : Document) :
    d.bare.trees = d.trees.map fun t => (t.1.bare, t.2) := by
  simp [bare, trees, List.map_flatMap, List.flatMap_map]

theorem soundTree_bare_iff {scalars : List CustomScalar} {t : Field × Kind} :
    SoundTree (scalars.map CustomScalar.bare) (t.1.bare, t.2) ↔ SoundTree scalars t := by
  have hrecast := Recast.bare.soundTree_iff scalars t.2 t.1
  constructor
  · rintro ⟨hholds, hnodup⟩
    exact hrecast.mp ⟨fun o ho => (o.holds_bare scalars).mp (hholds o ho), hnodup⟩
  · intro h
    obtain ⟨hholds, hnodup⟩ := hrecast.mpr h
    exact ⟨fun o ho => (o.holds_bare scalars).mpr (hholds o ho), hnodup⟩

/-- Trees that agree still do so without their annotations. -/
theorem TreesAgree.bare {t t' : Field × Kind} (h : TreesAgree t t') :
    TreesAgree (t.1.bare, t.2) (t'.1.bare, t'.2) := by
  intro e he e' he' hpath
  have hemission := Recast.bare.emission_field
  rw [show (t.1.bare, t.2).1.emission (t.1.bare, t.2).2 = _ from hemission t.2 t.1] at he
  rw [show (t'.1.bare, t'.2).1.emission (t'.1.bare, t'.2).2 = _ from hemission t'.2 t'.1] at he'
  obtain ⟨s, hs, rfl⟩ := List.mem_map.mp he
  obtain ⟨s', hs', rfl⟩ := List.mem_map.mp he'
  have hpath' : s.1.path = s'.1.path := by
    simpa [Recast.bare.path_fieldSet] using hpath
  exact congrArg FieldSet.bare (h s hs s' hs' hpath')

theorem Document.check_bare {d : Document} (h : d.check = .ok ()) : d.bare.check = .ok () := by
  obtain ⟨hscalars, hsound, hagree⟩ := d.check_eq_ok_iff_trees.mp h
  rw [d.bare.check_eq_ok_iff_trees, d.trees_bare]
  refine ⟨(checkScalars_bare _).trans hscalars, ?_, ?_⟩
  · intro t ht
    obtain ⟨t₀, ht₀, rfl⟩ := List.mem_map.mp ht
    exact soundTree_bare_iff.mpr (hsound t₀ ht₀)
  · intro t ht t' ht'
    obtain ⟨t₀, ht₀, rfl⟩ := List.mem_map.mp ht
    obtain ⟨t₁, ht₁, rfl⟩ := List.mem_map.mp ht'
    exact (hagree t₀ ht₀ t₁ ht₁).bare

/-- An obligation that holds by itself can only fail for its path. -/
theorem Obligation.eq_duplicateModelPath {scalars : List CustomScalar}
    {earlier : List (Nat × Obligation)} {tree : Nat} {o : Obligation} {e : DocumentError}
    (hholds : o.Holds scalars) (h : o.failure? scalars earlier tree = some e) :
    ∃ path, e = .duplicateModelPath path := by
  cases o with
  | leaf l => simp [failure?, show l.failure? scalars = none from hholds] at h
  | path s kind =>
    rw [failure?] at h
    split at h
    · exact ⟨s.path.display, (Option.some.inj h).symm⟩
    · cases h
  | responseNames s => simp [failure?, show s.repeatedName? = none from hholds] at h

/-- A document that is accepted when bare can only be at fault for a path. -/
theorem Document.eq_duplicateModelPath_of_check_bare {d : Document} (h : d.bare.check = .ok ())
    {e : DocumentError} (herror : d.check = .error e) : ∃ path, e = .duplicateModelPath path := by
  obtain ⟨hscalars, hsound, -⟩ := d.bare.check_eq_ok_iff_trees.mp h
  have hscalars' : checkScalars d.customScalars = .ok () :=
    (checkScalars_bare _).symm.trans hscalars
  rw [d.check_of_checkScalars hscalars'] at herror
  have hfailure : firstFailure? d.customScalars [] d.obligations = some e := by
    cases hfirst : firstFailure? d.customScalars [] d.obligations with
    | none => simp [hfirst, verdictOf] at herror
    | some e' => simpa [hfirst, verdictOf] using herror
  obtain ⟨x, hx, before, hfails⟩ := exists_failure?_of_firstFailure? hfailure
  -- the obligation is owed by a tree, which is sound by itself
  rw [obligations, d.owed_eq_map] at hx
  obtain ⟨-, os, hos, ho⟩ := mem_numbered hx
  obtain ⟨t, ht, rfl⟩ := List.mem_map.mp hos
  have hbare : (t.1.bare, t.2) ∈ d.bare.trees := by
    rw [d.trees_bare]
    exact List.mem_map_of_mem ht
  have hholds := (soundTree_bare_iff.mp (hsound _ hbare)).holds x.2 ho
  exact Obligation.eq_duplicateModelPath hholds hfails

/-! ## Inertness -/

/-- An accepted document stays accepted without its annotations, and is compiled to the same, bare.
If it is only for its annotations that a document is not accepted, they make two field sets on one
path differ. -/
theorem annotations_inert (d : Document) :
    (d.check = .ok () → d.bare.check = .ok () ∧
      ∃ c, d.compile = .ok c ∧ d.bare.compile = .ok c.bare) ∧
    (d.bare.check = .ok () → ∀ e, d.check = .error e → ∃ path, e = .duplicateModelPath path) := by
  constructor
  · intro hcheck
    have hbare := d.check_bare hcheck
    refine ⟨hbare, d.compiled, Document.compile_eq_ok_iff.mpr ⟨hcheck, rfl⟩, ?_⟩
    exact Document.compile_eq_ok_iff.mpr ⟨hbare, d.compiled_bare.symm⟩
  · intro hbare e herror
    exact d.eq_duplicateModelPath_of_check_bare hbare herror

/-- A field that is described, deprecated and declared again. -/
def annotatedField (description : String) : Field :=
  ⟨"name", .named .string, some description, some "Use title.", true, [], [], none⟩

/-- An operation on a model of one field, which implements another model. -/
def annotatedOperation (field : Field) : Operation :=
  let dataSet : FieldSet :=
    ⟨"Data", ⟨"com.example", "Query", ["Data"]⟩, [field], [⟨"com.example", "Node", []⟩]⟩
  ⟨"Query", ⟨"data", .named (.model dataSet.path), none, none, false, [], [dataSet], none⟩⟩

/-- The same model once for each description of its field. -/
def annotatedDocument (descriptions : List String) : Document where
  ns := "com.example"
  customScalars := [⟨"Date", none, some "A day.", none⟩]
  operations := descriptions.map fun description => annotatedOperation (annotatedField description)
  fragments := []

/-- Two operations may share a model with all its annotations. If they describe its field in two
ways its path is taken, which without annotations it would not be. -/
theorem annotations_inert_annotatedDocument :
    (annotatedDocument ["A name.", "A name."]).check = .ok () ∧
    (∃ c, (annotatedDocument ["A name.", "A name."]).compile = .ok c ∧
      (annotatedDocument ["A name.", "A name."]).bare.compile = .ok c.bare) ∧
    (annotatedDocument ["A name.", "A title."]).bare.check = .ok () ∧
    ∃ path, (annotatedDocument ["A name.", "A title."]).check =
      .error (.duplicateModelPath path) := by
  have hcheck : (annotatedDocument ["A name.", "A name."]).check = .ok () := rfl
  have hbare : (annotatedDocument ["A name.", "A title."]).bare.check = .ok () := rfl
  obtain ⟨haccepted, -⟩ := annotations_inert (annotatedDocument ["A name.", "A name."])
  obtain ⟨-, hrefused⟩ := annotations_inert (annotatedDocument ["A name.", "A title."])
  obtain ⟨-, hcompiled⟩ := haccepted hcheck
  obtain ⟨path, hpath⟩ := hrefused hbare _ rfl
  exact ⟨hcheck, hcompiled, hbare, path, congrArg Except.error hpath⟩

end SelectionModels
