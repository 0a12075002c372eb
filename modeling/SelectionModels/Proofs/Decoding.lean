import SelectionModels.Proofs.Contents

/-! # Documents that are read

Every shape of a document that fits into the levels of nesting is read as the document. Each record
is an instance of the one theorem about records; the levels carry the induction over selections.

* `Reader.ReadsShape`: what a reader takes, for the plain shapes and for lists;
* `Document.readsShape_reader` and its like: documents and their parts;
* `Document.decodeText_of_written`: any text of any shape of a document.
-/

namespace SelectionModels

open Json Reader

namespace Json

/-! ## Plain shapes -/

namespace Reader

variable {α β : Type} {r : Reader α} {levels : Nat}

/-- What is made of a value that is read from every shape. -/
theorem ReadsShape.map {shape : Shape} {result : α} (f : α → β)
    (h : r.ReadsShape levels shape result) : (f <$> r).ReadsShape levels shape (f result) :=
  fun _ _ hshape hdepth => (h hshape hdepth).map f

/-- A value that may be written in one way only. -/
theorem Reads.readsShape {v : Value} {result : α} (h : r.Reads v result) :
    r.ReadsShape levels (.exactly v) result := by
  rintro core written ⟨rfl, rfl⟩ _
  exact h

/-- No object is so flat that no bracket has to be opened. -/
theorem readsShape_object_zero (r : Reader α) (extensible : Prop) (slots : List Slot)
    (result : α) : r.ReadsShape 0 (.object extensible slots) result := by
  rintro _ _ ⟨⟩ hdepth
  simp [Value.depth] at hdepth

/-- A list does not fit where no bracket may be opened. -/
theorem readsShape_list_zero (r : Reader α) (shapes : List Shape) (result : α) :
    r.ReadsShape 0 (.list shapes) result := by
  rintro _ _ ⟨⟩ hdepth
  simp [Value.depth] at hdepth

theorem readsShape_strings (names : List String) (levels : Nat) :
    (ModelPath.textsReader levels).ReadsShape levels (.exactly (.strings names)) names := by
  rintro _ _ ⟨rfl, rfl⟩ hdepth
  cases levels with
  | zero => simp [Value.strings, Value.depth] at hdepth
  | succ levels =>
    refine reads_listOf ?_
    rw [List.forall₂_map_left_iff, List.forall₂_same]
    exact fun s _ => reads_text s

/-- Every shape of an object starts with a brace. -/
theorem opening_of_object {extensible : Prop} {slots : List Slot} {core written : Value}
    (h : Shape.object extensible slots core written) : opening written = .brace := by
  cases h
  rfl

/-- A choice of a value by name. -/
theorem readsShape_choice {κ : Type} {choices : List (String × κ)} {name : String} {chosen : κ}
    (hchosen : choices.lookup name = some chosen) {value : κ → Reader α} {shape : Shape}
    {result : α} (h : (value chosen).ReadsShape levels shape result) :
    (choice choices (some value)).ReadsShape (levels + 1) (.object False [⟨name, shape, False⟩])
      result := by
  intro core written hshape hdepth
  obtain ⟨_, _, hvalue, rfl, rfl⟩ := Shape.object_single hshape
  exact reads_choice hchosen
    (h hvalue (Value.depth_object_le_iff.mp hdepth _ List.mem_cons_self))

/-! ## Lists -/

/-- The items of a list have one level less than the list. -/
theorem forall₂_of_items {shape : α → Shape} {xs : List α} {cores writtens : List Value}
    (h : ∀ x ∈ xs, r.ReadsShape levels (shape x) x)
    (hitems : Shape.Items (xs.map shape) cores writtens)
    (hdepth : ∀ v ∈ cores, v.depth ≤ levels) : List.Forall₂ r.Reads writtens xs := by
  induction xs generalizing cores writtens with
  | nil => cases hitems; exact .nil
  | cons x xs ih =>
    cases hitems with
    | cons hshape hitems =>
      obtain ⟨hx, hxs⟩ := List.forall_mem_cons.mp h
      obtain ⟨hfirst, hlater⟩ := List.forall_mem_cons.mp hdepth
      exact .cons (hx hshape hfirst) (ih hxs hitems hlater)

/-- A list is one level around its items. -/
theorem readsShape_listOf {shape : α → Shape} {xs : List α}
    (h : ∀ x ∈ xs, r.ReadsShape levels (shape x) x) :
    (listOf (some r)).ReadsShape (levels + 1) (.list (xs.map shape)) xs := by
  rintro _ _ ⟨hitems⟩ hdepth
  exact reads_listOf (forall₂_of_items h hitems (Value.depth_array_le_iff.mp hdepth))

/-- A list is read at any level, if its items are. -/
theorem readsShape_listReader {reader : Nat → Reader α} {shape : α → Shape} (xs : List α)
    (h : ∀ levels, ∀ x ∈ xs, (reader levels).ReadsShape levels (shape x) x) (levels : Nat) :
    (listReader reader levels).ReadsShape levels (.list (xs.map shape)) xs := by
  cases levels with
  | zero => exact readsShape_list_zero _ _ _
  | succ levels => exact readsShape_listOf (h levels)

end Reader

end Json

/-! ## Paths -/

namespace ModelPath

/-- What the members of a path add. -/
def parts (p : ModelPath) : List (ValuePart Parts) := [
  ⟨⟨"namespace", .exactly (.string p.ns), False⟩, fun q => { q with ns := some p.ns }⟩,
  ⟨⟨"elements", .exactly (.strings p.elements), False⟩,
    fun q => { q with elements := some p.elements }⟩]

/-- No two members of a path add to the same part of it. -/
theorem independent_parts (p : ModelPath) : Independent p.parts where
  nodup := by simp [parts]
  commute := by simp [parts]

/-- Together the members of a path make it, in any order. -/
theorem makes_parts (p : ModelPath) : Makes p.parts .blank Parts.build (p.ns, p.elements) :=
  p.independent_parts.makes (by simp [parts]) rfl

/-- Every shape of a path is read as the path. -/
theorem readsShape_reader (extensible : Prop) (p : ModelPath) (levels : Nat) :
    (reader levels).ReadsShape levels (p.Written extensible) p := by
  cases levels with
  | zero => exact readsShape_object_zero _ _ _ _
  | succ levels =>
    have hfits : (recordOf Reader.text (textsReader levels)).Fits p.parts levels
        (p.ns, p.elements) :=
      ⟨p.independent_parts, .cons ⟨rfl, (reads_text _).readsShape.map _⟩
        (.cons ⟨rfl, (readsShape_strings _ levels).map _⟩ .nil), p.makes_parts⟩
    intro core written hshape hdepth
    exact (hfits.reads extensible title hshape hdepth).bind fun _ => rfl

/-- A path that is made from content. -/
theorem madeOfShape_ofContent (p : ModelPath) (levels : Nat) :
    MadeOfShape ofContent levels (p.Written False) p := by
  cases levels with
  | zero => exact .object_zero _ _ _
  | succ levels =>
    have hfits : contentRecord.Fits p.parts levels (p.ns, p.elements) :=
      ⟨p.independent_parts, .cons ⟨rfl, (MadeOfShape.text _ levels).map _⟩
        (.cons ⟨rfl, (MadeOfShape.texts _ levels).map _⟩ .nil), p.makes_parts⟩
    intro core written hshape hdepth
    obtain ⟨c, hread, hparts⟩ := hfits.madeOfShape hshape hdepth
    refine ⟨c, hread, ?_⟩
    rw [ofContent, hparts]
    rfl

end ModelPath

/-! ## Leaves and type references -/

namespace Leaf

/-- A leaf is read in two steps: its kind with the content beside it, and then what the kind makes
of the content. -/
theorem readsShape_of_tagged {leaf : Leaf} (tag : Tag) {levels : Nat}
    (h : ∀ ⦃core written : Value⦄, leaf.Written core written → core.depth ≤ levels + 1 →
      ∃ c, (taggedReader (levels + 1)).Reads written (tag, c) ∧ ofContent tag c = .ok leaf) :
    (reader (levels + 1)).ReadsShape (levels + 1) leaf.Written leaf := by
  intro core written hshape hdepth
  obtain ⟨c, hread, hleaf⟩ := h hshape hdepth
  refine hread.bind fun _ => ?_
  simp [hleaf]

/-- A kind without parts of its own. -/
theorem readsShape_builtin {leaf : Leaf} (kind : String)
    (hkind : tags.lookup kind = some (.builtin leaf))
    (hwritten : leaf.Written = .object False [⟨"kind", .exactly (.string kind), False⟩])
    (levels : Nat) : (reader (levels + 1)).ReadsShape (levels + 1) leaf.Written leaf := by
  refine readsShape_of_tagged (.builtin leaf) fun core written hshape _ => ⟨.object [], ?_, rfl⟩
  rw [hwritten] at hshape
  obtain ⟨_, v, ⟨-, rfl⟩, -, rfl⟩ := Shape.object_single hshape
  have hcontents : ContentsOf levels ([] ++ []) [] := .nil
  exact reads_tagged hkind hcontents (by simp) _

/-- What the members of an enum add. -/
def enumParts (ns name : String) : List (ValuePart EnumParts) := [
  ⟨⟨"namespace", .exactly (.string ns), False⟩, fun q => { q with ns := some ns }⟩,
  ⟨⟨"name", .exactly (.string name), False⟩, fun q => { q with name := some name }⟩]

/-- The members of an enum are read as it, in any order. -/
theorem fits_enumParts (ns name : String) (levels : Nat) :
    enumRecord.Fits (enumParts ns name) levels (.enum ns name) := by
  have hindependent : Independent (enumParts ns name) :=
    ⟨by simp [enumParts], by simp [enumParts]⟩
  exact ⟨hindependent, .cons ⟨rfl, (MadeOfShape.text _ levels).map _⟩
    (.cons ⟨rfl, (MadeOfShape.text _ levels).map _⟩ .nil),
    hindependent.makes (by simp [enumParts]) rfl⟩

/-- What the members of a custom scalar add. -/
def customScalarParts (name : String) (mappedType : Option String) :
    List (ValuePart CustomScalarParts) := [
  ⟨⟨"name", .exactly (.string name), False⟩, fun q => { q with name := some name }⟩,
  ⟨⟨"mapped_type", .exactly (.optional mappedType), mappedType = none⟩,
    fun q => { q with mappedType := some mappedType }⟩]

/-- So are those of a custom scalar, whose mapped type may be left out. -/
theorem fits_customScalarParts (name : String) (mappedType : Option String) (levels : Nat) :
    customScalarRecord.Fits (customScalarParts name mappedType) levels
      (.customScalar name mappedType) := by
  refine ⟨⟨by simp [customScalarParts], by simp [customScalarParts]⟩,
    .cons ⟨rfl, (MadeOfShape.text _ levels).map _⟩
      (.cons ⟨rfl, (MadeOfShape.optionalText _ levels).map _⟩ .nil), ?_⟩
  -- a mapped type that is left out is not known to be missing, and comes to the same
  rintro _ (_ | @⟨_, _, _, _, _, _, hkept⟩ | ⟨⟨⟩, _⟩)
  obtain _ | ⟨_, ⟨⟩⟩ | ⟨rfl, ⟨⟩⟩ := hkept <;> rfl

/-- What the member of a model adds. -/
def modelParts (path : ModelPath) : List (ValuePart (Option ModelPath)) :=
  [⟨⟨"path", path.Written False, False⟩, fun _ => some path⟩]

/-- So is that of a model, whose path is read from content. -/
theorem fits_modelParts (path : ModelPath) (levels : Nat) :
    modelRecord.Fits (modelParts path) levels (.model path) := by
  have hindependent : Independent (modelParts path) :=
    ⟨by simp [modelParts], by simp [modelParts]⟩
  exact ⟨hindependent, .cons ⟨rfl, (path.madeOfShape_ofContent levels).map _⟩ .nil,
    hindependent.makes (by simp [modelParts]) rfl⟩

/-- Every shape of a leaf is read as the leaf; each kind has its own members beside `kind`. -/
theorem readsShape_reader (leaf : Leaf) (levels : Nat) :
    (reader levels).ReadsShape levels leaf.Written leaf := by
  cases levels with
  | zero => cases leaf <;> exact readsShape_object_zero _ _ _ _
  | succ levels =>
    cases leaf with
    | string => exact readsShape_builtin "string" rfl rfl levels
    | int => exact readsShape_builtin "int" rfl rfl levels
    | float => exact readsShape_builtin "float" rfl rfl levels
    | boolean => exact readsShape_builtin "boolean" rfl rfl levels
    | id => exact readsShape_builtin "id" rfl rfl levels
    | «enum» ns name =>
      have hkind : tags.lookup "enum" = some .enum := rfl
      exact readsShape_of_tagged .enum fun _ _ hshape hdepth =>
        (fits_enumParts ns name levels).reads_tagged hkind (by simp [enumParts]) hshape hdepth _
    | customScalar name mappedType =>
      have hkind : tags.lookup "custom_scalar" = some .customScalar := rfl
      exact readsShape_of_tagged .customScalar fun _ _ hshape hdepth =>
        (fits_customScalarParts name mappedType levels).reads_tagged hkind
          (by simp [customScalarParts]) hshape hdepth _
    | model path =>
      have hkind : tags.lookup "model" = some .model := rfl
      exact readsShape_of_tagged .model fun _ _ hshape hdepth =>
        (fits_modelParts path levels).reads_tagged hkind (by simp [modelParts]) hshape hdepth _

end Leaf

/-- Every layer of a type reference is one level around what it wraps. -/
theorem TypeRef.readsShape_reader (t : TypeRef) (levels : Nat) :
    (reader levels).ReadsShape levels t.Written t := by
  induction t generalizing levels with
  | named leaf =>
    cases levels with
    | zero => exact readsShape_object_zero _ _ _ _
    | succ levels =>
      have hchosen : forms.lookup "named" = some .named := rfl
      exact readsShape_choice hchosen ((leaf.readsShape_reader levels).map _)
  | nullable inner ih =>
    cases levels with
    | zero => exact readsShape_object_zero _ _ _ _
    | succ levels =>
      have hchosen : forms.lookup "nullable" = some (.wrapped .nullable) := rfl
      exact readsShape_choice hchosen ((ih levels).map _)
  | list inner ih =>
    cases levels with
    | zero => exact readsShape_object_zero _ _ _ _
    | succ levels =>
      have hchosen : forms.lookup "list" = some (.wrapped .list) := rfl
      exact readsShape_choice hchosen ((ih levels).map _)

/-! ## Selections -/

/-- What the members of a field add. -/
def Field.parts (f : Field) : List (ValuePart Field.Parts) := [
  ⟨⟨"response_name", .exactly (.string f.responseName), False⟩,
    fun q => { q with responseName := some f.responseName }⟩,
  ⟨⟨"type", f.type.Written, False⟩, fun q => { q with type := some f.type }⟩,
  ⟨⟨"description", .exactly (.optional f.description), f.description = none⟩,
    fun q => { q with description := f.description }⟩,
  ⟨⟨"deprecation_reason", .exactly (.optional f.deprecationReason), f.deprecationReason = none⟩,
    fun q => { q with deprecationReason := f.deprecationReason }⟩,
  ⟨⟨"override", .exactly (.bool f.isOverride), f.isOverride = false⟩,
    fun q => { q with isOverride := f.isOverride }⟩,
  ⟨⟨"field_sets", .list (FieldSet.shapes f.fieldSets), f.fieldSets = []⟩,
    fun q => { q with fieldSets := f.fieldSets }⟩,
  ⟨⟨"implementation_field_sets", .list (FieldSet.shapes f.implementationFieldSets),
    f.implementationFieldSets = []⟩,
    fun q => { q with implementationFieldSets := f.implementationFieldSets }⟩,
  ⟨⟨"base_field_set", FieldSet.OptionWritten f.baseFieldSet, f.baseFieldSet = none⟩,
    fun q => { q with baseFieldSet := f.baseFieldSet }⟩]

/-- What the members of a field set add. -/
def FieldSet.parts (s : FieldSet) : List (ValuePart FieldSet.Parts) := [
  ⟨⟨"model_name", .exactly (.string s.modelName), False⟩,
    fun q => { q with modelName := some s.modelName }⟩,
  ⟨⟨"full_path", s.path.Written True, False⟩, fun q => { q with path := some s.path }⟩,
  ⟨⟨"fields", .list (Field.shapes s.fields), s.fields = []⟩,
    fun q => { q with fields := s.fields }⟩,
  ⟨⟨"implements", .list (s.implements.map (ModelPath.Written True)), s.implements = []⟩,
    fun q => { q with implements := s.implements }⟩]

/-- The shapes of a field are those of its members. -/
theorem Field.written_eq (f : Field) : f.Written = .object True (f.parts.map (·.toSlot)) := by
  cases f
  rfl

/-- The shapes of a field set are those of its members. -/
theorem FieldSet.written_eq (s : FieldSet) : s.Written = .object True (s.parts.map (·.toSlot)) := by
  cases s
  rfl

theorem Field.shapes_eq_map (fields : List Field) :
    Field.shapes fields = fields.map Field.Written := by
  induction fields with
  | nil => rfl
  | cons f fields ih => rw [Field.shapes, ih, List.map_cons]

theorem FieldSet.shapes_eq_map (sets : List FieldSet) :
    FieldSet.shapes sets = sets.map FieldSet.Written := by
  induction sets with
  | nil => rfl
  | cons s sets ih => rw [FieldSet.shapes, ih, List.map_cons]

/-- No two members of a field add to the same part of it. -/
theorem Field.independent_parts (f : Field) : Independent f.parts where
  nodup := by simp [parts]
  commute := by simp [parts]

theorem FieldSet.independent_parts (s : FieldSet) : Independent s.parts where
  nodup := by simp [parts]
  commute := by simp [parts]

/-- Together the members of a field make it, with those left out that may be. -/
theorem Field.makes_parts (f : Field) : Makes f.parts .blank Field.Parts.build f := by
  refine f.independent_parts.makes ?_ ?_
  · simp +contextual [parts, Field.Parts.blank]
  · cases f
    rfl

/-- Together the members of a field set make it, with those left out that may be. -/
theorem FieldSet.makes_parts (s : FieldSet) : Makes s.parts .blank FieldSet.Parts.build s := by
  refine s.independent_parts.makes ?_ ?_
  · simp +contextual [parts, FieldSet.Parts.blank]
  · cases s
    rfl

/-- Every shape of a selection is read where at most `levels` brackets may be opened. -/
structure SelectionsRead (levels : Nat) : Prop where
  field : ∀ f : Field, (Field.reader levels).ReadsShape levels f.Written f
  fieldSet : ∀ s : FieldSet, (FieldSet.reader levels).ReadsShape levels s.Written s
  fields : ∀ fields : List Field,
    (Field.listReader levels).ReadsShape levels (.list (Field.shapes fields)) fields
  fieldSets : ∀ sets : List FieldSet,
    (FieldSet.listReader levels).ReadsShape levels (.list (FieldSet.shapes sets)) sets

namespace SelectionsRead

variable {levels : Nat}

/-- Without a bracket there is no selection. -/
theorem zero : SelectionsRead 0 where
  field f := f.written_eq ▸ readsShape_object_zero _ _ _ _
  fieldSet s := s.written_eq ▸ readsShape_object_zero _ _ _ _
  fields _ := readsShape_list_zero _ _ _
  fieldSets _ := readsShape_list_zero _ _ _

/-- A base field set is there, or `null` stands for it. -/
theorem optionalFieldSet (h : SelectionsRead levels) (s : Option FieldSet) :
    (Reader.optional (FieldSet.reader levels)).ReadsShape levels (FieldSet.OptionWritten s) s := by
  cases s with
  | none => exact (reads_optional_null _).readsShape
  | some s =>
    intro core written hshape hdepth
    have hread := h.fieldSet s hshape hdepth
    rw [FieldSet.OptionWritten, s.written_eq] at hshape
    exact reads_optional hread (by simp [opening_of_object hshape])

theorem paths (levels : Nat) (paths : List ModelPath) :
    (ModelPath.listReader levels).ReadsShape levels
      (.list (paths.map (ModelPath.Written True))) paths := by
  have hlist := readsShape_listReader paths
    (fun levels p _ => p.readsShape_reader True levels) levels
  cases levels <;> exact hlist

/-- One more bracket around what is read. -/
theorem succ (h : SelectionsRead levels) : SelectionsRead (levels + 1) where
  field f := by
    have hfits : (Field.recordOf (TypeRef.reader levels) (.delay fun _ => FieldSet.reader levels)
        (.delay fun _ => FieldSet.listReader levels)).Fits f.parts levels f :=
      ⟨f.independent_parts, .cons ⟨rfl, (reads_text _).readsShape.map _⟩
        (.cons ⟨rfl, (f.type.readsShape_reader levels).map _⟩
        (.cons ⟨rfl, (reads_optionalText _).readsShape.map _⟩
        (.cons ⟨rfl, (reads_optionalText _).readsShape.map _⟩
        (.cons ⟨rfl, (reads_flag _).readsShape.map _⟩
        (.cons ⟨rfl, (h.fieldSets _).map _⟩
        (.cons ⟨rfl, (h.fieldSets _).map _⟩
        (.cons ⟨rfl, (h.optionalFieldSet _).map _⟩ .nil))))))), f.makes_parts⟩
    rw [f.written_eq]
    exact hfits.reads True _
  fieldSet s := by
    have hfits : (FieldSet.recordOf (ModelPath.reader levels)
        (.delay fun _ => Field.listReader levels)
        (ModelPath.listReader levels)).Fits s.parts levels s :=
      ⟨s.independent_parts, .cons ⟨rfl, (reads_text _).readsShape.map _⟩
        (.cons ⟨rfl, (s.path.readsShape_reader True levels).map _⟩
        (.cons ⟨rfl, (h.fields _).map _⟩
        (.cons ⟨rfl, (paths levels _).map _⟩ .nil))), s.makes_parts⟩
    rw [s.written_eq]
    exact hfits.reads True _
  fields fields := by
    rw [Field.shapes_eq_map]
    exact readsShape_listOf fun f _ => h.field f
  fieldSets sets := by
    rw [FieldSet.shapes_eq_map]
    exact readsShape_listOf fun s _ => h.fieldSet s

/-- Selections are read at every level, by induction on the levels: what is within a selection has
one level less. -/
theorem all (levels : Nat) : SelectionsRead levels := by
  induction levels with
  | zero => exact zero
  | succ levels ih => exact ih.succ

end SelectionsRead

/-! ## Documents -/

/-- What the members of a custom scalar add. -/
def CustomScalar.parts (s : CustomScalar) : List (ValuePart CustomScalar.Parts) := [
  ⟨⟨"name", .exactly (.string s.name), False⟩, fun q => { q with name := some s.name }⟩,
  ⟨⟨"mapped_type", .exactly (.optional s.mappedType), s.mappedType = none⟩,
    fun q => { q with mappedType := s.mappedType }⟩,
  ⟨⟨"description", .exactly (.optional s.description), s.description = none⟩,
    fun q => { q with description := s.description }⟩,
  ⟨⟨"deprecation_reason", .exactly (.optional s.deprecationReason), s.deprecationReason = none⟩,
    fun q => { q with deprecationReason := s.deprecationReason }⟩]

theorem CustomScalar.readsShape_reader (s : CustomScalar) (levels : Nat) :
    (reader levels).ReadsShape levels s.Written s := by
  cases levels with
  | zero => exact readsShape_object_zero _ _ _ _
  | succ levels =>
    have hindependent : Independent s.parts := ⟨by simp [parts], by simp [parts]⟩
    have homitted : ∀ p ∈ s.parts, p.omittable → p.add record.blank = record.blank := by
      simp +contextual [parts, record]
    have hfits : record.Fits s.parts levels s :=
      ⟨hindependent, .cons ⟨rfl, (reads_text _).readsShape.map _⟩
        (.cons ⟨rfl, (reads_optionalText _).readsShape.map _⟩
        (.cons ⟨rfl, (reads_optionalText _).readsShape.map _⟩
        (.cons ⟨rfl, (reads_optionalText _).readsShape.map _⟩ .nil))),
        hindependent.makes homitted rfl⟩
    exact hfits.reads True title

/-- What the members of a named data field add. -/
def namedFieldParts (name : String) (dataField : Field) : List (ValuePart NamedFieldParts) := [
  ⟨⟨"name", .exactly (.string name), False⟩, fun q => { q with name := some name }⟩,
  ⟨⟨"data_field", dataField.Written, False⟩, fun q => { q with dataField := some dataField }⟩]

/-- A name and a data field, which both operations and fragments are. -/
theorem readsShape_namedFieldReader {α : Type} (description : String) (make : String → Field → α)
    (name : String) (dataField : Field) (levels : Nat) :
    (namedFieldReader description make levels).ReadsShape levels (namedFieldWritten name dataField)
      (make name dataField) := by
  cases levels with
  | zero => exact readsShape_object_zero _ _ _ _
  | succ levels =>
    have hindependent : Independent (namedFieldParts name dataField) :=
      ⟨by simp [namedFieldParts], by simp [namedFieldParts]⟩
    have hfits : (namedFieldRecord make (Field.reader levels)).Fits
        (namedFieldParts name dataField) levels (make name dataField) :=
      ⟨hindependent, .cons ⟨rfl, (reads_text _).readsShape.map _⟩
        (.cons ⟨rfl, ((SelectionsRead.all levels).field dataField).map _⟩ .nil),
        hindependent.makes (by simp [namedFieldParts]) rfl⟩
    exact hfits.reads True description

/-- What the members of a document add. -/
def Document.parts (d : Document) : List (ValuePart Document.Parts) := [
  ⟨⟨"namespace", .exactly (.string d.ns), False⟩, fun q => { q with ns := some d.ns }⟩,
  ⟨⟨"custom_scalars", .list (d.customScalars.map CustomScalar.Written), d.customScalars = []⟩,
    fun q => { q with customScalars := d.customScalars }⟩,
  ⟨⟨"operations", .list (d.operations.map fun o => namedFieldWritten o.name o.dataField),
    d.operations = []⟩, fun q => { q with operations := d.operations }⟩,
  ⟨⟨"fragments", .list (d.fragments.map fun f => namedFieldWritten f.name f.dataField),
    d.fragments = []⟩, fun q => { q with fragments := d.fragments }⟩]

/-- Every shape of a document that does not nest too deep is read as the document. -/
theorem Document.readsShape_reader (d : Document) (levels : Nat) :
    (reader levels).ReadsShape levels d.Written d := by
  cases levels with
  | zero => exact readsShape_object_zero _ _ _ _
  | succ levels =>
    have hindependent : Independent d.parts := ⟨by simp [parts], by simp [parts]⟩
    have hscalars := readsShape_listReader d.customScalars
      (fun levels s _ => s.readsShape_reader levels) levels
    have hoperations := readsShape_listReader d.operations
      (fun levels o _ => readsShape_namedFieldReader "struct IrOperation" Operation.mk o.name
        o.dataField levels) levels
    have hfragments := readsShape_listReader d.fragments
      (fun levels f _ => readsShape_namedFieldReader "struct IrFragment" Fragment.mk f.name
        f.dataField levels) levels
    have hfits : (recordOf (listReader CustomScalar.reader levels)
        (listReader Operation.reader levels) (listReader Fragment.reader levels)).Fits
        d.parts levels d :=
      ⟨hindependent, .cons ⟨rfl, (reads_text _).readsShape.map _⟩
        (.cons ⟨rfl, hscalars.map _⟩ (.cons ⟨rfl, hoperations.map _⟩
        (.cons ⟨rfl, hfragments.map _⟩ .nil))),
        hindependent.makes (by simp +contextual [parts, recordOf]) rfl⟩
    exact hfits.reads True title

/-- Every text of every shape of a document that does not nest too deep is read as the document. -/
theorem Document.decodeText_of_written {d : Document} {core written : Value} {text : String}
    (hwritten : d.Written core written) (hdepth : core.depth ≤ nestingLimit)
    (htext : written.SpelledAs text) : decodeText Document.reader text = .ok d := by
  have hread := d.readsShape_reader nestingLimit hwritten hdepth blank_empty htext ends_nil
  rw [textBytes_empty, List.nil_append, List.append_nil] at hread
  rw [decodeText, decode, hread]

end SelectionModels
