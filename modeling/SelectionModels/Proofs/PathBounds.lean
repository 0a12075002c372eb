import SelectionModels.CompiledDocument
import SelectionModels.Proofs.EmptiedPaths

/-! # Chains that are indexed

The root of a path is the element at index 0 of its chain, and what is below the root starts at
index 1. Where the chain has no elements, neither index is in bounds, and nothing can be generated.
No such chain is ever decoded.

* `indexedAdapter`: the name of an adapter, from indices into a chain;
* `FieldSet.declareWith`: declarations whose adapters may have no name;
* `Format.Generates`: everything that is generated from a value is generated with indices;
* `no_empty_paths`: so it is with every decoded value, and decoding fails where a path has lost its
  elements.
-/

namespace SelectionModels

open Json Reader Tree

/-! ## Indices -/

/-- The name of the adapter of a model with the given chain, unless an index is out of bounds. -/
def indexedAdapter (ns : String) (elements : List String) : Option QualifiedName := do
  let root ← elements[0]?
  let descendants ← if 1 ≤ elements.length then some (elements.drop 1) else none
  return ⟨Name.adapterNamespace ns, Name.responseAdapter root :: descendants⟩

/-- Where a path has elements the indices are within bounds. -/
theorem indexedAdapter_elements (p : ModelPath) :
    indexedAdapter p.ns p.elements = some p.adapterTypeName := by
  simp [indexedAdapter, ModelPath.elements, ModelPath.adapterTypeName]

/-! ## Generation that may stop -/

section With

variable (adapter : ModelPath → Option QualifiedName)

mutual

/-- The declaration of a field set, unless an adapter has no name. -/
def FieldSet.declareWith (kind : Kind) : FieldSet → Option Declaration
  | .mk modelName path fields implements => do
    let nested ← Field.nestedListWith kind fields
    let adapterTypeName ← adapter path
    return {
      kind
      name := modelName
      typeName := path.typeName
      adapterTypeName
      properties := fields.map Field.property
      superTypes := implements.map ModelPath.typeName
      nested }
termination_by structural s => s

/-- The declarations that a field contributes, unless an adapter has no name. -/
def Field.nestedWith (kind : Kind) : Field → Option (List Declaration)
  | .mk _ _ _ _ _ fieldSets implementationFieldSets baseFieldSet =>
    match kind with
    | .interface => FieldSet.declareOptionWith .interface baseFieldSet
    | .implementation => do
      let interfaces ← FieldSet.declareListWith .interface fieldSets
      let implementations ← FieldSet.declareListWith .implementation implementationFieldSets
      return interfaces ++ implementations
termination_by structural f => f

def FieldSet.declareOptionWith (kind : Kind) : Option FieldSet → Option (List Declaration)
  | none => some []
  | some s => ([·]) <$> FieldSet.declareWith kind s
termination_by structural s => s

def FieldSet.declareListWith (kind : Kind) : List FieldSet → Option (List Declaration)
  | [] => some []
  | s :: rest => do
    let d ← FieldSet.declareWith kind s
    let later ← FieldSet.declareListWith kind rest
    return d :: later
termination_by structural sets => sets

def Field.nestedListWith (kind : Kind) : List Field → Option (List Declaration)
  | [] => some []
  | f :: rest => do
    let nested ← Field.nestedWith kind f
    let later ← Field.nestedListWith kind rest
    return nested ++ later
termination_by structural fields => fields

end

def Operation.compileWith (o : Operation) : Option CompiledOperation := do
  return ⟨o.name, ← o.dataField.nestedWith adapter .implementation⟩

def Fragment.compileWith (f : Fragment) : Option CompiledFragment := do
  let interfaces ← f.dataField.nestedWith adapter .interface
  let implementations ← f.dataField.nestedWith adapter .implementation
  return ⟨f.name, interfaces, implementations⟩

/-- The outcome for a document, unless an adapter has no name. Nothing is generated from a document
with which something is wrong. -/
def Document.compileWith (d : Document) : Option (Except DocumentError CompiledDocument) :=
  match d.check, Registry.ofScalars d.ns d.customScalars with
  | .error e, _ => some (.error e)
  | .ok _, .error e => some (.error e)
  | .ok _, .ok registry => do
    let operations ← d.operations.mapM (Operation.compileWith adapter)
    let fragments ← d.fragments.mapM (Fragment.compileWith adapter)
    return .ok ⟨d.ns, operations, fragments, registry⟩

end With

/-! ## Generation that does not stop -/

section Names

variable {adapter : ModelPath → Option QualifiedName}

/-- The adapters of some paths have their names. -/
def Names (adapter : ModelPath → Option QualifiedName) (paths : List ModelPath) : Prop :=
  ∀ p ∈ paths, adapter p = some p.adapterTypeName

mutual

/-- Only paths in the value are asked for a name. -/
theorem FieldSet.declareWith_eq_some (kind : Kind) : (s : FieldSet) → Names adapter s.paths →
    s.declareWith adapter kind = some (s.declare kind)
  | .mk modelName path fields implements, h => by
    have hpath : adapter path = some path.adapterTypeName := h path (by simp [FieldSet.paths])
    have hfields : Names adapter (Field.listPaths fields) :=
      fun p hp => h p (by simp [FieldSet.paths, hp])
    rw [FieldSet.declareWith, Field.nestedListWith_eq_some kind fields hfields, hpath]
    rfl
termination_by structural s => s

/-- A field whose paths all have adapters contributes the declarations that it contributes
anyway. -/
theorem Field.nestedWith_eq_some (kind : Kind) : (f : Field) → Names adapter f.paths →
    f.nestedWith adapter kind = some (f.nested kind)
  | .mk _ type _ _ _ fieldSets implementationFieldSets baseFieldSet, h => by
    obtain ⟨hsets, hbase⟩ := List.forall_mem_append.mp h
    obtain ⟨hsets, himplementations⟩ := List.forall_mem_append.mp hsets
    obtain ⟨-, hinterfaces⟩ := List.forall_mem_append.mp hsets
    cases kind with
    | interface => exact FieldSet.declareOptionWith_eq_some .interface baseFieldSet hbase
    | implementation =>
      rw [Field.nestedWith, FieldSet.declareListWith_eq_some .interface fieldSets hinterfaces,
        FieldSet.declareListWith_eq_some .implementation implementationFieldSets himplementations]
      rfl
termination_by structural f => f

theorem FieldSet.declareOptionWith_eq_some (kind : Kind) : (s : Option FieldSet) →
    Names adapter (FieldSet.optionPaths s) →
      FieldSet.declareOptionWith adapter kind s = some (FieldSet.declareOption kind s)
  | none, _ => rfl
  | some s, h => by
    rw [FieldSet.declareOptionWith, FieldSet.declareWith_eq_some kind s h]
    rfl
termination_by structural s => s

theorem FieldSet.declareListWith_eq_some (kind : Kind) : (sets : List FieldSet) →
    Names adapter (FieldSet.listPaths sets) →
      FieldSet.declareListWith adapter kind sets = some (FieldSet.declareList kind sets)
  | [], _ => rfl
  | s :: rest, h => by
    obtain ⟨hs, hrest⟩ := List.forall_mem_append.mp h
    rw [FieldSet.declareListWith, FieldSet.declareWith_eq_some kind s hs,
      FieldSet.declareListWith_eq_some kind rest hrest]
    rfl
termination_by structural sets => sets

theorem Field.nestedListWith_eq_some (kind : Kind) : (fields : List Field) →
    Names adapter (Field.listPaths fields) →
      Field.nestedListWith adapter kind fields = some (Field.nestedList kind fields)
  | [], _ => rfl
  | f :: rest, h => by
    obtain ⟨hf, hrest⟩ := List.forall_mem_append.mp h
    rw [Field.nestedListWith, Field.nestedWith_eq_some kind f hf,
      Field.nestedListWith_eq_some kind rest hrest]
    rfl
termination_by structural fields => fields

end

theorem Operation.compileWith_eq_some {o : Operation} (h : Names adapter o.dataField.paths) :
    o.compileWith adapter = some o.compile := by
  rw [Operation.compileWith, Field.nestedWith_eq_some .implementation o.dataField h]
  rfl

theorem Fragment.compileWith_eq_some {f : Fragment} (h : Names adapter f.dataField.paths) :
    f.compileWith adapter = some f.compile := by
  rw [Fragment.compileWith, Field.nestedWith_eq_some .interface f.dataField h,
    Field.nestedWith_eq_some .implementation f.dataField h]
  rfl

/-- Where nothing fails a list is gone through from end to end. -/
theorem mapM_eq_some_map {α β : Type} {f : α → Option β} {g : α → β} {xs : List α}
    (h : ∀ x ∈ xs, f x = some (g x)) : xs.mapM f = some (xs.map g) := by
  induction xs with
  | nil => rfl
  | cons x xs ih =>
    obtain ⟨hx, hxs⟩ := List.forall_mem_cons.mp h
    rw [List.mapM_cons, hx, ih hxs]
    rfl

/-- A document whose paths all have adapters is compiled as it is anyway. -/
theorem Document.compileWith_eq_some {d : Document} (h : Names adapter d.paths) :
    d.compileWith adapter = some d.compile := by
  obtain ⟨hoperations, hfragments⟩ := List.forall_mem_append.mp h
  have hoperation : ∀ o ∈ d.operations, o.compileWith adapter = some o.compile := fun o ho =>
    Operation.compileWith_eq_some fun p hp => hoperations p (List.mem_flatMap.mpr ⟨o, ho, hp⟩)
  have hfragment : ∀ f ∈ d.fragments, f.compileWith adapter = some f.compile := fun f hf =>
    Fragment.compileWith_eq_some fun p hp => hfragments p (List.mem_flatMap.mpr ⟨f, hf, hp⟩)
  rw [Document.compileWith, Document.compile, mapM_eq_some_map hoperation,
    mapM_eq_some_map hfragment]
  cases d.check with
  | error e => rfl
  | ok _ => cases Registry.ofScalars d.ns d.customScalars <;> rfl

end Names

/-! ## Decoded values -/

/-- The name of the adapter of the model at a path, from indices into the chain. -/
def ModelPath.indexedAdapterTypeName (p : ModelPath) : Option QualifiedName :=
  indexedAdapter p.ns p.elements

namespace Format

/-- What is generated from a value is generated with indices as well: of a document, of any of its
operations and fragments, of a selection in either view, and of a path. -/
def Generates : (f : Format) → f.Data → Prop
  | document, (d : Document) =>
    d.compileWith ModelPath.indexedAdapterTypeName = some d.compile ∧
      (∀ o ∈ d.operations, o.compileWith ModelPath.indexedAdapterTypeName = some o.compile) ∧
        ∀ f ∈ d.fragments, f.compileWith ModelPath.indexedAdapterTypeName = some f.compile
  | operation, (o : Operation) =>
    o.compileWith ModelPath.indexedAdapterTypeName = some o.compile
  | fragment, (f : Fragment) => f.compileWith ModelPath.indexedAdapterTypeName = some f.compile
  | fieldSet, (s : FieldSet) =>
    ∀ kind, s.declareWith ModelPath.indexedAdapterTypeName kind = some (s.declare kind)
  | field, (f : Field) =>
    ∀ kind, f.nestedWith ModelPath.indexedAdapterTypeName kind = some (f.nested kind)
  | modelPath, (p : ModelPath) => p.indexedAdapterTypeName = some p.adapterTypeName
  | customScalar, _ | typeRef, _ | leaf, _ => True

theorem generates (f : Format) (v : f.Data) : f.Generates v := by
  -- a path has its root, so its adapter has a name
  have hnames : ∀ paths, Names ModelPath.indexedAdapterTypeName paths :=
    fun _ p _ => indexedAdapter_elements p
  cases f with
  | document =>
    exact ⟨Document.compileWith_eq_some (hnames _),
      fun _ _ => Operation.compileWith_eq_some (hnames _),
      fun _ _ => Fragment.compileWith_eq_some (hnames _)⟩
  | operation => exact Operation.compileWith_eq_some (hnames _)
  | fragment => exact Fragment.compileWith_eq_some (hnames _)
  | fieldSet => exact fun kind => FieldSet.declareWith_eq_some kind v (hnames _)
  | field => exact fun kind => Field.nestedWith_eq_some kind v (hnames _)
  | modelPath => exact indexedAdapter_elements v
  | customScalar => trivial
  | typeRef => trivial
  | leaf => trivial

/-- One tree stands at the front of the source. Whatever is read as a path in it has elements, and
the paths of the value are among these, with the elements that stand there. -/
def PathsStand (f : Format) (source : Bytes) (v : f.Data) : Prop :=
  ∃ t rest, t.StandsAt source rest ∧ (∀ t' rest', t'.StandsAt source rest' → t' = t) ∧
    (∀ u, f.Contains t modelPath u → ∃ ns elements, elements ≠ [] ∧ u.IsPath ns elements) ∧
      ∀ p ∈ f.paths v, p.elements ≠ [] ∧ ∃ u, f.Contains t modelPath u ∧ u.IsPath p.ns p.elements

/-- The paths of what has been decoded stand in its source. -/
theorem pathsStand_of_decode {f : Format} {source : Bytes} {v : f.Data}
    (h : decode f.reader source = .ok v) : f.PathsStand source v := by
  obtain ⟨t, rest, ht, hsound⟩ := exists_sound_of_decode h
  refine ⟨t, rest, ht, fun t' rest' ht' => (ht'.unique ht).1, ?_, ?_⟩
  · exact fun u hu => (hsound.wellFormed modelPath u hu).path rfl
  · exact fun p hp => ⟨List.cons_ne_nil _ _, hsound.stands p hp⟩

end Format

/-- No path without elements is decoded, in any format, from bytes or from a text, and with every
decoded value the indices into its paths are in bounds. A text in which a path without elements is
read is not decoded, whatever else it says and in whatever order. So is a document that is written
without the elements of one of its paths. -/
theorem no_empty_paths :
    (∀ (f : Format) (source : Bytes) (v : f.Data), decode f.reader source = .ok v →
      f.PathsStand source v ∧ f.Generates v) ∧
    (∀ (f : Format) (source : String) (v : f.Data), decodeText f.reader source = .ok v →
      f.PathsStand (textBytes source) v ∧ f.Generates v) ∧
    (∀ (f : Format) (t : Tree) (source rest : Bytes), t.StandsAt source rest → f.HasEmptyPath t →
      ∃ path message, decode f.reader source = .error (.decode path message)) ∧
    ∀ (d : Document) (w : Value) (s : String), d.toJson.Emptied w → w.SpelledAs s →
      ∃ path message, decodeText Document.reader s = .error (.decode path message) := by
  refine ⟨fun f source v h => ?_, fun f source v h => ?_, fun f t source rest ht h => ?_,
    fun d w s h hs => ?_⟩
  · exact ⟨Format.pathsStand_of_decode h, f.generates v⟩
  · exact ⟨Format.pathsStand_of_decode h, f.generates v⟩
  · exact Format.decode_of_hasEmptyPath ht h
  · exact d.decodeText_of_emptied h hs

/-- The path in the only leaf of a document, as it is decoded and when it has lost its element, and
a path without elements that says more than it has to, in an order of its own. -/
theorem no_empty_paths_planet :
    Format.document.PathsStand (textBytes (planetWritten.render .pretty)) planetDocument ∧
      Format.document.Generates planetDocument ∧
        (∃ path message, decode ModelPath.reader (textBytes ((Value.object [("elements", .array []),
          ("comment", .null), ("namespace", .string "com.example")]).render .pretty)) =
            .error (.decode path message)) ∧
          ∃ w, planetDocument.toJson.Emptied w ∧ ∃ path message,
            decodeText Document.reader (w.render .compact) = .error (.decode path message) := by
  obtain ⟨core, hwritten, hdepth⟩ := written_planet
  have hread : decodeText Document.reader (planetWritten.render .pretty) = .ok planetDocument :=
    Document.decodeText_of_written hwritten hdepth (Value.spelledAs_render .pretty planetWritten)
  obtain ⟨-, htexts, hempty, hemptied⟩ := no_empty_paths
  obtain ⟨hpaths, hgenerates⟩ := htexts .document _ _ hread
  have hlost := hempty .modelPath _ _ _ (standsAt_textBytes (Value.spelledAs_render .pretty
    (.object [("elements", .array []), ("comment", .null), ("namespace", .string "com.example")])))
      ⟨_, .here, Value.isEmptyPath_tree (by simp)⟩
  have hleaf := @Value.Emptied.member [("kind", .string "model")] [] "path" _ _
    (.here ⟨"com.example", "Planet", []⟩)
  have htype := @Value.Emptied.member [] [] "named" _ _ hleaf
  have hfield := @Value.Emptied.member [("response_name", .string "data")]
    [("description", .null), ("deprecation_reason", .null), ("override", .bool false),
      ("field_sets", .array []), ("implementation_field_sets", .array []),
      ("base_field_set", .null)] "type" _ _ htype
  have hoperation := @Value.Emptied.member [("name", .string "Planet")] [] "data_field" _ _ hfield
  have hoperations := @Value.Emptied.item [] [] _ _ hoperation
  have hdocument : planetDocument.toJson.Emptied _ :=
    @Value.Emptied.member [("namespace", .string "com.example"), ("custom_scalars", .array [])]
      [("fragments", .array [])] "operations" _ _ hoperations
  exact ⟨hpaths, hgenerates, hlost, _, hdocument,
    hemptied _ _ _ hdocument (Value.spelledAs_render .compact _)⟩

end SelectionModels
