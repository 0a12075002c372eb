import SelectionModels.Proofs.Acceptance

/-! # Names of models

A name stands for one model. Within a tree every declaration has a name of its own, and wherever in
a compiled document a name is declared again it is declared from an equal field set, so that only
the kind can differ and with it what is nested.

A path makes three names: that of its model, that of the model's adapter, and perhaps one that the
registry takes for itself. The check compares paths alone, so it keeps apart what differs as a path.
An adapter shows its path up to the first character of the root, which is put in upper case, and the
registry's own names are paths like any others. Both leave room for a clash that is not an error,
and here it is said exactly which documents have one.

* `nodup_typeName_of_compile`: no tree declares a name twice;
* `declarations_coherent`: declarations of one name agree, and are equal if they are of one kind;
* `names_of_paths`: which names of paths are the same, and how far the two names of a path agree;
* `adapters_apart_iff`: when the adapters of a compiled document differ, tree by tree;
* `models_apart_from_registry_iff`: when its models stay clear of the registry.
-/

namespace SelectionModels

/-! ## Within a tree -/

theorem Document.nodup_typeName_nested {d : Document} (h : d.check = .ok ()) {f : Field}
    {kind : Kind} (ht : (f, kind) ∈ d.trees) :
    ((Declaration.preorderList (f.nested kind)).map (·.typeName)).Nodup := by
  have hpaths := d.nodup_path_of_check h ht
  have hnames := hpaths.map ModelPath.typeName_injective
  simpa [f.preorderList_nested, Function.comp_def] using hnames

/-- No tree of a compiled document, be it an operation or a view of a fragment, declares a name
twice, at whatever depth. -/
theorem nodup_typeName_of_compile {d : Document} {c : CompiledDocument}
    (h : d.compile = .ok c) :
    (∀ o ∈ c.operations,
      ((Declaration.preorderList o.declarations).map (·.typeName)).Nodup) ∧
    ∀ f ∈ c.fragments,
      ((Declaration.preorderList f.interfaces).map (·.typeName)).Nodup ∧
      ((Declaration.preorderList f.implementations).map (·.typeName)).Nodup := by
  obtain ⟨hcheck, rfl⟩ := Document.compile_eq_ok_iff.mp h
  constructor
  · intro compiled hcompiled
    obtain ⟨o, ho, rfl⟩ := List.mem_map.mp hcompiled
    exact d.nodup_typeName_nested hcheck (d.mem_trees_of_operation ho)
  · intro compiled hcompiled
    obtain ⟨f, hf, rfl⟩ := List.mem_map.mp hcompiled
    constructor
    · exact d.nodup_typeName_nested hcheck (d.mem_trees_of_fragment hf .interface)
    · exact d.nodup_typeName_nested hcheck (d.mem_trees_of_fragment hf .implementation)

theorem nodup_typeName_heroDocument :
    ∃ c, heroDocument.compile = .ok c ∧
      (∀ o ∈ c.operations,
        ((Declaration.preorderList o.declarations).map (·.typeName)).Nodup) ∧
      ∀ f ∈ c.fragments,
        ((Declaration.preorderList f.interfaces).map (·.typeName)).Nodup ∧
        ((Declaration.preorderList f.implementations).map (·.typeName)).Nodup :=
  ⟨heroDocument.compiled, compile_heroDocument, nodup_typeName_of_compile compile_heroDocument⟩

/-! ## Across trees -/

/-- Every declaration of a compiled document comes from a field set that the document emits. -/
theorem Document.exists_emission_of_mem {d : Document} {a : Declaration}
    (ha : a ∈ d.compiled.declarations) : ∃ e ∈ d.emission, declareEmitted e = a := by
  rw [d.declarations_compiled] at ha
  exact List.mem_map.mp ha

/-- Declarations of one name, wherever they are, have the same name, adapter, properties and
supertypes; if they are of one kind they are equal, with all that is nested in them. -/
theorem declarations_coherent {d : Document} {c : CompiledDocument} (h : d.compile = .ok c)
    {a b : Declaration} (ha : a ∈ c.declarations) (hb : b ∈ c.declarations)
    (hab : a.typeName = b.typeName) :
    a.name = b.name ∧ a.adapterTypeName = b.adapterTypeName ∧ a.properties = b.properties ∧
      a.superTypes = b.superTypes ∧ (a.kind = b.kind → a = b) := by
  obtain ⟨hcheck, rfl⟩ := Document.compile_eq_ok_iff.mp h
  obtain ⟨⟨s, kind⟩, he, rfl⟩ := d.exists_emission_of_mem ha
  obtain ⟨⟨s', kind'⟩, he', rfl⟩ := d.exists_emission_of_mem hb
  have hpath : s.path = s'.path := by
    apply ModelPath.typeName_injective
    simpa using hab
  have hs : s = s' := d.eq_of_path_of_check hcheck he he' hpath
  subst hs
  have hdeclare : declareEmitted (s, kind') = { declareEmitted (s, kind) with
      kind := kind', nested := s.fields.flatMap (Field.nested kind') } :=
    s.declare_eq_of_kind kind kind'
  refine ⟨by rw [hdeclare], by rw [hdeclare], by rw [hdeclare], by rw [hdeclare], ?_⟩
  intro hkind
  have hkinds : kind = kind' := by simpa using hkind
  rw [hkinds]

/-- The hero is declared as an interface and as an implementation, with different things nested. -/
theorem coherent_heroDocument :
    ∃ c a b, heroDocument.compile = .ok c ∧ a ∈ c.declarations ∧ b ∈ c.declarations ∧
      a.typeName = b.typeName ∧ a.kind ≠ b.kind ∧
      a.name = b.name ∧ a.adapterTypeName = b.adapterTypeName ∧ a.properties = b.properties ∧
      a.superTypes = b.superTypes ∧ (a.kind = b.kind → a = b) := by
  have ha : heroDocument.compiled.declarations[1]? = some _ := rfl
  have hb : heroDocument.compiled.declarations[6]? = some _ := rfl
  have hcoherent := declarations_coherent compile_heroDocument
    (List.mem_of_getElem? ha) (List.mem_of_getElem? hb) rfl
  exact ⟨_, _, _, compile_heroDocument, List.mem_of_getElem? ha, List.mem_of_getElem? hb, rfl,
    Kind.noConfusion, hcoherent⟩

/-! ## Adapters of paths -/

/-- A namespace is known by that of its child. -/
theorem Name.subNamespace_injective (child : String) :
    Function.Injective fun ns => Name.subNamespace ns child := by
  intro ns ns' h
  by_cases hns : ns = "" <;> by_cases hns' : ns' = ""
  · rw [hns, hns']
  · -- the child alone is too short for a child under a namespace
    have hlength := congrArg String.length h
    simp [hns, Name.subNamespace_of_ne hns'] at hlength
  · have hlength := congrArg String.length h
    simp [hns', Name.subNamespace_of_ne hns] at hlength
  · simpa [Name.subNamespace_of_ne hns, Name.subNamespace_of_ne hns'] using h

theorem Name.responseAdapter_eq_iff {root root' : String} :
    Name.responseAdapter root = Name.responseAdapter root' ↔
      Name.capitalize root = Name.capitalize root' :=
  String.append_left_inj _

/-- Adapters have one name if their paths differ at most in how the roots begin, before that is put
in upper case. -/
theorem ModelPath.adapterTypeName_eq_iff {p q : ModelPath} :
    p.adapterTypeName = q.adapterTypeName ↔
      p.ns = q.ns ∧ p.descendants = q.descendants ∧
        Name.capitalize p.root = Name.capitalize q.root := by
  rw [← Name.responseAdapter_eq_iff, ← (Name.subNamespace_injective Name.adapterPart).eq_iff]
  simp [adapterTypeName, Name.adapterNamespace, and_comm]

/-- Nothing but the root can tell two paths apart whose adapters have one name. -/
theorem ModelPath.eq_of_adapterTypeName {p q : ModelPath}
    (hadapter : p.adapterTypeName = q.adapterTypeName) (hroot : p.root = q.root) : p = q := by
  obtain ⟨hns, hdescendants, -⟩ := adapterTypeName_eq_iff.mp hadapter
  cases p
  cases q
  simp_all

/-- A child stands under its namespace, not in its place. -/
theorem Name.subNamespace_ne_self {child : String} (h : child ≠ "") (ns : String) :
    Name.subNamespace ns child ≠ ns := by
  by_cases hns : ns = ""
  · rw [hns, Name.subNamespace_empty]
    exact h
  · intro heq
    have hlength := congrArg String.length heq
    have hdot : 0 < ".".length := by decide
    rw [Name.subNamespace_of_ne hns, String.length_append, String.length_append] at hlength
    omega

/-- Upper case may be longer, but it is not shorter. -/
theorem Name.length_le_length_capitalize (s : String) : s.length ≤ (Name.capitalize s).length := by
  rw [← String.length_toList, ← String.length_toList, Name.capitalize, String.toList_ofList]
  cases s.toList with
  | nil => exact Nat.le_refl _
  | cons c cs =>
    have hpos := List.length_pos_iff.mpr (Text.upperCase_ne_nil c)
    rw [Name.capitalizeChars_cons, List.length_cons, List.length_append]
    omega

theorem Name.responseAdapter_ne_self (root : String) : Name.responseAdapter root ≠ root := by
  intro heq
  have hlength := congrArg String.length heq
  have hcapital := Name.length_le_length_capitalize root
  have hsuffix : 0 < Name.responseAdapterSuffix.length := by decide
  rw [Name.responseAdapter, String.length_append] at hlength
  omega

/-- A model's name is that of no other path. An adapter's name is shared by the paths in one
namespace, with the same descendants, whose roots are the same once they are capitalized. The two
names of a path are equally long and differ in the namespace and the root only, in both of them. -/
theorem names_of_paths (p q : ModelPath) :
    (p.typeName = q.typeName ↔ p = q) ∧
      (p.adapterTypeName = q.adapterTypeName ↔
        p.ns = q.ns ∧ p.descendants = q.descendants ∧
          Name.capitalize p.root = Name.capitalize q.root) ∧
      p.adapterTypeName.simpleNames.length = p.typeName.simpleNames.length ∧
      p.adapterTypeName.simpleNames.tail = p.typeName.simpleNames.tail ∧
      p.adapterTypeName.simpleNames.head? ≠ p.typeName.simpleNames.head? ∧
      p.adapterTypeName.ns ≠ p.typeName.ns ∧
      p.adapterTypeName ≠ p.typeName := by
  have hns : p.adapterTypeName.ns ≠ p.typeName.ns :=
    Name.subNamespace_ne_self (by decide) p.ns
  refine ⟨ModelPath.typeName_injective.eq_iff, ModelPath.adapterTypeName_eq_iff, rfl, rfl, ?_, hns,
    fun heq => hns (congrArg QualifiedName.ns heq)⟩
  intro hroot
  exact Name.responseAdapter_ne_self p.root (Option.some.inj hroot)

-- one character becomes two, which another root has from the start
example : (ModelPath.mk "com.example" "ßet" ["Data"]).adapterTypeName =
    (ModelPath.mk "com.example" "SSet" ["Data"]).adapterTypeName := by decide +kernel

/-! ## Adapters of a tree -/

/-- The trees that are emitted apart: one for an operation, two for a fragment. -/
def CompiledDocument.outputs (c : CompiledDocument) : List (List Declaration) :=
  c.operations.map (·.declarations) ++
    c.fragments.flatMap fun f => [f.interfaces, f.implementations]

theorem Document.outputs_compiled (d : Document) :
    d.compiled.outputs = d.trees.map fun t => t.1.nested t.2 := by
  simp [CompiledDocument.outputs, compiled, trees, Operation.compile, Fragment.compile,
    List.map_flatMap, List.flatMap_map, Function.comp_def]

/-- Declarations of different names, at whatever depth, have adapters of different names. -/
def AdaptersApart (tree : List Declaration) : Prop :=
  ∀ a ∈ Declaration.preorderList tree, ∀ b ∈ Declaration.preorderList tree,
    a.typeName ≠ b.typeName → a.adapterTypeName ≠ b.adapterTypeName

@[simp] theorem adapterTypeName_declareEmitted (e : FieldSet × Kind) :
    (declareEmitted e).adapterTypeName = e.1.path.adapterTypeName := by
  obtain ⟨s, kind⟩ := e
  cases s
  rfl

/-- The declarations of a tree stand for its paths, so only paths that differ can clash. -/
theorem adaptersApart_nested_iff (f : Field) (kind : Kind) :
    AdaptersApart (f.nested kind) ↔
      ∀ e ∈ f.emission kind, ∀ e' ∈ f.emission kind,
        e.1.path.adapterTypeName = e'.1.path.adapterTypeName → e.1.path = e'.1.path := by
  simp only [AdaptersApart, f.preorderList_nested, List.forall_mem_map, typeName_declareEmitted,
    adapterTypeName_declareEmitted, ne_eq, ModelPath.typeName_injective.eq_iff, not_imp_not]

/-- In a compiled document the adapters of every tree differ, unless a tree emits two paths in one
namespace and with the same descendants whose roots differ, but only until they are capitalized. -/
theorem adapters_apart_iff {d : Document} {c : CompiledDocument} (h : d.compile = .ok c) :
    (∀ tree ∈ c.outputs, AdaptersApart tree) ↔
      ∀ t ∈ d.trees, ∀ e ∈ t.1.emission t.2, ∀ e' ∈ t.1.emission t.2,
        e.1.path.ns = e'.1.path.ns → e.1.path.descendants = e'.1.path.descendants →
          Name.capitalize e.1.path.root = Name.capitalize e'.1.path.root →
            e.1.path.root = e'.1.path.root := by
  obtain ⟨-, rfl⟩ := Document.compile_eq_ok_iff.mp h
  simp only [d.outputs_compiled, List.forall_mem_map, adaptersApart_nested_iff]
  constructor
  · intro hpaths t ht e he e' he' hns hdescendants hcapital
    have hadapter := ModelPath.adapterTypeName_eq_iff.mpr ⟨hns, hdescendants, hcapital⟩
    rw [hpaths t ht e he e' he' hadapter]
  · intro hroots t ht e he e' he' hadapter
    obtain ⟨hns, hdescendants, hcapital⟩ := ModelPath.adapterTypeName_eq_iff.mp hadapter
    have hroot := hroots t ht e he e' he' hns hdescendants hcapital
    exact ModelPath.eq_of_adapterTypeName hadapter hroot

/-- The trees of the hero have two roots, neither of which becomes the other. -/
theorem adapters_apart_heroDocument :
    ∃ c, heroDocument.compile = .ok c ∧ ∀ tree ∈ c.outputs, AdaptersApart tree := by
  refine ⟨heroDocument.compiled, compile_heroDocument, ?_⟩
  apply (adapters_apart_iff compile_heroDocument).mpr
  decide +kernel

/-! ## A document whose adapters clash -/

/-- A document with one operation, which selects a shape without fields at each of the paths. -/
def documentOfPaths (ns : String) (scalars : List CustomScalar) (paths : List ModelPath) :
    Document where
  ns := ns
  customScalars := scalars
  operations := [⟨"Query", ⟨"data", .named .string, none, none, false, [],
    paths.map fun p => ⟨p.elements.getLastD "", p, [], []⟩, none⟩⟩]
  fragments := []

/-- The roots differ in the case of their first letter, and the adapters have one name. -/
theorem adapters_clash_in_case :
    ∃ c, (documentOfPaths "com.example" []
        [⟨"com.example", "hero", []⟩, ⟨"com.example", "Hero", []⟩]).compile = .ok c ∧
      ∃ tree ∈ c.outputs, ¬ AdaptersApart tree := by
  refine ⟨_, rfl, _, List.mem_singleton_self _, ?_⟩
  intro h
  exact h _ List.mem_cons_self _ (List.mem_cons_of_mem _ List.mem_cons_self) (by decide) rfl

/-! ## Models and the registry -/

/-- The names that the registry declares: its own, and those of the holders of its scalars. -/
def Registry.typeNames (r : Registry) : List QualifiedName :=
  r.typeName :: r.constants.map (·.typeName)

/-- The registry of the document declares a type where the path leads. -/
def Document.Reserves (d : Document) (p : ModelPath) : Prop :=
  p.ns = d.ns ∧ (p.elements = [Name.registryName] ∨
    ∃ s ∈ d.customScalars, p.elements = [Name.scalarsHolder, s.holderName])

theorem Document.reserves_iff {d : Document} {p : ModelPath} :
    d.Reserves p ↔ p.typeName ∈ (Registry.build d.ns d.customScalars).typeNames := by
  simp only [Reserves, ModelPath.typeName, Registry.typeNames, Registry.build, Registry.constant,
    CustomScalar.holder, List.map_map, List.mem_cons, List.mem_map, Function.comp_apply,
    QualifiedName.mk.injEq]
  constructor
  · rintro ⟨hns, hregistry | ⟨s, hs, hholder⟩⟩
    · exact Or.inl ⟨hns, hregistry⟩
    · exact Or.inr ⟨s, hs, hns.symm, hholder.symm⟩
  · rintro (⟨hns, hregistry⟩ | ⟨s, hs, hns, hholder⟩)
    · exact ⟨hns, Or.inl hregistry⟩
    · exact ⟨hns.symm, Or.inr ⟨s, hs, hholder.symm⟩⟩

/-- In a compiled document the models stay clear of the registry and of the holders of its scalars,
unless a path leads to one of them. -/
theorem models_apart_from_registry_iff {d : Document} {c : CompiledDocument}
    (h : d.compile = .ok c) :
    (∀ a ∈ c.declarations, a.typeName ≠ c.registry.typeName ∧
        ∀ k ∈ c.registry.constants, a.typeName ≠ k.typeName) ↔
      ∀ e ∈ d.emission, ¬ d.Reserves e.1.path := by
  obtain ⟨-, rfl⟩ := Document.compile_eq_ok_iff.mp h
  have hregistry : d.compiled.registry = Registry.build d.ns d.customScalars := rfl
  -- a declaration has the name of its path
  rw [d.declarations_compiled, List.forall_mem_map, hregistry]
  simp only [typeName_declareEmitted, d.reserves_iff, Registry.typeNames, List.mem_cons,
    List.mem_map, not_or, not_exists, not_and, ne_eq, eq_comm]

/-- The hero's models and the holder of its date have different names. -/
theorem models_apart_heroDocument :
    ∃ c, heroDocument.compile = .ok c ∧ ∀ a ∈ c.declarations, a.typeName ≠ c.registry.typeName ∧
      ∀ k ∈ c.registry.constants, a.typeName ≠ k.typeName := by
  refine ⟨heroDocument.compiled, compile_heroDocument, ?_⟩
  apply (models_apart_from_registry_iff compile_heroDocument).mpr
  simp only [Document.reserves_iff]
  decide +kernel

/-- One path leads to the registry, the other to the holder of the date. -/
theorem models_clash_with_registry :
    ∃ c, (documentOfPaths "com.example" [⟨"Date", none, none, none⟩]
        [⟨"com.example", "CustomScalars", []⟩, ⟨"com.example", "Scalars", ["Date"]⟩]).compile =
          .ok c ∧
      (∃ a ∈ c.declarations, a.typeName = c.registry.typeName) ∧
      ∃ a ∈ c.declarations, ∃ k ∈ c.registry.constants, a.typeName = k.typeName := by
  refine ⟨_, rfl, ⟨_, List.mem_cons_self, rfl⟩, _,
    List.mem_cons_of_mem _ List.mem_cons_self, _, List.mem_cons_self, ?_⟩
  decide +kernel

end SelectionModels
