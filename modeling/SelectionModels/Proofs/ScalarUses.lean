import SelectionModels.Proofs.Acceptance

/-! # Uses of custom scalars

A field may name a custom scalar and say to what it is mapped; the registry says so too. In a
compiled document both say the same at every field of every declaration, because the walk comes by
all of them: what a field set owes is owed by the tree that emits it, at whatever depth.

* `obligations_subset_of_mem_emission`: a tree owes all that its field sets owe;
* `Document.exists_scalar_of_use`: a scalar in use is declared, with the mapping of the use;
* `Registry.filter_constants_build`: a declared scalar has one constant;
* `registry_settles_uses`: the registry has the say on every use of a custom scalar.
-/

namespace SelectionModels

/-! ## What emitted field sets owe -/

/-- A field or field set owes all that is owed by the field sets it emits. -/
theorem obligations_subset_of_mem_emission :
    (∀ (f : Field) (kind : Kind), ∀ e ∈ f.emission kind,
      e.1.obligations e.2 ⊆ f.obligations kind) ∧
    ∀ (s : FieldSet) (kind : Kind), ∀ e ∈ s.emission kind,
      e.1.obligations e.2 ⊆ s.obligations kind := by
  apply Field.emits_induction
  · intro f hsets kind e he o ho
    rw [f.emission_eq] at he
    obtain ⟨e', he', he⟩ := List.mem_flatMap.mp he
    have howed : o ∈ e'.1.obligations e'.2 := hsets kind e' he' e'.2 e he ho
    rw [f.obligations_eq]
    exact List.mem_cons_of_mem _ (List.mem_flatMap.mpr ⟨e', he', howed⟩)
  · intro s hfields kind e he o ho
    rw [s.emission_eq] at he
    rcases List.mem_cons.mp he with rfl | he
    · exact ho
    · obtain ⟨f, hf, he⟩ := List.mem_flatMap.mp he
      have howed : o ∈ f.obligations kind := hfields f hf kind e he ho
      rw [s.obligations_eq]
      exact List.mem_cons_of_mem _ (List.mem_cons_of_mem _ (List.mem_flatMap.mpr ⟨f, hf, howed⟩))

/-- Whatever an emitted field set of an accepted document owes holds. -/
theorem Document.holds_of_mem_emission {d : Document} (h : d.check = .ok ())
    {e : FieldSet × Kind} (he : e ∈ d.emission) {o : Obligation}
    (ho : o ∈ e.1.obligations e.2) : o.Holds d.customScalars := by
  obtain ⟨t, ht, he⟩ := List.mem_flatMap.mp he
  exact d.holds_of_mem_trees h ht (obligations_subset_of_mem_emission.1 t.1 t.2 e he ho)

/-- A field set owes the leaf of each of its fields. -/
theorem FieldSet.leaf_mem_obligations {s : FieldSet} {f : Field} (hf : f ∈ s.fields)
    (kind : Kind) : .leaf f.type.leaf ∈ s.obligations kind := by
  have hleaf : .leaf f.type.leaf ∈ f.obligations kind := by
    rw [f.obligations_eq]
    exact List.mem_cons_self
  rw [s.obligations_eq]
  exact List.mem_cons_of_mem _ (List.mem_cons_of_mem _ (List.mem_flatMap.mpr ⟨f, hf, hleaf⟩))

/-! ## Declared scalars -/

theorem Leaf.exists_scalar_of_failure?_eq_none {scalars : List CustomScalar} {name : String}
    {mapped : Option String} (h : (Leaf.customScalar name mapped).failure? scalars = none) :
    ∃ s ∈ scalars, s.name = name ∧ s.mappedType = mapped := by
  simp only [failure?] at h
  cases hfind : scalars.find? (·.name = name) with
  | none => simp [hfind] at h
  | some s =>
    refine ⟨s, List.mem_of_find?_eq_some hfind, by simpa using List.find?_some hfind, ?_⟩
    simpa [hfind] using h

/-- A scalar whose name no other has is the one behind one constant. -/
theorem Registry.filter_constants_build {scalars : List CustomScalar}
    (h : checkScalars scalars = .ok ()) (ns : String) {s : CustomScalar} (hs : s ∈ scalars) :
    (build ns scalars).constants.filter (·.value.graphqlName = s.name) = [constant ns s] := by
  rw [build, List.filter_map]
  exact congrArg (List.map (constant ns))
    (filter_key_eq_singleton (nodup_name_of_checkScalars h) hs)

/-! ## Uses -/

/-- Somewhere in the document's declarations, the property was made from a field whose leaf is the
custom scalar. -/
def Document.UsesScalar (d : Document) (name : String) (mapped : Option String) (p : Property) :
    Prop :=
  ∃ e ∈ d.emission, ∃ (i : Nat) (f : Field), e.1.fields[i]? = some f ∧
    f.type.leaf = .customScalar name mapped ∧ (declareEmitted e).properties[i]? = some p

@[simp] theorem properties_declareEmitted (e : FieldSet × Kind) :
    (declareEmitted e).properties = e.1.fields.map Field.property :=
  FieldSet.properties_declare e.2 e.1

/-- A scalar in use is declared, with the mapping of the use. -/
theorem Document.exists_scalar_of_use {d : Document} (h : d.check = .ok ()) {name : String}
    {mapped : Option String} {p : Property} (huse : d.UsesScalar name mapped p) :
    ∃ s ∈ d.customScalars, s.name = name ∧ s.mappedType = mapped := by
  obtain ⟨e, he, i, f, hf, hleaf, -⟩ := huse
  have howed := FieldSet.leaf_mem_obligations (List.mem_of_getElem? hf) e.2
  have hholds : Obligation.Holds d.customScalars (.leaf f.type.leaf) :=
    d.holds_of_mem_emission h he howed
  rw [hleaf] at hholds
  exact Leaf.exists_scalar_of_failure?_eq_none hholds

/-- The adapter of a use is looked up by the mapping alone. -/
theorem Document.rawType_of_use {d : Document} {name : String} {mapped : Option String}
    {p : Property} (huse : d.UsesScalar name mapped p) :
    p.rawType = .ofName (mapped.elim (.prelude "Any") .ofDotted) := by
  obtain ⟨e, -, i, f, hf, hleaf, hp⟩ := huse
  have hproperty : f.property = p := by simpa [hf] using hp
  rw [← hproperty, Field.property, TypeRef.resolveRaw, hleaf]
  cases mapped <;> rfl

/-- The registry has the say on every use of a custom scalar: for a property of any declaration
that was made from a field of the scalar there is just one constant of the scalar's name, it has the
mapping of the field, and the type by which the adapter is looked up is that of the mapping. So
properties made from fields of one scalar agree in that type. -/
theorem registry_settles_uses {d : Document} {c : CompiledDocument} (h : d.compile = .ok c) :
    c.declarations = d.emission.map declareEmitted ∧
      (∀ e ∈ d.emission, (declareEmitted e).properties.length = e.1.fields.length) ∧
      ∀ name mapped p, d.UsesScalar name mapped p →
        (∃ k, c.registry.constants.filter (·.value.graphqlName = name) = [k] ∧
          k.value.mappedType = mapped ∧ (k.isUnmapped = true ↔ mapped = none)) ∧
        p.rawType = .ofName (mapped.elim (.prelude "Any") .ofDotted) ∧
        ∀ mapped' p', d.UsesScalar name mapped' p' → p'.rawType = p.rawType := by
  obtain ⟨hcheck, rfl⟩ := Document.compile_eq_ok_iff.mp h
  have hscalars := d.checkScalars_of_check hcheck
  refine ⟨d.declarations_compiled, fun e _ => by simp, ?_⟩
  intro name mapped p huse
  obtain ⟨s, hs, rfl, rfl⟩ := d.exists_scalar_of_use hcheck huse
  refine ⟨⟨Registry.constant d.ns s, Registry.filter_constants_build hscalars d.ns hs, rfl, ?_⟩,
    Document.rawType_of_use huse, ?_⟩
  · rw [Registry.isUnmapped_constant, Option.isNone_iff_eq_none]
  · intro mapped' p' huse'
    obtain ⟨s', hs', hname, rfl⟩ := d.exists_scalar_of_use hcheck huse'
    -- the two uses go back to one declaration of the name
    have hsame : s' = s :=
      List.inj_on_of_nodup_map (nodup_name_of_checkScalars hscalars) hs' hs hname
    rw [Document.rawType_of_use huse, Document.rawType_of_use huse', hsame]

/-- The date at which the hero's friend was born, three declarations deep in the query. -/
theorem registry_settles_heroDocument :
    ∃ c p, heroDocument.compile = .ok c ∧
      heroDocument.UsesScalar "Date" (some "java.time.LocalDate") p ∧
      (∃ k, c.registry.constants.filter (·.value.graphqlName = "Date") = [k] ∧
        k.value.mappedType = some "java.time.LocalDate" ∧
        (k.isUnmapped = true ↔ some "java.time.LocalDate" = none)) ∧
      p.rawType = .ofName ⟨"java.time", ["LocalDate"]⟩ := by
  have he : heroDocument.emission[2]? = some _ := rfl
  have huse : heroDocument.UsesScalar "Date" (some "java.time.LocalDate") _ :=
    ⟨_, List.mem_of_getElem? he, 0, _, rfl, rfl, rfl⟩
  obtain ⟨hconstant, htype, -⟩ := (registry_settles_uses compile_heroDocument).2.2 _ _ _ huse
  exact ⟨heroDocument.compiled, _, compile_heroDocument, huse, hconstant,
    htype.trans (by decide +kernel)⟩

end SelectionModels
