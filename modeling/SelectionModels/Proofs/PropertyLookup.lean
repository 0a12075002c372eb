import SelectionModels.Proofs.ScalarUses

/-! # Looking up properties

A property is looked up by its name, and the first one of the name is taken. In a compiled document
there is no second one: every field set that is declared, in whatever tree and kind, owes that its
response names differ, and its properties have these names in the order of its fields.

* `FieldSet.repeatedName?_eq_none_iff`: when the response names of a field set differ;
* `Declaration.property?_eq_some_iff`: what is found when no name stands twice;
* `property_lookup`: the properties of every declaration, and what is found by their names.
-/

namespace SelectionModels

/-! ## Response names -/

theorem FieldSet.repeatedName?_eq_none_iff {s : FieldSet} :
    s.repeatedName? = none ↔ (s.fields.map (·.responseName)).Nodup := by
  rw [repeatedName?]
  generalize s.fields.map (·.responseName) = names
  rw [Option.map_eq_none_iff, List.find?_eq_none, List.nodup_iff_pairwise_ne,
    List.pairwise_iff_getElem]
  constructor
  · intro h i j hi hj hij heq
    have hmem : (names[j], j) ∈ names.zipIdx := List.mem_zipIdx_iff_getElem?.mpr (by simp [hj])
    refine h _ hmem (decide_eq_true ?_)
    exact List.mem_take_iff_getElem.mpr ⟨i, by omega, heq⟩
  · rintro h ⟨name, j⟩ hmem hrepeats
    have hget : names[j]? = some name := List.mem_zipIdx_iff_getElem?.mp hmem
    obtain ⟨hj, rfl⟩ := List.getElem?_eq_some_iff.mp hget
    obtain ⟨i, hi, heq⟩ := List.mem_take_iff_getElem.mp (of_decide_eq_true hrepeats)
    exact h i j (by omega) hj (by omega) heq

/-- A field set owes that its response names differ. -/
theorem FieldSet.responseNames_mem_obligations (s : FieldSet) (kind : Kind) :
    .responseNames s ∈ s.obligations kind := by
  rw [s.obligations_eq]
  exact List.mem_cons_of_mem _ List.mem_cons_self

/-- The field sets of an accepted document select every response name once. -/
theorem Document.nodup_responseName_of_check {d : Document} (h : d.check = .ok ())
    {e : FieldSet × Kind} (he : e ∈ d.emission) : (e.1.fields.map (·.responseName)).Nodup := by
  have hholds := d.holds_of_mem_emission h he (e.1.responseNames_mem_obligations e.2)
  exact FieldSet.repeatedName?_eq_none_iff.mp hholds

/-! ## Look-ups -/

namespace Declaration

variable {d : Declaration}

/-- Where no name stands twice, every property is found under its name. -/
theorem property?_eq_some_iff (h : (d.properties.map (·.name)).Nodup) {name : String}
    {p : Property} : d.property? name = some p ↔ p ∈ d.properties ∧ p.name = name :=
  find?_key_eq_some_iff h

theorem property?_eq_none_iff {name : String} :
    d.property? name = none ↔ name ∉ d.properties.map (·.name) := by
  simp [property?, List.find?_eq_none]

theorem constructorParameters_eq (d : Declaration) :
    d.constructorParameters = if d.kind = .implementation then d.properties else [] := by
  unfold constructorParameters
  cases d.kind <;> rfl

end Declaration

theorem FieldSet.map_name_properties_declare (kind : Kind) (s : FieldSet) :
    (s.declare kind).properties.map (·.name) = s.fields.map (·.responseName) := by
  rw [properties_declare, List.map_map]
  rfl

/-- The declarations of a compiled document come from the field sets that it emits. Each has its
properties in the order of the fields, named after their response names, and no two of one name; by
its name the property of each field is found, and by no other name one is found. The properties are
the constructor's parameters if the declaration is an implementation; an interface has none. -/
theorem property_lookup {d : Document} {c : CompiledDocument} (h : d.compile = .ok c) :
    c.declarations = d.emission.map declareEmitted ∧
      ∀ s kind, (s, kind) ∈ d.emission →
        (s.declare kind).kind = kind ∧
        (s.declare kind).properties.map (·.name) = s.fields.map (·.responseName) ∧
        ((s.declare kind).properties.map (·.name)).Nodup ∧
        (∀ f ∈ s.fields, (s.declare kind).property? f.responseName = some f.property) ∧
        (∀ name, (∀ f ∈ s.fields, f.responseName ≠ name) →
          (s.declare kind).property? name = none) ∧
        (s.declare kind).constructorParameters =
          if kind = .implementation then (s.declare kind).properties else [] := by
  obtain ⟨hcheck, rfl⟩ := Document.compile_eq_ok_iff.mp h
  refine ⟨d.declarations_compiled, fun s kind he => ?_⟩
  have hnames := s.map_name_properties_declare kind
  have hnodup : ((s.declare kind).properties.map (·.name)).Nodup := by
    rw [hnames]
    exact d.nodup_responseName_of_check hcheck he
  refine ⟨s.kind_declare kind, hnames, hnodup, ?_, ?_, ?_⟩
  · intro f hf
    have hmem : f.property ∈ (s.declare kind).properties := by
      rw [FieldSet.properties_declare]
      exact List.mem_map_of_mem hf
    exact (Declaration.property?_eq_some_iff hnodup).mpr ⟨hmem, rfl⟩
  · intro name hname
    rw [Declaration.property?_eq_none_iff, hnames, List.mem_map]
    rintro ⟨f, hf, heq⟩
    exact hname f hf heq
  · rw [Declaration.constructorParameters_eq, s.kind_declare]

/-- The interface of the hero's details in the fragment: its second field is found, a field of the
query's data is not, and nothing is constructed. -/
theorem property_lookup_heroDocument :
    ∃ s, heroDocument.compile = .ok heroDocument.compiled ∧
      (s, Kind.interface) ∈ heroDocument.emission ∧
      (s.declare .interface).properties.map (·.name) = ["born", "friend"] ∧
      (∃ p, (s.declare .interface).property? "friend" = some p) ∧
      (s.declare .interface).property? "hero" = none ∧
      (s.declare .interface).constructorParameters = [] := by
  have hmem : heroDocument.emission[1]? = some (_, .interface) := rfl
  obtain ⟨-, hall⟩ := property_lookup compile_heroDocument
  obtain ⟨-, hnames, -, hfound, hmissing, hparameters⟩ :=
    hall _ .interface (List.mem_of_getElem? hmem)
  exact ⟨_, compile_heroDocument, List.mem_of_getElem? hmem, hnames,
    ⟨_, hfound _ (.tail _ (.head _))⟩, hmissing "hero" (by decide), hparameters⟩

end SelectionModels
