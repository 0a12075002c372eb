import SelectionModels.Proofs.ContentNesting
import SelectionModels.Proofs.Shapes

/-! # How deep what is read nests

What a reader comes to within a number of levels is encoded within as many. What has been left out
is written in full by the encoding, but never deeper than what had to be there: a field set has a
path, and a field has a type.

* `Document.yields_reader` and its like: the encoding of what is read;
* `Document.depth_toJson_le_of_decode`: a decoded document.
-/

namespace SelectionModels

open Json Reader

/-! ## Paths -/

namespace ModelPath

@[simp] theorem depth_toJson (p : ModelPath) : p.toJson.depth = 2 := by
  simp [toJson, Value.depth, Value.membersDepth]

/-- The elements of a path are those that were read. -/
theorem elements_of_build {s : Parts} {value : String × List String} (h : s.build = .ok value) :
    s.elements = some value.2 := by
  obtain ⟨ns, -, h⟩ := bind_eq_ok_iff.mp h
  obtain ⟨elements, helements, h⟩ := bind_eq_ok_iff.mp h
  cases h
  exact need_eq_ok_iff.mp helements

/-- A list of texts takes one level. -/
theorem yields_textsReader (levels : Nat) : (textsReader levels).Yields fun _ => 0 < levels := by
  cases levels with
  | zero => exact yields_listOf_none _
  | succ levels => exact (yields_true _).mono fun _ _ => Nat.succ_pos levels

/-- A path takes two, one for itself and one for its elements. -/
theorem yields_partsReader (levels : Nat) : (partsReader levels).Yields fun _ => 2 ≤ levels := by
  cases levels with
  | zero => exact yields_noRecord _ _
  | succ levels =>
    refine yields_record (I := fun s => ∀ names ∈ s.elements, 0 < levels)
      (by simp [recordOf, Parts.blank])
      (List.forall_mem_cons.mpr ⟨?_, List.forall_mem_singleton.mpr ?_⟩)
      (fun s value hs hvalue => Nat.succ_le_succ (hs _ (elements_of_build hvalue))) _
    · exact (yields_true _).map fun _ _ s hs => hs
    · exact (yields_textsReader levels).map fun _ hlevels s _ _ _ => hlevels

/-- A path is encoded within the levels that it was read in. -/
theorem yields_reader (levels : Nat) :
    (reader levels).Yields fun p => p.toJson.depth ≤ levels := by
  refine (yields_partsReader levels).bind fun (ns, elements) hlevels => ?_
  dsimp only
  split
  · exact yields_pure (by simpa using hlevels)
  · exact yields_failUnplaced _ _

/-- Content that is a list of texts has a bracket. -/
theorem pos_of_toTexts {levels : Nat} {c : Content} (hc : c.Within levels) {names : List String}
    (h : c.toTexts = .ok names) : 0 < levels := by
  cases hc with
  | list _ => exact Nat.succ_pos _
  | _ => cases h

/-- A path that is made from content nests as deep as the content does. -/
theorem depth_toJson_le_of_ofContent {levels : Nat} {c : Content} (hc : c.Within levels)
    {p : ModelPath} (h : ofContent c = .ok p) : p.toJson.depth ≤ levels := by
  obtain ⟨value, hvalue, -⟩ := bind_eq_ok_iff.mp h
  cases levels with
  | zero => exact absurd hvalue (contentRecord.ofContent_ne_ok_of_flat hc value)
  | succ levels =>
    have hmembers : ContentRecord.Preserve levels
        (fun s : Parts => ∀ names ∈ s.elements, 0 < levels) contentRecord.members := by
      refine List.forall_mem_cons.mpr ⟨?_, List.forall_mem_singleton.mpr ?_⟩
      · rintro c - add hadd s hs
        obtain ⟨_, -, rfl⟩ := map_eq_ok_iff.mp hadd
        exact hs
      · rintro c hc add hadd s -
        obtain ⟨names, hnames, rfl⟩ := map_eq_ok_iff.mp hadd
        exact fun _ _ => pos_of_toTexts hc hnames
    obtain ⟨s, hs, hbuild⟩ :=
      ContentRecord.exists_of_ofContent (by simp [contentRecord, Parts.blank]) hmembers hc hvalue
    rw [depth_toJson]
    exact Nat.succ_le_succ (hs _ (elements_of_build hbuild))

end ModelPath

/-! ## Leaves and type references -/

namespace Leaf

/-- A leaf is an object. -/
theorem depth_toJson_pos (leaf : Leaf) : 0 < leaf.toJson.depth := by
  cases leaf <;> exact Nat.succ_pos _

/-- A kind without parts of its own is a flat object. -/
theorem depth_toJson_of_mem_tags :
    ∀ c ∈ tags, ∀ leaf, c.2 = .builtin leaf → leaf.toJson.depth = 1 := by
  simp [tags, toJson, Value.depth, Value.membersDepth]

/-- What a kind makes of content is encoded within the levels of the content. -/
theorem depth_toJson_le_of_ofContent {levels : Nat} {tag : Tag}
    (htag : ∀ leaf, tag = .builtin leaf → leaf.toJson.depth = 1) {c : Content}
    (hc : c.Within (levels + 1)) {leaf : Leaf} (h : ofContent tag c = .ok leaf) :
    leaf.toJson.depth ≤ levels + 1 := by
  cases tag with
  | builtin builtin =>
    obtain rfl : builtin = leaf := by
      rw [ofContent, builtinOfContent.eq_def] at h
      split at h <;> cases h
      rfl
    rw [htag _ rfl]
    exact Nat.succ_pos levels
  | «enum» =>
    obtain ⟨s, -, hbuild⟩ := ContentRecord.exists_of_ofContent (I := fun _ => True) trivial
      (fun _ _ _ _ _ _ _ _ => trivial) hc h
    obtain ⟨ns, -, hbuild⟩ := bind_eq_ok_iff.mp hbuild
    obtain ⟨name, -, hbuild⟩ := bind_eq_ok_iff.mp hbuild
    cases hbuild
    simp [toJson, Value.depth, Value.membersDepth]
  | customScalar =>
    obtain ⟨s, -, hbuild⟩ := ContentRecord.exists_of_ofContent (I := fun _ => True) trivial
      (fun _ _ _ _ _ _ _ _ => trivial) hc h
    obtain ⟨name, -, hbuild⟩ := bind_eq_ok_iff.mp hbuild
    cases hbuild
    simp [toJson, Value.depth, Value.membersDepth]
  | model =>
    -- a path is the only part of a leaf that nests
    have hmembers : ContentRecord.Preserve levels
        (fun s : Option ModelPath => ∀ path ∈ s, path.toJson.depth ≤ levels)
        modelRecord.members := by
      refine List.forall_mem_singleton.mpr ?_
      rintro c hc add hadd s -
      obtain ⟨path, hpath, rfl⟩ := map_eq_ok_iff.mp hadd
      simpa using path.depth_toJson_le_of_ofContent hc hpath
    obtain ⟨s, hs, hbuild⟩ :=
      ContentRecord.exists_of_ofContent (by simp [modelRecord]) hmembers hc h
    obtain ⟨path, hneed, rfl⟩ := map_eq_ok_iff.mp hbuild
    have hpath := hs path (need_eq_ok_iff.mp hneed)
    simpa [toJson, Value.depth, Value.membersDepth] using hpath

/-- A leaf is encoded within the levels that it was read in. -/
theorem yields_reader (levels : Nat) :
    (reader levels).Yields fun leaf => leaf.toJson.depth ≤ levels := by
  cases levels with
  | zero =>
    exact Yields.bind (P := fun _ => False) (yields_listOrObject (by simp)) fun _ h => h.elim
  | succ levels =>
    refine (yields_tagged (K := fun tag => ∀ leaf, tag = .builtin leaf → leaf.toJson.depth = 1)
      depth_toJson_of_mem_tags _ _ levels).bind fun (tag, c) ⟨htag, hc⟩ => ?_
    dsimp only
    split
    · rename_i leaf hleaf
      exact yields_pure (depth_toJson_le_of_ofContent htag hc hleaf)
    · exact yields_failUnplaced _ _

end Leaf

namespace TypeRef

/-- A layer is one level. -/
theorem depth_toJson_wrap (t : TypeRef) (w : Wrap) :
    (t.wrap w).toJson.depth = t.toJson.depth + 1 := by
  cases w <;> simp [wrap, toJson, Value.depth, Value.membersDepth]

/-- A reference is an object around another one or around a leaf. -/
theorem one_lt_depth_toJson (t : TypeRef) : 1 < t.toJson.depth := by
  cases t with
  | named leaf => simpa [toJson, Value.depth, Value.membersDepth] using leaf.depth_toJson_pos
  | nullable inner => cases inner <;> simp [toJson, Value.depth, Value.membersDepth]
  | list inner => cases inner <;> simp [toJson, Value.depth, Value.membersDepth]

/-- A type reference is encoded within the levels that it was read in. -/
theorem yields_reader (levels : Nat) :
    (reader levels).Yields fun t => t.toJson.depth ≤ levels := by
  induction levels with
  | zero => exact yields_choice (by simp)
  | succ levels ih =>
    refine yields_choice fun f hf form => ?_
    obtain rfl := Option.some.inj hf
    cases form with
    | named =>
      refine (Leaf.yields_reader levels).map fun leaf hleaf => ?_
      simpa [toJson, Value.depth, Value.membersDepth] using hleaf
    | wrapped w =>
      refine ih.map fun t ht => ?_
      rw [depth_toJson_wrap]
      exact Nat.succ_le_succ ht

end TypeRef

/-! ## Lists -/

/-- The items of a list are encoded within fewer levels than the list was read in. -/
theorem yields_listReader {α : Type} {reader : Nat → Reader α} {encode : α → Value}
    (h : ∀ levels, (reader levels).Yields fun a => (encode a).depth ≤ levels) (levels : Nat) :
    (listReader reader levels).Yields fun xs => ∀ x ∈ xs, (encode x).depth < levels := by
  cases levels with
  | zero => exact yields_listOf_none _
  | succ levels =>
    refine yields_listOf fun r hr => ?_
    obtain rfl := Option.some.inj hr
    exact (h levels).mono fun _ => Nat.lt_succ_of_le

theorem ModelPath.yields_listReader (levels : Nat) :
    (ModelPath.listReader levels).Yields fun ps => ∀ p ∈ ps, p.toJson.depth < levels := by
  have hlist := SelectionModels.yields_listReader ModelPath.yields_reader levels
  cases levels <;> exact hlist

/-! ## Selections -/

/-- What is known of a field has room where at most `levels` brackets may be opened. -/
structure Field.Parts.Within (p : Field.Parts) (levels : Nat) : Prop where
  type : ∀ t ∈ p.type, t.toJson.depth ≤ levels
  fieldSets : ∀ s ∈ p.fieldSets, s.toJson.depth < levels
  implementationFieldSets : ∀ s ∈ p.implementationFieldSets, s.toJson.depth < levels
  baseFieldSet : ∀ s ∈ p.baseFieldSet, s.toJson.depth ≤ levels

theorem Field.Parts.within_blank (levels : Nat) : Field.Parts.blank.Within levels := by
  constructor <;> simp [Field.Parts.blank]

/-- A field nests one level deeper than the deepest of its parts; what has been left out nests no
deeper than its type. -/
theorem Field.depth_toJson_le_of_build {levels : Nat} {p : Field.Parts} (h : p.Within levels)
    {f : Field} (hbuild : p.build = .ok f) : f.toJson.depth ≤ levels + 1 := by
  obtain ⟨responseName, -, hbuild⟩ := bind_eq_ok_iff.mp hbuild
  obtain ⟨type, htype, hbuild⟩ := bind_eq_ok_iff.mp hbuild
  cases hbuild
  have htypeDepth := h.type type (need_eq_ok_iff.mp htype)
  -- the type leaves room for the lists, which are written even where they were left out
  have hpos : 0 < levels :=
    Nat.lt_of_lt_of_le (Nat.lt_of_succ_lt type.one_lt_depth_toJson) htypeDepth
  have hsets : (Value.array (FieldSet.listToJson p.fieldSets)).depth ≤ levels :=
    Value.depth_array_le hpos (by simpa [FieldSet.listToJson_eq_map] using h.fieldSets)
  have himplementations :
      (Value.array (FieldSet.listToJson p.implementationFieldSets)).depth ≤ levels :=
    Value.depth_array_le hpos
      (by simpa [FieldSet.listToJson_eq_map] using h.implementationFieldSets)
  have hbase : (FieldSet.optionToJson p.baseFieldSet).depth ≤ levels := by
    cases hset : p.baseFieldSet with
    | none => exact Nat.zero_le _
    | some s => exact h.baseFieldSet s hset
  rw [Field.toJson, Value.depth_object_le_iff]
  simp only [List.forall_mem_cons, Value.depth_optional]
  exact ⟨Nat.zero_le _, htypeDepth, Nat.zero_le _, Nat.zero_le _, Nat.zero_le _, hsets,
    himplementations, hbase, by simp⟩

/-- What is known of a field set has room where at most `levels` brackets may be opened. -/
structure FieldSet.Parts.Within (p : FieldSet.Parts) (levels : Nat) : Prop where
  path : ∀ path ∈ p.path, path.toJson.depth ≤ levels
  fields : ∀ f ∈ p.fields, f.toJson.depth < levels
  implements : ∀ path ∈ p.implements, path.toJson.depth < levels

theorem FieldSet.Parts.within_blank (levels : Nat) : FieldSet.Parts.blank.Within levels := by
  constructor <;> simp [FieldSet.Parts.blank]

/-- A field set nests one level deeper than the deepest of its parts; what has been left out nests
no deeper than its path. -/
theorem FieldSet.depth_toJson_le_of_build {levels : Nat} {p : FieldSet.Parts} (h : p.Within levels)
    {s : FieldSet} (hbuild : p.build = .ok s) : s.toJson.depth ≤ levels + 1 := by
  obtain ⟨modelName, -, hbuild⟩ := bind_eq_ok_iff.mp hbuild
  obtain ⟨path, hpath, hbuild⟩ := bind_eq_ok_iff.mp hbuild
  cases hbuild
  have hpathDepth := h.path path (need_eq_ok_iff.mp hpath)
  -- here it is the path that leaves room
  have hpos : 0 < levels := Nat.lt_of_lt_of_le (by simp) hpathDepth
  have hfields : (Value.array (Field.listToJson p.fields)).depth ≤ levels :=
    Value.depth_array_le hpos (by simpa [Field.listToJson_eq_map] using h.fields)
  have himplements : (Value.array (p.implements.map ModelPath.toJson)).depth ≤ levels :=
    Value.depth_array_le hpos (List.forall_mem_map.mpr h.implements)
  rw [FieldSet.toJson, Value.depth_object_le_iff]
  simp only [List.forall_mem_cons]
  exact ⟨Nat.zero_le _, hpathDepth, hfields, himplements, by simp⟩

/-- Selections that are read where at most `levels` brackets may be opened. -/
structure SelectionsWithin (levels : Nat) : Prop where
  field : (Field.reader levels).Yields fun f => f.toJson.depth ≤ levels
  fieldSet : (FieldSet.reader levels).Yields fun s => s.toJson.depth ≤ levels
  fields : (Field.listReader levels).Yields fun fs => ∀ f ∈ fs, f.toJson.depth < levels
  fieldSets : (FieldSet.listReader levels).Yields fun ss => ∀ s ∈ ss, s.toJson.depth < levels

namespace SelectionsWithin

variable {levels : Nat}

/-- Without a bracket there is no selection. -/
theorem zero : SelectionsWithin 0 where
  field := yields_noRecord _ _
  fieldSet := yields_noRecord _ _
  fields := yields_listOf_none _
  fieldSets := yields_listOf_none _

/-- A bracket around the parts of a field. -/
theorem succ_field (h : SelectionsWithin levels) :
    (Field.reader (levels + 1)).Yields fun f => f.toJson.depth ≤ levels + 1 := by
  refine yields_record (I := fun p => p.Within levels) (Field.Parts.within_blank levels) ?_
    (fun p f hp hbuild => Field.depth_toJson_le_of_build hp hbuild) _
  simp only [Field.recordOf, List.forall_mem_cons]
  refine ⟨?_, ?_, ?_, ?_, ?_, ?_, ?_, ?_, by simp⟩
  · exact (yields_true _).map fun _ _ p hp => { hp with }
  · exact (TypeRef.yields_reader levels).map fun t ht p hp => { hp with type := by simpa using ht }
  · exact (yields_true _).map fun _ _ p hp => { hp with }
  · exact (yields_true _).map fun _ _ p hp => { hp with }
  · exact (yields_true _).map fun _ _ p hp => { hp with }
  · exact h.fieldSets.map fun _ hsets p hp => { hp with fieldSets := hsets }
  · exact h.fieldSets.map fun _ hsets p hp => { hp with implementationFieldSets := hsets }
  · exact (yields_optional h.fieldSet).map fun _ hset p hp => { hp with baseFieldSet := hset }

/-- A bracket around the parts of a field set. -/
theorem succ_fieldSet (h : SelectionsWithin levels) :
    (FieldSet.reader (levels + 1)).Yields fun s => s.toJson.depth ≤ levels + 1 := by
  refine yields_record (I := fun p => p.Within levels) (FieldSet.Parts.within_blank levels) ?_
    (fun p s hp hbuild => FieldSet.depth_toJson_le_of_build hp hbuild) _
  simp only [FieldSet.recordOf, List.forall_mem_cons]
  refine ⟨?_, ?_, ?_, ?_, by simp⟩
  · exact (yields_true _).map fun _ _ p hp => { hp with }
  · exact (ModelPath.yields_reader levels).map fun path hpath p hp =>
      { hp with path := by simpa using hpath }
  · exact h.fields.map fun _ hfields p hp => { hp with fields := hfields }
  · exact (ModelPath.yields_listReader levels).map fun _ hpaths p hp =>
      { hp with implements := hpaths }

theorem succ (h : SelectionsWithin levels) : SelectionsWithin (levels + 1) where
  field := h.succ_field
  fieldSet := h.succ_fieldSet
  fields := yields_listOf fun r hr => by
    obtain rfl := Option.some.inj hr
    exact h.field.mono fun _ => Nat.lt_succ_of_le
  fieldSets := yields_listOf fun r hr => by
    obtain rfl := Option.some.inj hr
    exact h.fieldSet.mono fun _ => Nat.lt_succ_of_le

/-- Selections are encoded within the levels that they were read in, by induction on these. -/
theorem all (levels : Nat) : SelectionsWithin levels := by
  induction levels with
  | zero => exact zero
  | succ levels ih => exact ih.succ

end SelectionsWithin

/-! ## Documents -/

theorem CustomScalar.yields_reader (levels : Nat) :
    (reader levels).Yields fun s => s.toJson.depth ≤ levels := by
  cases levels with
  | zero => exact yields_noRecord _ _
  | succ levels =>
    refine (yields_true _).mono fun s _ => ?_
    simp [toJson, Value.depth, Value.membersDepth]

/-- A name and a data field take one level around the field. -/
theorem yields_namedFieldReader {α : Type} {make : String → Field → α} {encode : α → Value}
    (hencode : ∀ name dataField, encode (make name dataField) =
      .object [("name", .string name), ("data_field", dataField.toJson)])
    (description : String) (levels : Nat) :
    (namedFieldReader description make levels).Yields fun a => (encode a).depth ≤ levels := by
  cases levels with
  | zero => exact yields_noRecord _ _
  | succ levels =>
    refine yields_record (I := fun p => ∀ f ∈ p.dataField, f.toJson.depth ≤ levels)
      (by simp [namedFieldRecord])
      (List.forall_mem_cons.mpr ⟨?_, List.forall_mem_singleton.mpr ?_⟩) ?_ _
    · exact (yields_true _).map fun _ _ p hp => hp
    · exact (SelectionsWithin.all levels).field.map fun f hf p _ => by simpa using hf
    · intro p a hp hbuild
      obtain ⟨name, -, hbuild⟩ := bind_eq_ok_iff.mp hbuild
      obtain ⟨dataField, hfield, hbuild⟩ := bind_eq_ok_iff.mp hbuild
      cases hbuild
      have hdepth := hp dataField (need_eq_ok_iff.mp hfield)
      rw [hencode, Value.depth_object_le_iff]
      simp only [List.forall_mem_cons]
      exact ⟨Nat.zero_le _, hdepth, by simp⟩

theorem Operation.yields_reader (levels : Nat) :
    (reader levels).Yields fun o => o.toJson.depth ≤ levels := by
  have hencode : ∀ name dataField, (Operation.mk name dataField).toJson =
      .object [("name", .string name), ("data_field", dataField.toJson)] := fun _ _ => rfl
  exact yields_namedFieldReader hencode _ levels

theorem Fragment.yields_reader (levels : Nat) :
    (reader levels).Yields fun f => f.toJson.depth ≤ levels := by
  have hencode : ∀ name dataField, (Fragment.mk name dataField).toJson =
      .object [("name", .string name), ("data_field", dataField.toJson)] := fun _ _ => rfl
  exact yields_namedFieldReader hencode _ levels

namespace Document

/-- What is known of a document has room where at most `levels` brackets may be opened. -/
structure Parts.Within (p : Parts) (levels : Nat) : Prop where
  customScalars : ∀ s ∈ p.customScalars, s.toJson.depth < levels
  operations : ∀ o ∈ p.operations, o.toJson.depth < levels
  fragments : ∀ f ∈ p.fragments, f.toJson.depth < levels

/-- A document has room for its lists even where nothing is in them. -/
theorem yields_reader (levels : Nat) :
    (reader (levels + 2)).Yields fun d => d.toJson.depth ≤ levels + 2 := by
  refine yields_record (I := fun p => p.Within (levels + 1))
    (by constructor <;> simp [recordOf]) ?_ ?_ _
  · simp only [recordOf, List.forall_mem_cons]
    refine ⟨?_, ?_, ?_, ?_, by simp⟩
    · exact (yields_true _).map fun _ _ p hp => { hp with }
    · exact (yields_listReader CustomScalar.yields_reader (levels + 1)).map
        fun _ hscalars p hp => { hp with customScalars := hscalars }
    · exact (yields_listReader Operation.yields_reader (levels + 1)).map
        fun _ hoperations p hp => { hp with operations := hoperations }
    · exact (yields_listReader Fragment.yields_reader (levels + 1)).map
        fun _ hfragments p hp => { hp with fragments := hfragments }
  · intro p d hp hbuild
    obtain ⟨ns, -, hbuild⟩ := bind_eq_ok_iff.mp hbuild
    cases hbuild
    have hpos := Nat.succ_pos levels
    rw [toJson, Value.depth_object_le_iff]
    simp only [List.forall_mem_cons]
    exact ⟨Nat.zero_le _,
      Value.depth_array_le hpos (List.forall_mem_map.mpr hp.customScalars),
      Value.depth_array_le hpos (List.forall_mem_map.mpr hp.operations),
      Value.depth_array_le hpos (List.forall_mem_map.mpr hp.fragments), by simp⟩

/-- Whatever a document has been decoded from, its encoding does not nest too deep. -/
theorem depth_toJson_le_of_decode {input : Bytes} {d : Document}
    (h : decode reader input = .ok d) : d.toJson.depth ≤ nestingLimit := by
  rw [decode] at h
  split at h
  · rename_i d' rest hrun
    cases h
    exact yields_reader 125 hrun
  · cases h

end Document

end SelectionModels
