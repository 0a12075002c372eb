import SelectionModels.Proofs.DecodedTrees
import SelectionModels.Proofs.WrittenTrees

/-! # Paths without elements

A document is written with its model paths, in field sets and in leaves. When the elements of any of
them are taken away, the tree of what is left has a path without elements where a path is read, and
no such tree belongs to a decoded document.

* `Value.Emptied`: a value in which one path has lost its elements;
* `Format.HasEmptyPath`: a tree in which such a path is read;
* `Format.decode_of_hasEmptyPath`: no text with such a tree is decoded;
* `Document.hasEmptyPath_of_emptied`: in documents every path is read;
* `Document.decodeText_of_emptied`: none of them is decoded.
-/

namespace SelectionModels

open Json Reader Tree

/-! ## Taking elements away -/

/-- The second value is the first one without the elements of one of its model paths. -/
inductive Json.Value.Emptied : Value → Value → Prop where
  | here (p : ModelPath) :
    Emptied p.toJson (.object [("namespace", .string p.ns), ("elements", .array [])])
  | item {before after : List Value} {v v' : Value} (h : Emptied v v') :
    Emptied (.array (before ++ v :: after)) (.array (before ++ v' :: after))
  | member {before after : List (String × Value)} {key : String} {v v' : Value}
    (h : Emptied v v') :
    Emptied (.object (before ++ (key, v) :: after)) (.object (before ++ (key, v') :: after))

namespace Json.Value.Emptied

variable {w : Value}

/-- Strings, truth values and what may be missing hold no path. -/
@[simp] theorem not_string (s : String) : ¬(string s).Emptied w := by
  intro h
  cases h

@[simp] theorem not_bool (b : Bool) : ¬(bool b).Emptied w := by
  intro h
  cases h

@[simp] theorem not_optional (s : Option String) : ¬(optional s).Emptied w := by
  intro h
  cases s <;> cases h

/-- What is emptied in a list is emptied in one of its items. -/
theorem exists_of_array {items : List Value} (h : (array items).Emptied w) :
    ∃ before after v v', items = before ++ v :: after ∧ v.Emptied v' ∧
      w = .array (before ++ v' :: after) := by
  generalize hv : array items = value at h
  cases h with
  | here => cases hv
  | item h => exact ⟨_, _, _, _, by injection hv, h, rfl⟩
  | member => cases hv

/-- An object is a path itself, or one of its members has lost elements. -/
theorem object_cases {members : List (String × Value)} (h : (object members).Emptied w) :
    (∃ p : ModelPath, object members = p.toJson ∧
      w = .object [("namespace", .string p.ns), ("elements", .array [])]) ∨
    ∃ before after key v v', members = before ++ (key, v) :: after ∧ v.Emptied v' ∧
      w = .object (before ++ (key, v') :: after) := by
  generalize hv : object members = value at h
  cases h with
  | here p => exact .inl ⟨p, rfl, rfl⟩
  | item => cases hv
  | member h => exact .inr ⟨_, _, _, _, _, by injection hv, h, rfl⟩

/-- What is emptied in an object that is no path is emptied in one of its members. -/
theorem exists_of_object {members : List (String × Value)} (h : (object members).Emptied w)
    (hpath : ∀ p : ModelPath, object members ≠ p.toJson) :
    ∃ before after key v v', members = before ++ (key, v) :: after ∧ v.Emptied v' ∧
      w = .object (before ++ (key, v') :: after) := by
  refine h.object_cases.resolve_left ?_
  rintro ⟨p, hp, -⟩
  exact hpath p hp

@[simp] theorem not_strings (names : List String) : ¬(strings names).Emptied w := by
  intro h
  obtain ⟨before, after, v, v', hitems, hv, -⟩ := h.exists_of_array
  have hmem : v ∈ names.map string := by simp [hitems]
  obtain ⟨s, -, rfl⟩ := List.mem_map.mp hmem
  exact not_string s hv

/-- An object without paths in its members is not emptied. -/
theorem not_object {members : List (String × Value)}
    (hpath : ∀ p : ModelPath, object members ≠ p.toJson)
    (h : ∀ m ∈ members, ∀ v', ¬m.2.Emptied v') : ¬(object members).Emptied w := by
  intro hw
  obtain ⟨before, after, key, v, v', rfl, hv, -⟩ := hw.exists_of_object hpath
  exact h (key, v) (by simp) v' hv

end Json.Value.Emptied

/-! ## Trees with such a path -/

/-- What is written under a key is found under it. -/
theorem Json.Value.mem_entries {members : List (String × Value)} {names : List String}
    {key : String} {v : Value} (hmem : (key, v) ∈ members) (hkey : key ∈ names) :
    (key, v.tree) ∈ (object members).tree.entries names := by
  rw [tree, memberTrees_eq_map]
  refine List.mem_filterMap.mpr ⟨(some key, v.tree), List.mem_map_of_mem hmem, ?_⟩
  simp [Option.filter, hkey]

/-- The tree of a path that has lost its elements. -/
def Json.Tree.IsEmptyPath (t : Tree) : Prop :=
  ("elements", .list []) ∈ t.entries (Format.modelPath.keys t)

/-- An object with an empty list of elements is the tree of an empty path. -/
theorem Json.Value.isEmptyPath_tree {members : List (String × Value)}
    (h : ("elements", .array []) ∈ members) : (object members).tree.IsEmptyPath :=
  mem_entries h (by simp [Format.keys, Format.parts])

namespace Format

/-- In a tree whose keys stand once, no two entries have one key. -/
theorem OnceKeyed.nodup_entries {f : Format} {t : Tree} (h : f.OnceKeyed t)
    (hkeys : (f.keys t).Nodup) : ((t.entries (f.keys t)).map (·.1)).Nodup := by
  cases t with
  | object members =>
    refine List.nodup_iff_count_le_one.mpr fun key => ?_
    by_cases hkey : key ∈ f.keys (.object members)
    · rw [← count_keys_of_object hkey]
      exact (h members rfl).1 key hkey
    · have hnot : key ∉ ((Tree.object members).entries (f.keys (.object members))).map (·.1) := by
        intro hmem
        obtain ⟨entry, hentry, rfl⟩ := List.mem_map.mp hmem
        exact hkey (mem_of_mem_entries hentry)
      rw [List.count_eq_zero_of_not_mem hnot]
      exact Nat.zero_le 1
  | list items => exact nodup_map_fst_zip hkeys items
  | _ => exact List.nodup_nil

/-- A path that has its elements has not lost them. -/
theorem WellFormed.not_isEmptyPath {t : Tree} (h : modelPath.WellFormed t) : ¬t.IsEmptyPath := by
  intro hempty
  obtain ⟨ns, elements, hne, -, helements⟩ := h.path rfl
  have hnodup := h.onceKeyed.nodup_entries (by simp [keys, parts])
  have hsame := List.inj_on_of_nodup_map hnodup hempty helements rfl
  obtain ⟨-, hlist⟩ := Prod.mk.inj hsame
  exact hne (List.map_eq_nil_iff.mp (Tree.list.inj hlist).symm)

/-- Somewhere in the tree, a path without elements is read. -/
def HasEmptyPath (f : Format) (t : Tree) : Prop :=
  ∃ u, f.Contains t modelPath u ∧ u.IsEmptyPath

/-- What has been read from a tree has non-empty paths, so the tree has no empty one. -/
theorem Sound.not_hasEmptyPath {f : Format} {t : Tree} {v : f.Data} (h : f.Sound t v) :
    ¬f.HasEmptyPath t := by
  rintro ⟨u, hu, hempty⟩
  exact (h.wellFormed _ _ hu).not_isEmptyPath hempty

/-- A text in which a path without elements is read is not decoded. -/
theorem decode_of_hasEmptyPath {f : Format} {source rest : Bytes} {t : Tree}
    (ht : t.StandsAt source rest) (h : f.HasEmptyPath t) :
    ∃ path message, decode f.reader source = .error (.decode path message) := by
  cases hread : (f.reader nestingLimit).run source with
  | failed failure rest' => exact ⟨_, _, by rw [decode, hread]; rfl⟩
  | done v rest' =>
    obtain ⟨t', ht', hsound⟩ := f.shows_reader nestingLimit hread
    obtain ⟨rfl, -⟩ := ht'.unique ht
    exact absurd h hsound.not_hasEmptyPath

end Format

/-- Under a key, a path without elements is read. -/
def Part.HasEmptyPath (part : Part) (t : Tree) : Prop :=
  ∃ u, part.Contains t .modelPath u ∧ u.IsEmptyPath

namespace Part

/-- What may be missing holds the empty path of what is there. -/
theorem hasEmptyPath_one {f : Format} {t : Tree} (h : f.HasEmptyPath t) :
    (one f).HasEmptyPath t := by
  obtain ⟨u, hu, hempty⟩ := h
  exact ⟨u, ⟨f, t, .one, hu⟩, hempty⟩

/-- One of the values of a list has lost the elements of a path. -/
theorem hasEmptyPath_many {f : Format} {items : List Value} {w : Value}
    (hw : (Value.array items).Emptied w)
    (h : ∀ v ∈ items, ∀ v', v.Emptied v' → f.HasEmptyPath v'.tree) :
    (many f).HasEmptyPath w.tree := by
  obtain ⟨before, after, v, v', rfl, hv, rfl⟩ := hw.exists_of_array
  obtain ⟨u, hu, hempty⟩ := h v (by simp) v' hv
  refine ⟨u, ⟨f, v'.tree, .many ?_, hu⟩, hempty⟩
  rw [Value.itemTrees_eq_map]
  simp

end Part

/-- One of the members of an object has lost the elements of a path. -/
theorem Format.hasEmptyPath_of_members {f : Format} {members : List (String × Value)} {w : Value}
    (hw : (Value.object members).Emptied w)
    (hpath : ∀ p : ModelPath, Value.object members ≠ p.toJson)
    (h : ∀ m ∈ members, ∀ v', m.2.Emptied v' →
      ∃ part, (f.parts w.tree).lookup m.1 = some part ∧ part.HasEmptyPath v'.tree) :
    f.HasEmptyPath w.tree := by
  obtain ⟨before, after, key, v, v', rfl, hv, rfl⟩ := hw.exists_of_object hpath
  obtain ⟨part, hpart, u, ⟨g, t, hheld, hu⟩, hempty⟩ := h (key, v) (by simp) v' hv
  have hentry : (key, v'.tree) ∈ (Value.object (before ++ (key, v') :: after)).tree.entries
      (f.keys (Value.object (before ++ (key, v') :: after)).tree) :=
    Value.mem_entries (by simp) (mem_keys_of_lookup hpart)
  exact ⟨u, .under hentry hpart hheld hu, hempty⟩

/-! ## Parts of a document -/

/-- A path is emptied as a whole. -/
theorem ModelPath.hasEmptyPath_of_emptied (p : ModelPath) {w : Value} (h : p.toJson.Emptied w) :
    Format.modelPath.HasEmptyPath w.tree := by
  rcases h.object_cases with ⟨q, -, rfl⟩ | ⟨before, after, key, v, v', hmembers, hv, -⟩
  · exact ⟨_, .here, Value.isEmptyPath_tree (by simp)⟩
  · -- neither the namespace nor the elements hold a path
    have hplain : ∀ m ∈ [("namespace", Value.string p.ns), ("elements", .strings p.elements)],
        ∀ v', ¬m.2.Emptied v' := by simp
    exact absurd hv (hplain (key, v) (by simp [hmembers]) v')

/-- Only a model has a path to be emptied. -/
theorem Leaf.hasEmptyPath_of_emptied (l : Leaf) {w : Value} (h : l.toJson.Emptied w) :
    Format.leaf.HasEmptyPath w.tree := by
  cases l with
  | model path =>
    obtain ⟨before, after, key, v, v', hmembers, hv, rfl⟩ :=
      h.exists_of_object (by simp [ModelPath.toJson])
    cases before with
    | nil =>
      obtain ⟨⟨-, rfl⟩, -⟩ : (key = "kind" ∧ v = .string "model") ∧ _ := by
        simpa [eq_comm] using hmembers
      exact absurd hv (Value.Emptied.not_string _)
    | cons m before =>
      obtain ⟨rfl, hlast⟩ := List.cons.inj hmembers
      obtain ⟨rfl, ⟨rfl, rfl⟩, rfl⟩ :
          before = [] ∧ (key = "path" ∧ v = path.toJson) ∧ after = [] := by
        simpa [List.singleton_eq_append_iff] using hlast
      obtain ⟨u, hu, hempty⟩ := path.hasEmptyPath_of_emptied hv
      have hentry : ("path", v'.tree) ∈ (Value.object
          [("kind", .string "model"), ("path", v')]).tree.entries ["kind", "path"] :=
        Value.mem_entries (by simp) (by simp)
      exact ⟨u, .under hentry rfl .one hu, hempty⟩
  | _ => exact absurd h (Value.Emptied.not_object (by simp [ModelPath.toJson]) (by simp))

/-- An emptied path is below the last layer, in the leaf. -/
theorem TypeRef.hasEmptyPath_of_emptied (t : TypeRef) {w : Value} (h : t.toJson.Emptied w) :
    Format.typeRef.HasEmptyPath w.tree := by
  induction t generalizing w with
  | named leaf =>
    refine Format.hasEmptyPath_of_members h (by simp [ModelPath.toJson]) ?_
    refine List.forall_mem_singleton.mpr fun v hv => ⟨.one .leaf, rfl, ?_⟩
    exact Part.hasEmptyPath_one (leaf.hasEmptyPath_of_emptied hv)
  | nullable inner ih =>
    refine Format.hasEmptyPath_of_members h (by simp [ModelPath.toJson]) ?_
    exact List.forall_mem_singleton.mpr fun v hv =>
      ⟨.one .typeRef, rfl, Part.hasEmptyPath_one (ih hv)⟩
  | list inner ih =>
    refine Format.hasEmptyPath_of_members h (by simp [ModelPath.toJson]) ?_
    exact List.forall_mem_singleton.mpr fun v hv =>
      ⟨.one .typeRef, rfl, Part.hasEmptyPath_one (ih hv)⟩

mutual

theorem Field.hasEmptyPath_of_emptied : (f : Field) → {w : Value} → f.toJson.Emptied w →
    Format.field.HasEmptyPath w.tree
  | .mk responseName type description deprecationReason isOverride fieldSets
      implementationFieldSets baseFieldSet, w, h => by
    refine Format.hasEmptyPath_of_members h (by simp [ModelPath.toJson]) ?_
    simp only [List.forall_mem_cons]
    refine ⟨by simp, fun v hv => ⟨.one .typeRef, rfl, ?_⟩, by simp, by simp, by simp,
      fun v hv => ⟨.many .fieldSet, rfl, ?_⟩, fun v hv => ⟨.many .fieldSet, rfl, ?_⟩,
      fun v hv => ⟨.one .fieldSet, rfl, ?_⟩, by simp⟩
    · exact Part.hasEmptyPath_one (type.hasEmptyPath_of_emptied hv)
    · exact Part.hasEmptyPath_many hv (FieldSet.hasEmptyPath_of_emptied_list fieldSets)
    · exact Part.hasEmptyPath_many hv
        (FieldSet.hasEmptyPath_of_emptied_list implementationFieldSets)
    · exact Part.hasEmptyPath_one (FieldSet.hasEmptyPath_of_emptied_option baseFieldSet hv)
termination_by structural f => f

theorem FieldSet.hasEmptyPath_of_emptied : (s : FieldSet) → {w : Value} → s.toJson.Emptied w →
    Format.fieldSet.HasEmptyPath w.tree
  | .mk modelName path fields implements, w, h => by
    refine Format.hasEmptyPath_of_members h (by simp [ModelPath.toJson]) ?_
    simp only [List.forall_mem_cons]
    refine ⟨by simp, fun v hv => ⟨.one .modelPath, rfl, ?_⟩, fun v hv => ⟨.many .field, rfl, ?_⟩,
      fun v hv => ⟨.many .modelPath, rfl, ?_⟩, by simp⟩
    · exact Part.hasEmptyPath_one (path.hasEmptyPath_of_emptied hv)
    · exact Part.hasEmptyPath_many hv (Field.hasEmptyPath_of_emptied_list fields)
    · refine Part.hasEmptyPath_many hv (List.forall_mem_map.mpr fun p _ v' hv' => ?_)
      exact p.hasEmptyPath_of_emptied hv'
termination_by structural s => s

theorem FieldSet.hasEmptyPath_of_emptied_option : (s : Option FieldSet) → {w : Value} →
    (FieldSet.optionToJson s).Emptied w → Format.fieldSet.HasEmptyPath w.tree
  | none, _, h => nomatch h
  | some s, _, h => FieldSet.hasEmptyPath_of_emptied s h
termination_by structural s => s

theorem FieldSet.hasEmptyPath_of_emptied_list : (sets : List FieldSet) →
    ∀ v ∈ FieldSet.listToJson sets, ∀ v', v.Emptied v' → Format.fieldSet.HasEmptyPath v'.tree
  | [] => by simp [FieldSet.listToJson]
  | s :: rest => List.forall_mem_cons.mpr
    ⟨fun _ h => FieldSet.hasEmptyPath_of_emptied s h, FieldSet.hasEmptyPath_of_emptied_list rest⟩
termination_by structural sets => sets

theorem Field.hasEmptyPath_of_emptied_list : (fields : List Field) →
    ∀ v ∈ Field.listToJson fields, ∀ v', v.Emptied v' → Format.field.HasEmptyPath v'.tree
  | [] => by simp [Field.listToJson]
  | f :: rest => List.forall_mem_cons.mpr
    ⟨fun _ h => Field.hasEmptyPath_of_emptied f h, Field.hasEmptyPath_of_emptied_list rest⟩
termination_by structural fields => fields

end

/-- A custom scalar has no path. -/
theorem CustomScalar.not_emptied (s : CustomScalar) {w : Value} : ¬s.toJson.Emptied w :=
  Value.Emptied.not_object (by simp [ModelPath.toJson]) (by simp)

/-- A name and a data field. -/
theorem hasEmptyPath_of_emptied_namedField {f : Format} (name : String) (dataField : Field)
    (hparts : ∀ t, f.parts t = [("name", .plain), ("data_field", .one .field)]) {w : Value}
    (h : (Value.object [("name", .string name), ("data_field", dataField.toJson)]).Emptied w) :
    f.HasEmptyPath w.tree := by
  refine Format.hasEmptyPath_of_members h (by simp [ModelPath.toJson]) ?_
  simp only [List.forall_mem_cons, hparts]
  refine ⟨by simp, fun v hv => ⟨.one .field, rfl, ?_⟩, by simp⟩
  exact Part.hasEmptyPath_one (dataField.hasEmptyPath_of_emptied hv)

namespace Document

/-- Every model path of a document is where a path is read. -/
theorem hasEmptyPath_of_emptied (d : Document) {w : Value} (h : d.toJson.Emptied w) :
    Format.document.HasEmptyPath w.tree := by
  refine Format.hasEmptyPath_of_members h (by simp [ModelPath.toJson]) ?_
  simp only [List.forall_mem_cons]
  refine ⟨by simp, fun v hv => ⟨.many .customScalar, rfl, ?_⟩,
    fun v hv => ⟨.many .operation, rfl, ?_⟩, fun v hv => ⟨.many .fragment, rfl, ?_⟩, by simp⟩
  · refine Part.hasEmptyPath_many hv (List.forall_mem_map.mpr fun s _ v' hv' => ?_)
    exact absurd hv' s.not_emptied
  · refine Part.hasEmptyPath_many hv (List.forall_mem_map.mpr fun o _ v' hv' => ?_)
    exact hasEmptyPath_of_emptied_namedField o.name o.dataField (fun _ => rfl) hv'
  · refine Part.hasEmptyPath_many hv (List.forall_mem_map.mpr fun f _ v' hv' => ?_)
    exact hasEmptyPath_of_emptied_namedField f.name f.dataField (fun _ => rfl) hv'

/-- Without the elements of one of its paths, a document is not decoded any more. -/
theorem decodeText_of_emptied (d : Document) {w : Value} (h : d.toJson.Emptied w) {s : String}
    (hs : w.SpelledAs s) : ∃ path message, decodeText reader s = .error (.decode path message) :=
  Format.decode_of_hasEmptyPath (f := .document) (standsAt_textBytes hs)
    (d.hasEmptyPath_of_emptied h)

end Document

end SelectionModels
