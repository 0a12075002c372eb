import SelectionModels.Proofs.Decoding
import SelectionModels.Proofs.Spoiling

/-! # Integers are located

An integer in place of any one string of a document makes reading fail, and the path of the error
leads to the string. Only a leaf hides its strings: beside the kind they are kept until the kind is
known, so it is the leaf that is at fault, unless the integer is out of range.

* `reported`: the path of the error, from the location of the string;
* `Locates`: a reader that takes a value and reports where an integer stands in it;
* `Locates.record`, `Locates.listOf`: from the members and the items;
* `Document.locates_reader`: documents.
-/

namespace SelectionModels

open Json Reader

variable {α β σ : Type} {z : Int} {levels : Nat}

/-! ## Reports -/

/-- Where a leaf reports an integer that stands at the location in it. -/
def reportedInLeaf (z : Int) (location : Location) : Location :=
  if held z = true ∧ location ≠ [.key "kind"] then [] else location

/-- The kind of a leaf is read as soon as it is met. -/
theorem reportedInLeaf_kind (z : Int) : reportedInLeaf z [.key "kind"] = [.key "kind"] := by
  simp [reportedInLeaf]

/-- Beside the kind an integer is kept, and found wanting only when its place is forgotten. -/
theorem reportedInLeaf_of_held (hheld : held z = true) {key : String} (hkey : key ≠ "kind")
    (location : Location) : reportedInLeaf z (.key key :: location) = [] := by
  simp [reportedInLeaf, hheld, hkey]

/-- An integer that cannot be held is out of place wherever it stands. -/
theorem reportedInLeaf_of_not_held (hheld : held z = false) (location : Location) :
    reportedInLeaf z location = location := by
  simp [reportedInLeaf, hheld]

/-- Where an integer that stands at the location is reported. A leaf is what stands under the key
`named`. -/
def reported (z : Int) : Location → Location
  | [] => []
  | step :: location =>
    step :: if step = .key "named" then reportedInLeaf z location else reported z location

theorem reported_index (z : Int) (n : Nat) (location : Location) :
    reported z (.index n :: location) = .index n :: reported z location := by
  simp [reported]

/-- Outside of leaves every step is reported. -/
theorem reported_key {key : String} (h : key ≠ "named") (z : Int) (location : Location) :
    reported z (.key key :: location) = .key key :: reported z location := by
  simp [reported, h]

/-- Below `named` stands the leaf. -/
theorem reported_named (z : Int) (location : Location) :
    reported z (.key "named" :: location) = .key "named" :: reportedInLeaf z location := by
  simp [reported]

/-- The reader takes the value, and it reports an integer in place of any string in it. -/
structure Locates (z : Int) (r : Reader α) (v : Value) : Prop where
  reads : ∃ result, r.Reads v result
  fails : ∀ ⦃location : Location⦄ ⦃spoiled : Value⦄,
    v.Replaced z location spoiled → r.FailsAt spoiled (reported z location)

namespace Locates

variable {r : Reader α} {v : Value}

/-- What is made of a value does not touch the errors. -/
theorem map (h : Locates z r v) (f : α → β) : Locates z (f <$> r) v where
  reads := h.reads.imp' f fun _ hread => hread.map f
  fails _ _ hreplaced := (h.fails hreplaced).map f

theorem text (s : String) : Locates z Reader.text (.string s) where
  reads := ⟨s, reads_text s⟩
  fails := by
    rintro _ _ ⟨⟩
    exact failsAt_textAs z _

/-- There is no string in a truth value. -/
theorem flag (b : Bool) : Locates z Reader.flag (.bool b) where
  reads := ⟨b, reads_flag b⟩
  fails := by rintro _ _ ⟨⟩

/-- There is no string in `null`. -/
theorem optional_null (r : Reader α) : Locates z (Reader.optional r) .null where
  reads := ⟨none, reads_optional_null r⟩
  fails := by rintro _ _ ⟨⟩

/-- A value that is there is located by itself. -/
theorem optional (h : Locates z r v) (hv : opening v ≠ .null) :
    Locates z (Reader.optional r) v where
  reads := h.reads.imp' some fun _ hread => reads_optional hread hv
  fails location spoiled hreplaced := by
    refine failsAt_optional (h.fails hreplaced) ?_
    -- neither a number nor a bracketed value is taken for `null`
    cases hreplaced with
    | here => rcases opening_ofInt z with hopening | hopening <;> simp [hopening]
    | item => simp [opening]
    | member => simp [opening]

theorem optionalText (s : Option String) :
    Locates z (Reader.optional Reader.text) (.optional s) := by
  cases s with
  | none => exact optional_null _
  | some s => exact (text s).optional (by simp [opening])

/-- The items before the one that is replaced are read; it is this one that fails. -/
theorem listOf {items : List Value} (h : ∀ v ∈ items, Locates z r v) :
    Locates z (Reader.listOf (some r)) (.array items) := by
  refine ⟨?_, fun location spoiled hreplaced => ?_⟩
  · obtain ⟨results, hresults⟩ := exists_forall₂_iff.mpr fun v hv => (h v hv).reads
    exact ⟨results, reads_listOf hresults⟩
  · obtain ⟨before, after, v, v', inner, rfl, hv, rfl, rfl⟩ := hreplaced.exists_of_array
    have hfails := (h v (List.mem_append_right _ List.mem_cons_self)).fails hv
    rw [reported_index]
    exact failsAt_listOf (fun u hu => (h u (List.mem_append_left _ hu)).reads) hfails

/-- A list of what is located where one bracket less may be opened. -/
theorem listOf_map {toJson : β → Value} {xs : List β}
    (h : ∀ x ∈ xs, (toJson x).depth ≤ levels → Locates z r (toJson x))
    (hdepth : (Value.array (xs.map toJson)).depth ≤ levels + 1) :
    Locates z (Reader.listOf (some r)) (.array (xs.map toJson)) := by
  refine listOf fun v hv => ?_
  have hv' : v.depth ≤ levels := Value.depth_array_le_iff.mp hdepth v hv
  obtain ⟨x, hx, rfl⟩ := List.mem_map.mp hv
  exact h x hx hv'

/-- The items of a list have one level less than the list. -/
theorem listReader {reader : Nat → Reader α} {toJson : β → Value} {xs : List β}
    (h : ∀ levels, ∀ x ∈ xs, (toJson x).depth ≤ levels →
      Locates z (reader levels) (toJson x))
    (hdepth : (Value.array (xs.map toJson)).depth ≤ levels) :
    Locates z (SelectionModels.listReader reader levels) (.array (xs.map toJson)) := by
  cases levels with
  | zero => simp [Value.depth] at hdepth
  | succ levels => exact listOf_map (h levels) hdepth

end Locates

/-! ## Records -/

namespace Json.Reader.Record

variable {r : Record σ α}

/-- The members before the one that fails are known and new. -/
theorem exists_foldsMembers {members : List (String × Value)}
    (h : ∀ m ∈ members, ∃ member, r.members.find? (·.name = m.1) = some member ∧
      ∃ add, member.read.Reads m.2 add)
    (hnames : (members.map (·.1)).Nodup) {seen : List String}
    (hseen : ∀ m ∈ members, m.1 ∉ seen) (s : σ) :
    ∃ s', FoldsMembers r.step (seen, s) members ((members.map (·.1)).reverse ++ seen, s') := by
  induction members generalizing seen s with
  | nil => exact ⟨s, .nil⟩
  | cons m members ih =>
    obtain ⟨⟨member, hmember, add, hread⟩, h⟩ := List.forall_mem_cons.mp h
    obtain ⟨hfresh, hnames⟩ := List.nodup_cons.mp hnames
    obtain ⟨hnew, hseen⟩ := List.forall_mem_cons.mp hseen
    obtain ⟨s', hlater⟩ := ih h hnames (forall_key_not_mem_cons hfresh hseen) (add s)
    rw [List.map_cons, List.reverse_cons, List.append_assoc]
    exact ⟨s', .cons (readsMember_step hmember hread hnew s) hlater⟩

/-- A member that fails is reported under its key. -/
theorem failsAtMember_step {name : String} {member : Member σ}
    (hmember : r.members.find? (·.name = name) = some member) {v : Value} {location : Location}
    (h : member.read.FailsAt v location) {seen : List String} (hseen : name ∉ seen) (s : σ) :
    FailsAtMember (r.step (seen, s) name) v (.key name :: location) := by
  rw [step, hmember]
  simp only [if_neg hseen]
  exact ((h.under (.key name)).bind _).afterColon

end Json.Reader.Record

/-- A record reports what its members report. -/
theorem failsAt_record {r : Record σ α} {members : List (String × Value)}
    (h : List.Forall₂ (fun member m => member.name = m.1 ∧ Locates z member.read m.2)
      r.members members)
    (hnames : (members.map (·.1)).Nodup) (hnamed : ∀ m ∈ members, m.1 ≠ "named")
    {location : Location} {spoiled : Value}
    (hreplaced : (Value.object members).Replaced z location spoiled)
    (description : String) :
    (record description r).FailsAt spoiled (reported z location) := by
  have hmember : ∀ m ∈ members, ∃ member, r.members.find? (·.name = m.1) = some member ∧
      Locates z member.read m.2 := fun m hm =>
    find?_of_forall₂ h ((find?_key_eq_some_iff hnames).mpr ⟨hm, rfl⟩)
  obtain ⟨before, after, key, v, v', inner, rfl, hv, rfl, rfl⟩ := hreplaced.exists_of_object
  have hkey : (key, v) ∈ before ++ (key, v) :: after :=
    List.mem_append_right _ List.mem_cons_self
  obtain ⟨member, hfind, hlocates⟩ := hmember (key, v) hkey
  rw [List.map_append, List.nodup_append] at hnames
  obtain ⟨hbefore, -, hdisjoint⟩ := hnames
  -- what stands before the member that fails is as it was
  have hread : ∀ m ∈ before, ∃ member, r.members.find? (·.name = m.1) = some member ∧
      ∃ add, member.read.Reads m.2 add := by
    intro m hm
    obtain ⟨member, hfind, hlocates⟩ := hmember m (List.mem_append_left _ hm)
    exact ⟨member, hfind, hlocates.reads⟩
  obtain ⟨s, hfolds⟩ := Record.exists_foldsMembers hread hbefore
    (fun _ _ => List.not_mem_nil) r.blank
  have hnew : key ∉ (before.map (·.1)).reverse ++ [] := by
    rw [List.append_nil, List.mem_reverse]
    intro hmem
    exact hdisjoint key hmem key List.mem_cons_self rfl
  have hstep := Record.failsAtMember_step hfind (hlocates.fails hv) hnew s
  rw [reported_key (hnamed _ hkey)]
  exact failsAt_object hfolds hstep _ description _

/-- The members before the one that is replaced are known and new, so the record comes as far as
this one. -/
theorem Locates.record {r : Record σ α} {members : List (String × Value)} {description : String}
    (hreads : ∃ result, (Reader.record description r).Reads (.object members) result)
    (hnames : (members.map (·.1)).Nodup) (hnamed : ∀ m ∈ members, m.1 ≠ "named")
    (h : List.Forall₂ (fun member m => member.name = m.1 ∧ Locates z member.read m.2)
      r.members members) :
    Locates z (Reader.record description r) (.object members) :=
  ⟨hreads, fun _ _ hreplaced => failsAt_record h hnames hnamed hreplaced description⟩

/-! ## Paths -/

namespace ModelPath

/-- A path in content. -/
theorem spoils_ofContent (p : ModelPath) (hdepth : p.toJson.depth ≤ levels) :
    Spoils z levels ofContent p.toJson := by
  cases levels with
  | zero => simp [toJson, Value.depth] at hdepth
  | succ levels =>
    have helements : (Value.strings p.elements).depth ≤ levels :=
      Value.depth_object_le_iff.mp hdepth ("elements", .strings p.elements) (by simp)
    have hspoils : Spoils z (levels + 1) contentRecord.ofContent p.toJson :=
      .object (.record (.cons ⟨rfl, (Spoils.text p.ns).map _⟩
        (.cons ⟨rfl, (Spoils.texts p.elements helements).map _⟩ .nil)) (by simp))
    exact hspoils.bind _

/-- A list of texts outside of content. -/
theorem locates_textsReader (names : List String)
    (hdepth : (Value.strings names).depth ≤ levels) :
    Locates z (textsReader levels) (.strings names) := by
  cases levels with
  | zero => simp at hdepth
  | succ levels => exact .listOf_map (fun s _ _ => .text s) hdepth

/-- A path has two kinds of strings, its namespace and its elements. -/
theorem locates_reader (p : ModelPath) (hdepth : p.toJson.depth ≤ levels) :
    Locates z (reader levels) p.toJson := by
  have hreads := p.readsShape_reader False levels (p.written_toJson False) hdepth
  refine ⟨⟨p, hreads⟩, ?_⟩
  cases levels with
  | zero => simp [toJson, Value.depth] at hdepth
  | succ levels =>
    have helements : (Value.strings p.elements).depth ≤ levels :=
      Value.depth_object_le_iff.mp hdepth ("elements", .strings p.elements) (by simp)
    have hparts : List.Forall₂ (fun member m => member.name = m.1 ∧ Locates z member.read m.2)
        (recordOf Reader.text (textsReader levels)).members
        [("namespace", .string p.ns), ("elements", .strings p.elements)] :=
      .cons ⟨rfl, (Locates.text p.ns).map _⟩
        (.cons ⟨rfl, (locates_textsReader p.elements helements).map _⟩ .nil)
    exact fun _ _ hreplaced =>
      (failsAt_record hparts (by simp) (by simp) hreplaced title).bind _

end ModelPath

/-! ## Leaves -/

namespace Leaf

/-- A kind with members whose content makes the leaf. -/
theorem failsAt_of_spoils {name : String} {tag : Tag} (hkind : tags.lookup name = some tag)
    {members : List (String × Value)} (h : SpoilsMembers z levels (ofContent tag) members)
    (htag : ∀ m ∈ members, m.1 ≠ "kind") {location : Location} {spoiled : Value}
    (hreplaced : (Value.object (("kind", .string name) :: members)).Replaced z location spoiled) :
    (reader (levels + 1)).FailsAt spoiled (reportedInLeaf z location) := by
  obtain ⟨before, after, key, v, v', inner, hmembers, hv, rfl, rfl⟩ := hreplaced.exists_of_object
  -- the kind is written first: it is replaced itself, or it has been read when the integer comes
  cases before with
  | nil =>
    obtain ⟨⟨rfl, rfl⟩, rfl⟩ : ("kind" = key ∧ .string name = v) ∧ members = after := by
      simpa using hmembers
    obtain ⟨⟩ := hv
    rw [reportedInLeaf_kind]
    exact (failsAt_tagged_kind tags levels "kind" members _).bind _
  | cons m before =>
    obtain ⟨rfl, rfl⟩ : ("kind", .string name) = m ∧ members = before ++ (key, v) :: after := by
      simpa using hmembers
    obtain ⟨hbefore, hlater⟩ := List.forall_mem_append.mp htag
    obtain ⟨hkey, hafter⟩ := List.forall_mem_cons.mp hlater
    cases hheld : held z with
    | false =>
      have hfails := h.fails hheld _ (List.mem_append_right _ List.mem_cons_self) hv
      have hreads : ∀ m ∈ before, ∃ c, (content levels).Reads m.2 c :=
        fun m hm => h.reads m (List.mem_append_left _ hm)
      rw [reportedInLeaf_of_not_held hheld]
      exact (failsAt_tagged_member hkind hreads hbefore hkey hfails _).bind _
    | true =>
      obtain ⟨contents, fault, hcontents, herror⟩ := h.spoils hheld rfl hv
      have hcontents' : ContentsOf levels ([] ++ (before ++ (key, v') :: after)) contents :=
        hcontents
      have hnames : ∀ m ∈ before ++ (key, v') :: after, m.1 ≠ "kind" :=
        List.forall_mem_append.mpr ⟨hbefore, List.forall_mem_cons.mpr ⟨hkey, hafter⟩⟩
      rw [reportedInLeaf_of_held hheld hkey]
      refine .of_reads (reads_tagged hkind hcontents' hnames _) fun rest => ?_
      simp [herror, failUnplaced]

/-- A leaf reports an integer in place of any of its strings. -/
theorem failsAt_reader {leaf : Leaf} (hdepth : leaf.toJson.depth ≤ levels) {location : Location}
    {spoiled : Value}
    (hreplaced : leaf.toJson.Replaced z location spoiled) :
    (reader levels).FailsAt spoiled (reportedInLeaf z location) := by
  cases levels with
  | zero => cases leaf <;> simp [toJson, Value.depth] at hdepth
  | succ levels =>
    -- the kind is the only string of a leaf without parts of its own
    have hbuiltin : ∀ (kind : String) (leaf : Leaf), tags.lookup kind = some (.builtin leaf) →
        (Value.object [("kind", .string kind)]).Replaced z location spoiled →
          (reader (levels + 1)).FailsAt spoiled (reportedInLeaf z location) :=
      fun kind leaf hkind hreplaced => failsAt_of_spoils hkind (.nil _) (by simp) hreplaced
    cases leaf with
    | string => exact hbuiltin "string" .string rfl hreplaced
    | int => exact hbuiltin "int" .int rfl hreplaced
    | float => exact hbuiltin "float" .float rfl hreplaced
    | boolean => exact hbuiltin "boolean" .boolean rfl hreplaced
    | id => exact hbuiltin "id" .id rfl hreplaced
    | «enum» ns name =>
      have hkind : tags.lookup "enum" = some .enum := rfl
      have hspoils : SpoilsMembers z levels (ofContent .enum)
          [("namespace", .string ns), ("name", .string name)] :=
        .record (.cons ⟨rfl, (Spoils.text ns).map _⟩ (.cons ⟨rfl, (Spoils.text name).map _⟩ .nil))
          (by simp)
      exact failsAt_of_spoils hkind hspoils (by simp) hreplaced
    | customScalar name mappedType =>
      have hkind : tags.lookup "custom_scalar" = some .customScalar := rfl
      have hspoils : SpoilsMembers z levels (ofContent .customScalar)
          [("name", .string name), ("mapped_type", .optional mappedType)] :=
        .record (.cons ⟨rfl, (Spoils.text name).map _⟩
          (.cons ⟨rfl, (Spoils.optionalText mappedType).map _⟩ .nil)) (by simp)
      exact failsAt_of_spoils hkind hspoils (by simp) hreplaced
    | model path =>
      have hkind : tags.lookup "model" = some .model := rfl
      have hpath : path.toJson.depth ≤ levels :=
        Value.depth_object_le_iff.mp hdepth ("path", path.toJson) (by simp)
      have hspoils : SpoilsMembers z levels (ofContent .model) [("path", path.toJson)] :=
        .record (.cons ⟨rfl, (path.spoils_ofContent hpath).map _⟩ .nil) (by simp)
      exact failsAt_of_spoils hkind hspoils (by simp) hreplaced

end Leaf

/-! ## Type references -/

namespace TypeRef

/-- A layer around what fails. -/
theorem failsAt_layer {name : String} {w : Wrap} (hchosen : forms.lookup name = some (.wrapped w))
    (hname : name ≠ "named") {inner : Value}
    (hinner : ∀ ⦃location : Location⦄ ⦃spoiled : Value⦄,
      inner.Replaced z location spoiled →
        (reader levels).FailsAt spoiled (reported z location))
    {location : Location} {spoiled : Value}
    (hreplaced : (Value.object [(name, inner)]).Replaced z location spoiled) :
    (reader (levels + 1)).FailsAt spoiled (reported z location) := by
  obtain ⟨v', location, hv, rfl, rfl⟩ := hreplaced.exists_of_single
  rw [reported_key hname]
  exact failsAt_choice hchosen ((hinner hv).map _)

/-- Every layer of a type reference is one step of the location, and below the last one stands the
leaf. -/
theorem locates_reader (t : TypeRef) (hdepth : t.toJson.depth ≤ levels) :
    Locates z (reader levels) t.toJson := by
  refine ⟨⟨t, t.readsShape_reader levels t.written_toJson hdepth⟩, ?_⟩
  induction t generalizing levels with
  | named leaf =>
    cases levels with
    | zero => simp [toJson, Value.depth] at hdepth
    | succ levels =>
      intro location spoiled hreplaced
      obtain ⟨v', inner, hleaf, rfl, rfl⟩ := hreplaced.exists_of_single
      have hchosen : forms.lookup "named" = some .named := rfl
      have hinner : leaf.toJson.depth ≤ levels :=
        Value.depth_object_le_iff.mp hdepth ("named", leaf.toJson) List.mem_cons_self
      rw [reported_named]
      exact failsAt_choice hchosen ((leaf.failsAt_reader hinner hleaf).map _)
  | nullable inner ih =>
    cases levels with
    | zero => simp [toJson, Value.depth] at hdepth
    | succ levels =>
      have hinner : inner.toJson.depth ≤ levels :=
        Value.depth_object_le_iff.mp hdepth ("nullable", inner.toJson) List.mem_cons_self
      have hchosen : forms.lookup "nullable" = some (.wrapped .nullable) := rfl
      exact fun _ _ => failsAt_layer hchosen (by decide) (ih hinner)
  | list inner ih =>
    cases levels with
    | zero => simp [toJson, Value.depth] at hdepth
    | succ levels =>
      have hinner : inner.toJson.depth ≤ levels :=
        Value.depth_object_le_iff.mp hdepth ("list", inner.toJson) List.mem_cons_self
      have hchosen : forms.lookup "list" = some (.wrapped .list) := rfl
      exact fun _ _ => failsAt_layer hchosen (by decide) (ih hinner)

end TypeRef

/-! ## Selections -/

/-- Every selection of at most `levels` levels is located. -/
structure SelectionsLocate (z : Int) (levels : Nat) : Prop where
  field : ∀ f : Field, f.toJson.depth ≤ levels → Locates z (Field.reader levels) f.toJson
  fieldSet : ∀ s : FieldSet, s.toJson.depth ≤ levels →
    Locates z (FieldSet.reader levels) s.toJson
  fields : ∀ fields : List Field, (Value.array (Field.listToJson fields)).depth ≤ levels →
    Locates z (Field.listReader levels) (.array (Field.listToJson fields))
  fieldSets : ∀ sets : List FieldSet, (Value.array (FieldSet.listToJson sets)).depth ≤ levels →
    Locates z (FieldSet.listReader levels) (.array (FieldSet.listToJson sets))

namespace SelectionsLocate

/-- Without a bracket there is no selection. -/
theorem zero : SelectionsLocate z 0 where
  field f hdepth := by cases f; simp [Field.toJson, Value.depth] at hdepth
  fieldSet s hdepth := by cases s; simp [FieldSet.toJson, Value.depth] at hdepth
  fields _ hdepth := by simp [Value.depth] at hdepth
  fieldSets _ hdepth := by simp [Value.depth] at hdepth

/-- A base field set is there, or there is no string. -/
theorem optionalFieldSet (h : SelectionsLocate z levels) (s : Option FieldSet)
    (hdepth : (FieldSet.optionToJson s).depth ≤ levels) :
    Locates z (Reader.optional (FieldSet.reader levels)) (FieldSet.optionToJson s) := by
  cases s with
  | none => exact .optional_null _
  | some s =>
    refine (h.fieldSet s hdepth).optional ?_
    cases s
    simp [FieldSet.toJson, opening]

theorem paths (paths : List ModelPath)
    (hdepth : (Value.array (paths.map ModelPath.toJson)).depth ≤ levels) :
    Locates z (ModelPath.listReader levels) (.array (paths.map ModelPath.toJson)) := by
  have hlist : Locates z (listReader ModelPath.reader levels) (.array _) :=
    .listReader (fun _ p _ => p.locates_reader) hdepth
  cases levels <;> exact hlist

/-- One more bracket around what is located. -/
theorem succ (h : SelectionsLocate z levels) : SelectionsLocate z (levels + 1) where
  field f hdepth := by
    have hreads := (SelectionsRead.all (levels + 1)).field f f.written_toJson hdepth
    obtain ⟨name, type, description, reason, isOverride, sets, implementationSets, baseSet⟩ := f
    have hmembers := Value.depth_object_le_iff.mp hdepth
    refine .record ⟨_, hreads⟩ (by simp) (by simp) ?_
    exact .cons ⟨rfl, (Locates.text _).map _⟩
      (.cons ⟨rfl, (type.locates_reader (hmembers ("type", _) (by simp))).map _⟩
      (.cons ⟨rfl, (Locates.optionalText _).map _⟩
      (.cons ⟨rfl, (Locates.optionalText _).map _⟩
      (.cons ⟨rfl, (Locates.flag _).map _⟩
      (.cons ⟨rfl, (h.fieldSets _ (hmembers ("field_sets", _) (by simp))).map _⟩
      (.cons ⟨rfl, (h.fieldSets _ (hmembers ("implementation_field_sets", _) (by simp))).map _⟩
      (.cons ⟨rfl, (h.optionalFieldSet _ (hmembers ("base_field_set", _) (by simp))).map _⟩
        .nil)))))))
  fieldSet s hdepth := by
    have hreads := (SelectionsRead.all (levels + 1)).fieldSet s s.written_toJson hdepth
    obtain ⟨name, path, fields, implements⟩ := s
    have hmembers := Value.depth_object_le_iff.mp hdepth
    refine .record ⟨_, hreads⟩ (by simp) (by simp) ?_
    exact .cons ⟨rfl, (Locates.text _).map _⟩
      (.cons ⟨rfl, (path.locates_reader (hmembers ("full_path", path.toJson) (by simp))).map _⟩
      (.cons ⟨rfl, (h.fields _ (hmembers ("fields", _) (by simp))).map _⟩
      (.cons ⟨rfl, (paths _ (hmembers ("implements", _) (by simp))).map _⟩ .nil)))
  fields fields hdepth := by
    rw [Field.listToJson_eq_map] at hdepth ⊢
    exact .listOf_map (fun f _ => h.field f) hdepth
  fieldSets sets hdepth := by
    rw [FieldSet.listToJson_eq_map] at hdepth ⊢
    exact .listOf_map (fun s _ => h.fieldSet s) hdepth

/-- Selections are located at every level, by induction on the levels. -/
theorem all (z : Int) (levels : Nat) : SelectionsLocate z levels := by
  induction levels with
  | zero => exact zero
  | succ levels ih => exact ih.succ

end SelectionsLocate

/-! ## Documents -/

theorem CustomScalar.locates_reader (s : CustomScalar) (hdepth : s.toJson.depth ≤ levels) :
    Locates z (reader levels) s.toJson := by
  have hreads := s.readsShape_reader levels s.written_toJson hdepth
  cases levels with
  | zero => simp [toJson, Value.depth] at hdepth
  | succ levels =>
    refine .record ⟨_, hreads⟩ (by simp) (by simp) ?_
    exact .cons ⟨rfl, (Locates.text _).map _⟩ (.cons ⟨rfl, (Locates.optionalText _).map _⟩
      (.cons ⟨rfl, (Locates.optionalText _).map _⟩
      (.cons ⟨rfl, (Locates.optionalText _).map _⟩ .nil)))

/-- A name and a data field. -/
theorem locates_namedFieldReader (description : String) (make : String → Field → α)
    (name : String) (dataField : Field)
    (hdepth : (Value.object [("name", .string name), ("data_field", dataField.toJson)]).depth ≤
      levels) :
    Locates z (namedFieldReader description make levels)
      (.object [("name", .string name), ("data_field", dataField.toJson)]) := by
  have hreads := readsShape_namedFieldReader description make name dataField levels
    (namedFieldWritten_self name dataField) hdepth
  cases levels with
  | zero => simp [Value.depth] at hdepth
  | succ levels =>
    have hfield : dataField.toJson.depth ≤ levels :=
      Value.depth_object_le_iff.mp hdepth ("data_field", dataField.toJson) (by simp)
    refine .record ⟨_, hreads⟩ (by simp) (by simp) ?_
    exact .cons ⟨rfl, (Locates.text _).map _⟩
      (.cons ⟨rfl, ((SelectionsLocate.all z levels).field dataField hfield).map _⟩ .nil)

/-- An integer in place of any string of a document is reported, if the document does not nest too
deep. -/
theorem Document.locates_reader (d : Document) (hdepth : d.toJson.depth ≤ levels) :
    Locates z (reader levels) d.toJson := by
  have hreads := d.readsShape_reader levels d.written_toJson hdepth
  cases levels with
  | zero => simp [toJson, Value.depth] at hdepth
  | succ levels =>
    have hmembers := Value.depth_object_le_iff.mp hdepth
    have hscalars : Locates z (listReader CustomScalar.reader levels)
        (.array (d.customScalars.map CustomScalar.toJson)) :=
      .listReader (fun _ s _ => s.locates_reader) (hmembers ("custom_scalars", _) (by simp))
    have hoperations : Locates z (listReader Operation.reader levels)
        (.array (d.operations.map Operation.toJson)) :=
      .listReader (fun _ o _ => locates_namedFieldReader _ _ o.name o.dataField)
        (hmembers ("operations", _) (by simp))
    have hfragments : Locates z (listReader Fragment.reader levels)
        (.array (d.fragments.map Fragment.toJson)) :=
      .listReader (fun _ f _ => locates_namedFieldReader _ _ f.name f.dataField)
        (hmembers ("fragments", _) (by simp))
    refine .record ⟨_, hreads⟩ (by simp) (by simp) ?_
    exact .cons ⟨rfl, (Locates.text _).map _⟩ (.cons ⟨rfl, hscalars.map _⟩
      (.cons ⟨rfl, hoperations.map _⟩ (.cons ⟨rfl, hfragments.map _⟩ .nil)))

end SelectionModels
