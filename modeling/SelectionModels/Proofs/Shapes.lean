import SelectionModels.Format.Document
import Mathlib.Data.List.Forall2

/-! # Written shapes

A document need not be written the way it is encoded. The members of an object may come in any
order, a member may be left out if it has the value that is taken when it is missing, and members
may be added under keys that mean nothing, except to what describes a leaf. A shape says all this of
one value: it relates the values that may be written for it, each beside what is left of it when the
added members are taken away.

* `Shape.object`: an object with members of given shapes;
* `Document.Written` and its like: the shapes of a document and of its parts;
* `Document.written_toJson`: the encoding is one of them;
* `Value.depth`: how deeply a value nests.
-/

namespace SelectionModels

namespace Json

/-! ## Shapes -/

/-- How a value may be written: `core` is what is left of `written` without what has been added. -/
abbrev Shape := (core written : Value) → Prop

/-- In one way only. -/
def Shape.exactly (v : Value) : Shape :=
  fun core written => core = v ∧ written = v

/-- A member that an object may have. -/
structure Slot where
  name : String
  shape : Shape
  /-- The member may be left out. -/
  omittable : Prop

/-- The members that are there: their names, and their values without and with additions. -/
inductive Keeps : List Slot → List (String × Value × Value) → Prop where
  | nil : Keeps [] []
  | present {slot : Slot} {slots : List Slot} {core written : Value}
    {kept : List (String × Value × Value)} (hshape : slot.shape core written)
    (hkept : Keeps slots kept) : Keeps (slot :: slots) ((slot.name, core, written) :: kept)
  | absent {slot : Slot} {slots : List Slot} {kept : List (String × Value × Value)}
    (homittable : slot.omittable) (hkept : Keeps slots kept) : Keeps (slot :: slots) kept

/-- An object with members in any order, to which others may be added if it is extensible. -/
inductive Shape.object (extensible : Prop) (slots : List Slot) : (core written : Value) → Prop where
  | mk {kept : List (String × Value × Value)} {added members : List (String × Value)}
    (hkept : Keeps slots kept)
    (hadded : ∀ m ∈ added, extensible ∧ ∀ slot ∈ slots, m.1 ≠ slot.name)
    (hmembers : members.Perm (kept.map (fun m => (m.1, m.2.2)) ++ added)) :
    Shape.object extensible slots (.object (kept.map fun m => (m.1, m.2.1))) (.object members)

/-- Values of the given shapes, one by one. -/
inductive Shape.Items : List Shape → (cores written : List Value) → Prop where
  | nil : Shape.Items [] [] []
  | cons {shape : Shape} {shapes : List Shape} {core written : Value} {cores writtens : List Value}
    (hshape : shape core written) (hitems : Shape.Items shapes cores writtens) :
    Shape.Items (shape :: shapes) (core :: cores) (written :: writtens)

/-- A list of values of the given shapes. -/
inductive Shape.list (shapes : List Shape) : (core written : Value) → Prop where
  | mk {cores writtens : List Value} (hitems : Shape.Items shapes cores writtens) :
    Shape.list shapes (.array cores) (.array writtens)

/-- An object that nothing is added to. -/
theorem Shape.object_closed {slots : List Slot} {core written : Value}
    (h : Shape.object False slots core written) : ∃ kept members, Keeps slots kept ∧
      members.Perm (kept.map fun m => (m.1, m.2.2)) ∧
      core = .object (kept.map fun m => (m.1, m.2.1)) ∧ written = .object members := by
  obtain @⟨kept, added, members, hkept, hadded, hmembers⟩ := h
  obtain rfl : added = [] := List.eq_nil_iff_forall_not_mem.mpr fun m hm => (hadded m hm).1
  rw [List.append_nil] at hmembers
  exact ⟨kept, members, hkept, hmembers, rfl, rfl⟩

/-- An object with one member, to which nothing is added. -/
theorem Shape.object_single {name : String} {shape : Shape} {core written : Value}
    (h : Shape.object False [⟨name, shape, False⟩] core written) : ∃ core' written',
      shape core' written' ∧ core = .object [(name, core')] ∧
        written = .object [(name, written')] := by
  obtain ⟨kept, members, hkept, hmembers, rfl, rfl⟩ := Shape.object_closed h
  obtain _ | ⟨hshape, ⟨⟩⟩ | ⟨⟨⟩, _⟩ := hkept
  exact ⟨_, _, hshape, rfl, congrArg Value.object (List.perm_singleton.mp hmembers)⟩

theorem Shape.exactly_self (v : Value) : Shape.exactly v v v :=
  ⟨rfl, rfl⟩

/-- An object with all members in their order, and nothing added. -/
theorem Shape.object_self {extensible : Prop} {slots : List Slot} {members : List (String × Value)}
    (h : List.Forall₂ (fun slot m => slot.name = m.1 ∧ slot.shape m.2 m.2) slots members) :
    Shape.object extensible slots (.object members) (.object members) := by
  have hkept : Keeps slots (members.map fun m => (m.1, m.2, m.2)) := by
    induction h with
    | nil => exact .nil
    | @cons slot m _ _ hm _ ih =>
      obtain ⟨hname, hshape⟩ := hm
      rw [List.map_cons, ← hname]
      exact .present hshape ih
  have hcore : (members.map fun m => (m.1, m.2, m.2)).map (fun m => (m.1, m.2.1)) = members := by
    rw [List.map_map]
    exact List.map_id members
  have hwritten : members.Perm
      ((members.map fun m => (m.1, m.2, m.2)).map (fun m => (m.1, m.2.2)) ++ []) := by
    rw [List.map_map, List.append_nil]
    exact .of_eq (List.map_id members).symm
  have hobject : Shape.object extensible slots (.object _) (.object members) :=
    .mk hkept (by simp) hwritten
  rwa [hcore] at hobject

theorem Shape.list_self {shapes : List Shape} {values : List Value}
    (h : List.Forall₂ (fun shape v => shape v v) shapes values) :
    Shape.list shapes (.array values) (.array values) := by
  refine .mk ?_
  induction h with
  | nil => exact .nil
  | cons hshape _ ih => exact .cons hshape ih

theorem Shape.list_map_self {α : Type} {shape : α → Shape} {toJson : α → Value} (xs : List α)
    (h : ∀ x, shape x (toJson x) (toJson x)) :
    Shape.list (xs.map shape) (.array (xs.map toJson)) (.array (xs.map toJson)) := by
  refine Shape.list_self ?_
  rw [List.forall₂_map_left_iff, List.forall₂_map_right_iff, List.forall₂_same]
  exact fun x _ => h x

/-! ## Nesting -/

namespace Value

mutual

/-- How many brackets are open at once. -/
def depth : Value → Nat
  | .null => 0
  | .bool _ => 0
  | .number _ => 0
  | .string _ => 0
  | .array items => itemsDepth items + 1
  | .object members => membersDepth members + 1
termination_by structural v => v

def itemsDepth : List Value → Nat
  | [] => 0
  | v :: items => max (depth v) (itemsDepth items)
termination_by structural items => items

def membersDepth : List (String × Value) → Nat
  | [] => 0
  | (_, v) :: members => max (depth v) (membersDepth members)
termination_by structural members => members

end

theorem itemsDepth_le_iff {items : List Value} {n : Nat} :
    itemsDepth items ≤ n ↔ ∀ v ∈ items, v.depth ≤ n := by
  induction items with
  | nil => simp [itemsDepth]
  | cons v items ih => rw [itemsDepth, Nat.max_le, ih, List.forall_mem_cons]

theorem membersDepth_le_iff {members : List (String × Value)} {n : Nat} :
    membersDepth members ≤ n ↔ ∀ m ∈ members, m.2.depth ≤ n := by
  induction members with
  | nil => simp [membersDepth]
  | cons m members ih => rw [membersDepth, Nat.max_le, ih, List.forall_mem_cons]

theorem depth_array_le_iff {items : List Value} {n : Nat} :
    (Value.array items).depth ≤ n + 1 ↔ ∀ v ∈ items, v.depth ≤ n := by
  rw [depth, Nat.add_le_add_iff_right, itemsDepth_le_iff]

theorem depth_object_le_iff {members : List (String × Value)} {n : Nat} :
    (Value.object members).depth ≤ n + 1 ↔ ∀ m ∈ members, m.2.depth ≤ n := by
  rw [depth, Nat.add_le_add_iff_right, membersDepth_le_iff]

/-- A list of flatter values, where there is room for a list at all. -/
theorem depth_array_le {items : List Value} {levels : Nat} (hpos : 0 < levels)
    (h : ∀ v ∈ items, v.depth < levels) : (array items).depth ≤ levels := by
  obtain ⟨below, rfl⟩ := Nat.exists_eq_add_one.mpr hpos
  exact depth_array_le_iff.mpr fun v hv => Nat.le_of_lt_succ (h v hv)

@[simp] theorem depth_strings (names : List String) : (strings names).depth = 1 := by
  have hflat : itemsDepth (names.map .string) ≤ 0 := by
    rw [itemsDepth_le_iff]
    simp [depth]
  rw [strings, depth, Nat.le_zero.mp hflat]

@[simp] theorem depth_optional (s : Option String) : (optional s).depth = 0 := by
  cases s <;> rfl

end Value

end Json

open Json

/-! ## Paths and types -/

/-- The shapes of a path. -/
def ModelPath.Written (extensible : Prop) (p : ModelPath) : Shape :=
  .object extensible [
    ⟨"namespace", .exactly (.string p.ns), False⟩,
    ⟨"elements", .exactly (.strings p.elements), False⟩]

/-- The shapes of a leaf. Nothing is added to a leaf, nor to the path in it. -/
def Leaf.Written : Leaf → Shape
  | .string => .object False [⟨"kind", .exactly (.string "string"), False⟩]
  | .int => .object False [⟨"kind", .exactly (.string "int"), False⟩]
  | .float => .object False [⟨"kind", .exactly (.string "float"), False⟩]
  | .boolean => .object False [⟨"kind", .exactly (.string "boolean"), False⟩]
  | .id => .object False [⟨"kind", .exactly (.string "id"), False⟩]
  | .enum ns name => .object False [
    ⟨"kind", .exactly (.string "enum"), False⟩,
    ⟨"namespace", .exactly (.string ns), False⟩,
    ⟨"name", .exactly (.string name), False⟩]
  | .customScalar name mappedType => .object False [
    ⟨"kind", .exactly (.string "custom_scalar"), False⟩,
    ⟨"name", .exactly (.string name), False⟩,
    ⟨"mapped_type", .exactly (.optional mappedType), mappedType = none⟩]
  | .model path => .object False [
    ⟨"kind", .exactly (.string "model"), False⟩,
    ⟨"path", path.Written False, False⟩]

/-- The shapes of a type reference. -/
def TypeRef.Written : TypeRef → Shape
  | .named leaf => .object False [⟨"named", leaf.Written, False⟩]
  | .nullable inner => .object False [⟨"nullable", inner.Written, False⟩]
  | .list inner => .object False [⟨"list", inner.Written, False⟩]

/-! ## Selections -/

mutual

/-- The shapes of a field. -/
def Field.Written : Field → Shape
  | .mk responseName type description deprecationReason isOverride fieldSets
      implementationFieldSets baseFieldSet => .object True [
    ⟨"response_name", .exactly (.string responseName), False⟩,
    ⟨"type", type.Written, False⟩,
    ⟨"description", .exactly (.optional description), description = none⟩,
    ⟨"deprecation_reason", .exactly (.optional deprecationReason), deprecationReason = none⟩,
    ⟨"override", .exactly (.bool isOverride), isOverride = false⟩,
    ⟨"field_sets", .list (FieldSet.shapes fieldSets), fieldSets = []⟩,
    ⟨"implementation_field_sets", .list (FieldSet.shapes implementationFieldSets),
      implementationFieldSets = []⟩,
    ⟨"base_field_set", FieldSet.OptionWritten baseFieldSet, baseFieldSet = none⟩]
termination_by structural f => f

/-- The shapes of a field set. -/
def FieldSet.Written : FieldSet → Shape
  | .mk modelName path fields implements => .object True [
    ⟨"model_name", .exactly (.string modelName), False⟩,
    ⟨"full_path", path.Written True, False⟩,
    ⟨"fields", .list (Field.shapes fields), fields = []⟩,
    ⟨"implements", .list (implements.map (ModelPath.Written True)), implements = []⟩]
termination_by structural s => s

def FieldSet.OptionWritten : Option FieldSet → Shape
  | none => .exactly .null
  | some s => s.Written
termination_by structural s => s

/-- The shapes of each field set. -/
def FieldSet.shapes : List FieldSet → List Shape
  | [] => []
  | s :: rest => s.Written :: FieldSet.shapes rest
termination_by structural sets => sets

/-- The shapes of each field. -/
def Field.shapes : List Field → List Shape
  | [] => []
  | f :: rest => f.Written :: Field.shapes rest
termination_by structural fields => fields

end

/-! ## Documents -/

/-- The shapes of a custom scalar. -/
def CustomScalar.Written (s : CustomScalar) : Shape :=
  .object True [
    ⟨"name", .exactly (.string s.name), False⟩,
    ⟨"mapped_type", .exactly (.optional s.mappedType), s.mappedType = none⟩,
    ⟨"description", .exactly (.optional s.description), s.description = none⟩,
    ⟨"deprecation_reason", .exactly (.optional s.deprecationReason), s.deprecationReason = none⟩]

/-- The shapes of a named data field. -/
def namedFieldWritten (name : String) (dataField : Field) : Shape :=
  .object True [
    ⟨"name", .exactly (.string name), False⟩,
    ⟨"data_field", dataField.Written, False⟩]

/-- The shapes of a document. -/
def Document.Written (d : Document) : Shape :=
  .object True [
    ⟨"namespace", .exactly (.string d.ns), False⟩,
    ⟨"custom_scalars", .list (d.customScalars.map CustomScalar.Written), d.customScalars = []⟩,
    ⟨"operations", .list (d.operations.map fun o => namedFieldWritten o.name o.dataField),
      d.operations = []⟩,
    ⟨"fragments", .list (d.fragments.map fun f => namedFieldWritten f.name f.dataField),
      d.fragments = []⟩]

/-! ## Encodings -/

theorem ModelPath.written_toJson (extensible : Prop) (p : ModelPath) :
    p.Written extensible p.toJson p.toJson :=
  Shape.object_self (.cons ⟨rfl, Shape.exactly_self _⟩ (.cons ⟨rfl, Shape.exactly_self _⟩ .nil))

theorem Leaf.written_toJson (l : Leaf) : l.Written l.toJson l.toJson := by
  have hkind : ∀ kind : String, Shape.object False [⟨"kind", .exactly (.string kind), False⟩]
      (.object [("kind", .string kind)]) (.object [("kind", .string kind)]) :=
    fun kind => Shape.object_self (.cons ⟨rfl, Shape.exactly_self _⟩ .nil)
  cases l with
  | string => exact hkind _
  | int => exact hkind _
  | float => exact hkind _
  | boolean => exact hkind _
  | id => exact hkind _
  | «enum» ns name =>
    exact Shape.object_self (.cons ⟨rfl, Shape.exactly_self _⟩ (.cons ⟨rfl, Shape.exactly_self _⟩
      (.cons ⟨rfl, Shape.exactly_self _⟩ .nil)))
  | customScalar name mappedType =>
    exact Shape.object_self (.cons ⟨rfl, Shape.exactly_self _⟩ (.cons ⟨rfl, Shape.exactly_self _⟩
      (.cons ⟨rfl, Shape.exactly_self _⟩ .nil)))
  | model path =>
    exact Shape.object_self (.cons ⟨rfl, Shape.exactly_self _⟩
      (.cons ⟨rfl, path.written_toJson False⟩ .nil))

theorem TypeRef.written_toJson (t : TypeRef) : t.Written t.toJson t.toJson := by
  induction t with
  | named leaf => exact Shape.object_self (.cons ⟨rfl, leaf.written_toJson⟩ .nil)
  | nullable inner ih => exact Shape.object_self (.cons ⟨rfl, ih⟩ .nil)
  | list inner ih => exact Shape.object_self (.cons ⟨rfl, ih⟩ .nil)

mutual

theorem Field.written_toJson : (f : Field) → f.Written f.toJson f.toJson
  | .mk _ type _ _ _ fieldSets implementationFieldSets baseFieldSet =>
    Shape.object_self (.cons ⟨rfl, Shape.exactly_self _⟩ (.cons ⟨rfl, type.written_toJson⟩
      (.cons ⟨rfl, Shape.exactly_self _⟩ (.cons ⟨rfl, Shape.exactly_self _⟩
      (.cons ⟨rfl, Shape.exactly_self _⟩
      (.cons ⟨rfl, Shape.list_self (FieldSet.written_listToJson fieldSets)⟩
      (.cons ⟨rfl, Shape.list_self (FieldSet.written_listToJson implementationFieldSets)⟩
      (.cons ⟨rfl, FieldSet.written_optionToJson baseFieldSet⟩ .nil))))))))
termination_by structural f => f

theorem FieldSet.written_toJson : (s : FieldSet) → s.Written s.toJson s.toJson
  | .mk _ path fields implements =>
    Shape.object_self (.cons ⟨rfl, Shape.exactly_self _⟩ (.cons ⟨rfl, path.written_toJson True⟩
      (.cons ⟨rfl, Shape.list_self (Field.written_listToJson fields)⟩
        (.cons ⟨rfl, Shape.list_map_self implements (ModelPath.written_toJson True)⟩ .nil))))
termination_by structural s => s

theorem FieldSet.written_optionToJson : (s : Option FieldSet) →
    FieldSet.OptionWritten s (FieldSet.optionToJson s) (FieldSet.optionToJson s)
  | none => Shape.exactly_self _
  | some s => s.written_toJson
termination_by structural s => s

theorem FieldSet.written_listToJson : (sets : List FieldSet) →
    List.Forall₂ (fun shape v => shape v v) (FieldSet.shapes sets) (FieldSet.listToJson sets)
  | [] => .nil
  | s :: rest => .cons s.written_toJson (FieldSet.written_listToJson rest)
termination_by structural sets => sets

theorem Field.written_listToJson : (fields : List Field) →
    List.Forall₂ (fun shape v => shape v v) (Field.shapes fields) (Field.listToJson fields)
  | [] => .nil
  | f :: rest => .cons f.written_toJson (Field.written_listToJson rest)
termination_by structural fields => fields

end

theorem CustomScalar.written_toJson (s : CustomScalar) : s.Written s.toJson s.toJson :=
  Shape.object_self (.cons ⟨rfl, Shape.exactly_self _⟩ (.cons ⟨rfl, Shape.exactly_self _⟩
    (.cons ⟨rfl, Shape.exactly_self _⟩ (.cons ⟨rfl, Shape.exactly_self _⟩ .nil))))

theorem namedFieldWritten_self (name : String) (dataField : Field) :
    namedFieldWritten name dataField
      (.object [("name", .string name), ("data_field", dataField.toJson)])
      (.object [("name", .string name), ("data_field", dataField.toJson)]) :=
  Shape.object_self (.cons ⟨rfl, Shape.exactly_self _⟩ (.cons ⟨rfl, dataField.written_toJson⟩ .nil))

/-- The encoding of a document is one of its shapes, with nothing added to it. -/
theorem Document.written_toJson (d : Document) : d.Written d.toJson d.toJson :=
  Shape.object_self (.cons ⟨rfl, Shape.exactly_self _⟩
    (.cons ⟨rfl, Shape.list_map_self d.customScalars CustomScalar.written_toJson⟩
    (.cons ⟨rfl, Shape.list_map_self d.operations fun o =>
      namedFieldWritten_self o.name o.dataField⟩
    (.cons ⟨rfl, Shape.list_map_self d.fragments fun f =>
      namedFieldWritten_self f.name f.dataField⟩ .nil))))

end SelectionModels
