import SelectionModels.Format.Declaration
import SelectionModels.Proofs.ValueTexts

/-! # Written documents

Nothing of a compiled document is lost when it is written. What is left out of the JSON form, such
as a description that there is none of, is told by its key being absent, and all else has a place of
its own; and a text denotes one value only.

* `Declaration.eq_of_toJson`, `CompiledDocument.toJson_injective`: the JSON form tells what it is
  of;
* `texts_tell_documents`: so do the texts, in either layout, and both texts of a document denote
  one value.
-/

namespace SelectionModels

open Json

/-! ## Names and types -/

/-- A list of strings tells its items. -/
theorem Json.Value.strings_injective : Function.Injective Value.strings := by
  intro names names' h
  have hstring : Function.Injective Value.string := fun _ _ => Value.string.inj
  exact hstring.list_map (Value.array.inj h)

/-- `null` is no string, so it tells that there is none. -/
theorem Json.Value.optional_injective : Function.Injective Value.optional := by
  intro s s' h
  cases s <;> cases s' <;> simp_all [Value.optional]

/-- A member that may be left out tells whether it is there, and what it says, if what follows has
another key. -/
theorem optionalMember_append_inj {key : String} {s s' : Option String}
    {later later' : List (String × Value)} (hlater : ∀ m ∈ later.head?, m.1 ≠ key)
    (hlater' : ∀ m ∈ later'.head?, m.1 ≠ key)
    (h : optionalMember key s ++ later = optionalMember key s' ++ later') :
    s = s' ∧ later = later' := by
  cases s with
  | none =>
    cases s' with
    | none => exact ⟨rfl, h⟩
    | some text' =>
      obtain rfl : later = _ := h
      exact absurd rfl (hlater (key, .string text') rfl)
  | some text =>
    cases s' with
    | none =>
      obtain rfl : _ = later' := h
      exact absurd rfl (hlater' (key, .string text) rfl)
    | some text' =>
      rcases List.cons.inj h with ⟨hmember, hrests⟩
      simp only [Prod.mk.injEq, Value.string.injEq, true_and] at hmember
      exact ⟨congrArg some hmember, hrests⟩

/-- A member tells its text, and that there is none by being left out. -/
theorem optionalMember_injective (key : String) : Function.Injective (optionalMember key) := by
  intro s s' h
  have hnone : ∀ m ∈ ([] : List (String × Value)).head?, m.1 ≠ key := by simp
  refine (optionalMember_append_inj hnone hnone ?_).1
  rw [List.append_nil, List.append_nil, h]

/-- A name is written with its namespace apart, so nothing is lost that its dotted text would
lose. -/
theorem QualifiedName.toJson_injective : Function.Injective QualifiedName.toJson := by
  rintro ⟨ns, names⟩ ⟨ns', names'⟩ h
  simp only [toJson, Value.object.injEq, List.cons.injEq, Prod.mk.injEq, Value.string.injEq,
    true_and, and_true] at h
  rcases h with ⟨rfl, hnames⟩
  rw [Value.strings_injective hnames]

/-- Every layer of a type is written with its mark. -/
theorem TypeName.toJson_injective : Function.Injective TypeName.toJson := by
  intro t t' h
  induction t generalizing t' with
  | named name nullable =>
    cases t' with
    | named name' nullable' =>
      simp only [toJson, Value.object.injEq, List.cons.injEq, Prod.mk.injEq, Value.bool.injEq,
        true_and, and_true] at h
      rcases h with ⟨hname, rfl⟩
      rw [QualifiedName.toJson_injective hname]
    | list element' nullable' => simp [toJson] at h
  | list element nullable ih =>
    cases t' with
    | named name' nullable' => simp [toJson] at h
    | list element' nullable' =>
      simp only [toJson, Value.object.injEq, List.cons.injEq, Prod.mk.injEq, Value.bool.injEq,
        true_and, and_true] at h
      rcases h with ⟨helement, rfl⟩
      rw [ih helement]

/-! ## Declarations -/

/-- Docs leave out what is absent; the keys tell what is there. -/
theorem Docs.toJson_injective : Function.Injective Docs.toJson := by
  rintro ⟨description, reason⟩ ⟨description', reason'⟩ h
  have hreason : ∀ s, ∀ m ∈ (optionalMember "deprecation_reason" s).head?,
      m.1 ≠ "description" := by
    rintro (_ | s) m hm
    · cases hm
    · obtain rfl : ("deprecation_reason", Value.string s) = m := Option.some.inj hm
      simp
  rcases optionalMember_append_inj (hreason reason) (hreason reason') (Value.object.inj h) with
    ⟨rfl, hreasons⟩
  rw [optionalMember_injective _ hreasons]

/-- A property is written with all its parts. -/
theorem Property.toJson_injective : Function.Injective Property.toJson := by
  rintro ⟨name, type, rawType, isOverride, docs⟩ ⟨name', type', rawType', isOverride', docs'⟩ h
  simp only [toJson, Value.object.injEq, List.cons.injEq, Prod.mk.injEq, Value.string.injEq,
    Value.bool.injEq, true_and, and_true] at h
  rcases h with ⟨rfl, htype, hraw, rfl, hdocs⟩
  rw [TypeName.toJson_injective htype, TypeName.toJson_injective hraw, Docs.toJson_injective hdocs]

theorem Kind.toJson_injective : Function.Injective Kind.toJson := by
  intro k k' h
  cases k <;> cases k' <;> simp [toJson] at h ⊢

mutual

/-- The JSON form of a declaration tells the whole tree. -/
theorem Declaration.eq_of_toJson : (d d' : Declaration) → d.toJson = d'.toJson → d = d'
  | .mk kind name typeName adapter properties supers nested,
    .mk kind' name' typeName' adapter' properties' supers' nested', h => by
    simp only [toJson, Value.object.injEq, List.cons.injEq, Prod.mk.injEq, Value.string.injEq,
      Value.array.injEq, true_and, and_true] at h
    obtain ⟨hkind, rfl, htype, hadapter, hproperties, hsupers, hnested⟩ := h
    rw [Kind.toJson_injective hkind, QualifiedName.toJson_injective htype,
      QualifiedName.toJson_injective hadapter, Property.toJson_injective.list_map hproperties,
      QualifiedName.toJson_injective.list_map hsupers, eq_of_listToJson nested nested' hnested]
termination_by structural d => d

/-- And so do the forms of several declarations in a row. -/
theorem Declaration.eq_of_listToJson : (ds ds' : List Declaration) →
    listToJson ds = listToJson ds' → ds = ds'
  | [], [], _ => rfl
  | [], _ :: _, h => by cases h
  | _ :: _, [], h => by cases h
  | d :: ds, d' :: ds', h => by
    obtain ⟨hd, hds⟩ := List.cons.inj h
    rw [eq_of_toJson d d' hd, eq_of_listToJson ds ds' hds]
termination_by structural ds => ds

end

theorem Declaration.toJson_injective : Function.Injective Declaration.toJson :=
  fun d d' => eq_of_toJson d d'

/-! ## The registry -/

theorem ScalarMapping.toJson_injective : Function.Injective ScalarMapping.toJson := by
  rintro ⟨name, mapped⟩ ⟨name', mapped'⟩ h
  simp only [toJson, Value.object.injEq, List.cons.injEq, Prod.mk.injEq, Value.string.injEq,
    true_and, and_true] at h
  rcases h with ⟨rfl, hmapped⟩
  rw [Value.optional_injective hmapped]

/-- A constant has a note or none; that the key is missing tells that there is none. -/
theorem ScalarConstant.toJson_injective : Function.Injective ScalarConstant.toJson := by
  rintro ⟨name, typeName, value, docs, note⟩ ⟨name', typeName', value', docs', note'⟩ h
  simp only [toJson, Value.object.injEq, List.cons_append, List.nil_append, List.cons.injEq,
    Prod.mk.injEq, Value.string.injEq, true_and] at h
  rcases h with ⟨rfl, htype, hvalue, hdocs, hnote⟩
  rw [QualifiedName.toJson_injective htype, ScalarMapping.toJson_injective hvalue,
    Docs.toJson_injective hdocs, optionalMember_injective _ hnote]

/-- A registry is written with its holder and its constants in order. -/
theorem Registry.toJson_injective : Function.Injective Registry.toJson := by
  rintro ⟨name, typeName, doc, constants⟩ ⟨name', typeName', doc', constants'⟩ h
  simp only [toJson, Value.object.injEq, List.cons.injEq, Prod.mk.injEq, Value.string.injEq,
    Value.array.injEq, true_and, and_true] at h
  rcases h with ⟨rfl, htype, rfl, hconstants⟩
  rw [QualifiedName.toJson_injective htype, ScalarConstant.toJson_injective.list_map hconstants]

/-! ## Documents -/

theorem CompiledOperation.toJson_injective : Function.Injective CompiledOperation.toJson := by
  rintro ⟨name, declarations⟩ ⟨name', declarations'⟩ h
  simp only [toJson, Value.object.injEq, List.cons.injEq, Prod.mk.injEq, Value.string.injEq,
    Value.array.injEq, true_and, and_true] at h
  rcases h with ⟨rfl, hdeclarations⟩
  rw [Declaration.toJson_injective.list_map hdeclarations]

/-- The two views of a fragment are written under keys of their own. -/
theorem CompiledFragment.toJson_injective : Function.Injective CompiledFragment.toJson := by
  rintro ⟨name, interfaces, implementations⟩ ⟨name', interfaces', implementations'⟩ h
  simp only [toJson, Value.object.injEq, List.cons.injEq, Prod.mk.injEq, Value.string.injEq,
    Value.array.injEq, true_and, and_true] at h
  rcases h with ⟨rfl, hinterfaces, himplementations⟩
  rw [Declaration.toJson_injective.list_map hinterfaces,
    Declaration.toJson_injective.list_map himplementations]

/-- A compiled document is written with all that it holds, so the whole of it is told. -/
theorem CompiledDocument.toJson_injective : Function.Injective CompiledDocument.toJson := by
  rintro ⟨ns, operations, fragments, registry⟩ ⟨ns', operations', fragments', registry'⟩ h
  simp only [toJson, Value.object.injEq, List.cons.injEq, Prod.mk.injEq, Value.string.injEq,
    Value.array.injEq, true_and, and_true] at h
  rcases h with ⟨rfl, hoperations, hfragments, hregistry⟩
  rw [CompiledOperation.toJson_injective.list_map hoperations,
    CompiledFragment.toJson_injective.list_map hfragments, Registry.toJson_injective hregistry]

/-- Values of one text are the same, in either layout. -/
theorem Json.Value.render_injective (layout : Layout) :
    Function.Injective (Value.render layout) := by
  intro v v' h
  have hdenotes := denotes_render layout v
  rw [h] at hdenotes
  exact hdenotes.unique (denotes_render layout v')

/-- A text that a value is written as denotes that value and no other, in either layout. -/
theorem denotes_render_iff (layout : Layout) (v w : Value) :
    Denotes (v.render layout) w ↔ w = v := by
  constructor
  · intro h
    exact h.unique (denotes_render layout v)
  · rintro rfl
    exact denotes_render layout w

/-- The text of a compiled document tells the document, in either layout, and both of its texts are
well-formed and denote one and the same value. -/
theorem texts_tell_documents (c c' : CompiledDocument) :
    (c.toJson.render .compact = c'.toJson.render .compact ↔ c = c') ∧
    (c.toJson.render .pretty = c'.toJson.render .pretty ↔ c = c') ∧
    ∃ v, (∀ w, Denotes (c.toJson.render .compact) w ↔ w = v) ∧
      ∀ w, Denotes (c.toJson.render .pretty) w ↔ w = v := by
  have htexts : ∀ layout, c.toJson.render layout = c'.toJson.render layout ↔ c = c' :=
    fun layout => ((Value.render_injective layout).comp CompiledDocument.toJson_injective).eq_iff
  exact ⟨htexts .compact, htexts .pretty, c.toJson, denotes_render_iff _ _, denotes_render_iff _ _⟩

end SelectionModels
