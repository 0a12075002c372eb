import SelectionModels.Proofs.Locating
import SelectionModels.Proofs.RoundTrip

/-! # Paths of errors

An integer in place of any one string of an encoded document is an error, and its path says where
the integer stands, but for the strings that a leaf keeps: there the path says which leaf it is, as
long as the integer can be held at all (`held_iff` says which integers can).

* `reported_eq_of_outside`, `reported_eq_of_inside`: what is reported, by where the leaf stands;
* `Document.decode_names_place`: the path of the error, for every string of every document.
-/

namespace SelectionModels

open Json Reader

variable {z : Int}

/-! ## Reports, by where the leaf stands -/

theorem reported_append {outer : Location} (h : .key "named" ∉ outer) (inner : Location) :
    reported z (outer ++ inner) = outer ++ reported z inner := by
  induction outer with
  | nil => rfl
  | cons step outer ih =>
    obtain ⟨hstep, houter⟩ : step ≠ .key "named" ∧ .key "named" ∉ outer := by
      simpa [eq_comm] using h
    rw [List.cons_append, List.cons_append, reported, if_neg hstep, ih houter]

/-- Outside of leaves an integer is reported where it stands. -/
theorem reported_eq_of_outside {location : Location} (h : .key "named" ∉ location) :
    reported z location = location := by
  have happend := reported_append (z := z) h []
  rwa [reported, List.append_nil] at happend

/-- Inside of a leaf it is reported at the leaf, unless it stands at the kind or is out of range. -/
theorem reported_eq_of_inside {outer : Location} (h : .key "named" ∉ outer) (inner : Location) :
    reported z (outer ++ .key "named" :: inner) =
      if held z = true ∧ inner ≠ [.key "kind"] then outer ++ [.key "named"]
      else outer ++ .key "named" :: inner := by
  rw [reported_append h, reported_named, reportedInLeaf]
  split <;> rfl

/-! ## Documents -/

theorem Document.exists_decodeText_eq_error {d : Document} (hdepth : d.toJson.depth ≤ nestingLimit)
    {location : Location} {spoiled : Value}
    (hreplaced : d.toJson.Replaced z location spoiled) (layout : Layout) :
    ∃ message, decodeText Document.reader (spoiled.render layout) =
      .error (.decode (Location.display (reported z location)) message) := by
  have hfails := (d.locates_reader hdepth).fails hreplaced blank_empty
    (Value.spelledAs_render layout spoiled) ends_nil
  rw [textBytes_empty, List.nil_append, List.append_nil] at hfails
  rw [decodeText, decode]
  cases hrun : (Document.reader nestingLimit).run (textBytes (spoiled.render layout)) with
  | done value rest => simp [hrun] at hfails
  | failed failure rest =>
    have hlocation : failure.location = reported z location := by simpa [hrun] using hfails
    exact ⟨failure.message _, by rw [← hlocation]; rfl⟩

/-- An integer in place of a string of the encoding of a document that does not nest too deep makes
decoding fail. Outside of leaves, and at the kind of a leaf, the path of the error is the location
of the string. At any other string of a leaf it is the location of the leaf, if the integer can be
held, and that of the string, if not. Integers of 64 bits can be held. -/
theorem Document.decode_names_place {d : Document} (hdepth : d.toJson.depth ≤ nestingLimit)
    {z : Int} {location : Location} {spoiled : Value}
    (hreplaced : d.toJson.Replaced z location spoiled) (layout : Layout) :
    ∃ path message,
      decodeText Document.reader (spoiled.render layout) =
        .error (.decode (Location.display path) message) ∧
      (.key "named" ∉ location → path = location) ∧
      (∀ outer inner, location = outer ++ .key "named" :: inner → .key "named" ∉ outer →
        path = if held z = true ∧ inner ≠ [.key "kind"] then outer ++ [.key "named"]
          else location) ∧
      (z.natAbs ≤ maxUnsigned → held z = true) := by
  obtain ⟨message, hdecode⟩ := exists_decodeText_eq_error hdepth hreplaced layout
  refine ⟨reported z location, message, hdecode, reported_eq_of_outside, ?_, held_of_natAbs_le⟩
  rintro outer inner rfl houter
  exact reported_eq_of_inside houter inner

/-! ## A string of a leaf -/

/-- The namespace in the leaf of the planet document. -/
def planetPlace : Location :=
  [.key "operations", .index 0, .key "data_field", .key "type", .key "named", .key "path",
    .key "namespace"]

/-- The encoding of the planet document with an integer in place of that namespace. -/
def planetWith (z : Int) : Value :=
  .object [
    ("namespace", .string "com.example"),
    ("custom_scalars", .array []),
    ("operations", .array [.object [
      ("name", .string "Planet"),
      ("data_field", .object [
        ("response_name", .string "data"),
        ("type", .object [("named", .object [
          ("kind", .string "model"),
          ("path", .object [
            ("namespace", .number (.ofInt z)),
            ("elements", .strings ["Planet"])])])]),
        ("description", .null),
        ("deprecation_reason", .null),
        ("override", .bool false),
        ("field_sets", .array []),
        ("implementation_field_sets", .array []),
        ("base_field_set", .null)])]]),
    ("fragments", .array [])]

theorem replaced_planet (z : Int) :
    planetDocument.toJson.Replaced z planetPlace (planetWith z) := by
  have hpath := @Value.Replaced.member z [] [("elements", .strings ["Planet"])] "namespace"
    _ _ _ (.here "com.example")
  have hleaf := @Value.Replaced.member z [("kind", .string "model")] [] "path" _ _ _ hpath
  have htype := @Value.Replaced.member z [] [] "named" _ _ _ hleaf
  have hfield := @Value.Replaced.member z [("response_name", .string "data")] [
    ("description", .null), ("deprecation_reason", .null), ("override", .bool false),
    ("field_sets", .array []), ("implementation_field_sets", .array []),
    ("base_field_set", .null)] "type" _ _ _ htype
  have hoperation :=
    @Value.Replaced.member z [("name", .string "Planet")] [] "data_field" _ _ _ hfield
  have hoperations := @Value.Replaced.item z [] [] _ _ _ hoperation
  exact @Value.Replaced.member z
    [("namespace", .string "com.example"), ("custom_scalars", .array [])]
    [("fragments", .array [])] "operations" _ _ _ hoperations

/-- A small integer is reported at the leaf. -/
theorem decode_names_place_planet : ∃ message,
    decodeText Document.reader ((planetWith 7).render .compact) =
      .error (.decode "operations[0].data_field.type.named" message) := by
  have hdepth : planetDocument.toJson.depth ≤ nestingLimit := by decide
  obtain ⟨path, message, hdecode, -, hinside, hheld⟩ :=
    Document.decode_names_place hdepth (replaced_planet 7) .compact
  have hpath := hinside [.key "operations", .index 0, .key "data_field", .key "type"]
    [.key "path", .key "namespace"] rfl (by decide)
  rw [if_pos ⟨hheld (by decide), by decide⟩] at hpath
  have hdisplay : Location.display path = "operations[0].data_field.type.named" := by
    rw [hpath]
    decide +kernel
  exact ⟨message, by rw [hdecode, hdisplay]⟩

/-- An integer that is out of range. -/
def tooLarge : Int := 10 ^ 330

theorem held_tooLarge : held tooLarge = false := by
  have hlarge : ¬ tooLarge.natAbs < leastUnheld := by decide +kernel
  exact Bool.eq_false_iff.mpr fun h => hlarge (held_iff.mp h)

/-- An integer that cannot be held is not reported at the leaf. -/
theorem not_reported_at_leaf_planet : planetDocument.toJson.depth ≤ nestingLimit ∧
    planetDocument.toJson.Replaced tooLarge planetPlace (planetWith tooLarge) ∧
    ∀ message,
      decodeText Document.reader ((planetWith tooLarge).render .compact) ≠
        .error (.decode "operations[0].data_field.type.named" message) := by
  have hdepth : planetDocument.toJson.depth ≤ nestingLimit := by decide
  have hreplaced := replaced_planet tooLarge
  refine ⟨hdepth, hreplaced, fun message hdecode => ?_⟩
  obtain ⟨message', hdecode'⟩ := Document.exists_decodeText_eq_error hdepth hreplaced .compact
  have hreported : reported tooLarge planetPlace = planetPlace := by
    simp [planetPlace, reported, reportedInLeaf, held_tooLarge]
  rw [hdecode', hreported] at hdecode
  have hpath : Location.display planetPlace = "operations[0].data_field.type.named" := by
    injection hdecode with hdecode
    injection hdecode
  revert hpath
  decide +kernel

end SelectionModels
