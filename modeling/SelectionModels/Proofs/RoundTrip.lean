import SelectionModels.Proofs.Decoding
import SelectionModels.Proofs.Nesting

/-! # Decoding undoes encoding

A document is read back from its encoding, and from whatever has been made of the encoding by
putting keys in another order, leaving out defaults and adding keys that mean nothing. What the text
has that is not added must not nest too deep; the encoding of a document that has been read never
does.

* `Document.decode_undoes_encode`: documents written in any shape, and documents that were read.
-/

namespace SelectionModels

open Json

/-- Every shape of a document that does not nest too deep, the encoding among them, is read as the
document in either layout; and a document that was read from anything is read again from its
encoding. -/
theorem Document.decode_undoes_encode :
    (∀ d : Document, d.Written d.toJson d.toJson) ∧
    (∀ (d : Document) (core written : Value), d.Written core written →
      core.depth ≤ nestingLimit →
      ∀ layout, decodeText Document.reader (written.render layout) = .ok d) ∧
    ∀ (source : String) (d : Document), decodeText Document.reader source = .ok d →
      ∀ layout, decodeText Document.reader (d.toJson.render layout) = .ok d := by
  refine ⟨written_toJson, fun d core written hwritten hdepth layout => ?_,
    fun source d hsource layout => ?_⟩
  · exact decodeText_of_written hwritten hdepth (Value.spelledAs_render layout written)
  · exact decodeText_of_written d.written_toJson (depth_toJson_le_of_decode hsource)
      (Value.spelledAs_render layout d.toJson)

/-! ## A document with freedoms taken -/

/-- A data field that is a model. -/
def planetField : Field :=
  ⟨"data", .named (.model ⟨"com.example", "Planet", []⟩), none, none, false, [], [], none⟩

def planetDocument : Document :=
  ⟨"com.example", [], [⟨"Planet", planetField⟩], []⟩

/-- The same document with the last keys first, without its defaults, and with a key that means
nothing in the data field and in the document itself. -/
def planetWritten : Value :=
  .object [
    ("extra", .array [.number ⟨true, 15, [5], some (false, 400)⟩, .null]),
    ("operations", .array [.object [
      ("data_field", .object [
        ("note", .object [("deep", .array [.array []])]),
        ("type", .object [("named", .object [
          ("path", .object [
            ("elements", .strings ["Planet"]),
            ("namespace", .string "com.example")]),
          ("kind", .string "model")])]),
        ("response_name", .string "data")]),
      ("name", .string "Planet")]]),
    ("namespace", .string "com.example")]

/-- The last keys first. -/
theorem Json.Shape.object_reversed {extensible : Prop} {slots : List Slot}
    {kept : List (String × Value × Value)} (added : List (String × Value))
    (hkept : Keeps slots kept)
    (hadded : ∀ m ∈ added, extensible ∧ ∀ slot ∈ slots, m.1 ≠ slot.name) :
    Shape.object extensible slots (.object (kept.map fun m => (m.1, m.2.1)))
      (.object (kept.map (fun m => (m.1, m.2.2)) ++ added).reverse) :=
  .mk hkept hadded (List.reverse_perm _)

theorem written_planet : ∃ core, planetDocument.Written core planetWritten ∧
    core.depth ≤ nestingLimit := by
  have hpath : ModelPath.Written False ⟨"com.example", "Planet", []⟩ _ _ :=
    Shape.object_reversed [] (.present ⟨rfl, rfl⟩ (.present ⟨rfl, rfl⟩ .nil)) (by simp)
  have hleaf : (Leaf.model ⟨"com.example", "Planet", []⟩).Written _ _ :=
    Shape.object_reversed [] (.present ⟨rfl, rfl⟩ (.present hpath .nil)) (by simp)
  have htype : planetField.type.Written _ _ :=
    Shape.object_reversed [] (.present hleaf .nil) (by simp)
  have hfield : planetField.Written _ _ :=
    Shape.object_reversed [("note", .object [("deep", .array [.array []])])]
      (.present ⟨rfl, rfl⟩ (.present htype (.absent rfl (.absent rfl (.absent rfl (.absent rfl
        (.absent rfl (.absent rfl .nil)))))))) (by simp)
  have hoperation : namedFieldWritten "Planet" planetField _ _ :=
    Shape.object_reversed [] (.present ⟨rfl, rfl⟩ (.present hfield .nil)) (by simp)
  have hdocument : planetDocument.Written _ _ :=
    Shape.object_reversed [("extra", .array [.number ⟨true, 15, [5], some (false, 400)⟩, .null])]
      (.present ⟨rfl, rfl⟩ (.absent rfl
        (.present (.mk (.cons hoperation .nil)) (.absent rfl .nil)))) (by simp)
  exact ⟨_, hdocument, by decide⟩

/-- The freedoms do not change what is read, and the document is read again from its encoding. -/
theorem decode_undoes_encode_planet :
    decodeText Document.reader (planetWritten.render .pretty) = .ok planetDocument ∧
      decodeText Document.reader (planetDocument.toJson.render .compact) = .ok planetDocument := by
  obtain ⟨core, hwritten, hdepth⟩ := written_planet
  obtain ⟨-, hshapes, hagain⟩ := Document.decode_undoes_encode
  have hread := hshapes planetDocument core planetWritten hwritten hdepth .pretty
  exact ⟨hread, hagain _ _ hread .compact⟩

end SelectionModels
