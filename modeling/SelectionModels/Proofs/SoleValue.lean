import SelectionModels.Proofs.Closing
import SelectionModels.Proofs.RoundTrip

/-! # Sources that hold one value

Values are read from the front of a source. Every format is bracketed, so a value is over at the
bracket that closes it: whatever stands behind it is never seen, and nothing that stops before it is
taken for a value.

* `Format`: what values can be read as;
* `Format.closes_reader`: reading stops at a closing bracket;
* `sole_value`: what may be added to a source, and what must not be missing from it.
-/

namespace SelectionModels

open Json Reader

/-! ## Parts of a document -/

/-- A path is a record, and so it stops at its bracket. -/
theorem ModelPath.closes_reader (levels : Nat) : (reader levels).Closes := by
  have htexts : ∀ levels, (textsReader levels).Closes := by
    intro levels
    cases levels with
    | zero => exact closes_listOf nofun
    | succ levels =>
      refine closes_listOf fun r hr => ?_
      obtain rfl := Option.some.inj hr
      exact streams_text
  have hparts : (partsReader levels).Closes := by
    cases levels with
    | zero => exact closes_noRecord _
    | succ levels =>
      refine closes_record ?_ _
      simp only [recordOf, List.forall_mem_cons]
      exact ⟨streams_text.map _, (htexts levels).streams.map _, by simp⟩
  refine hparts.bind_still fun parts => ?_
  obtain ⟨ns, elements⟩ := parts
  dsimp only
  split
  · exact still_pure _
  · exact still_failUnplaced _

/-- A leaf is a tagged value. -/
theorem Leaf.closes_reader (levels : Nat) : (reader levels).Closes := by
  have htagged : (taggedReader levels).Closes := by
    cases levels with
    | zero => exact closes_tagged _ _ _ nofun
    | succ levels =>
      refine closes_tagged _ _ _ fun r hr => ?_
      obtain rfl := Option.some.inj hr
      exact streams_content levels
  refine htagged.bind_still fun (tag, content) => ?_
  dsimp only
  split
  · exact still_pure _
  · exact still_failUnplaced _

/-- A type reference is a choice that always carries a value. -/
theorem TypeRef.closes_reader (levels : Nat) : (reader levels).Closes := by
  induction levels with
  | zero => exact closes_choice nofun
  | succ levels ih =>
    refine closes_choice fun f hf form => ?_
    obtain rfl := Option.some.inj hf
    cases form with
    | named => exact (Leaf.closes_reader levels).streams.map _
    | wrapped w => exact ih.streams.map _

theorem ModelPath.closes_listReader (levels : Nat) : (ModelPath.listReader levels).Closes := by
  cases levels with
  | zero => exact closes_listOf nofun
  | succ levels =>
    refine closes_listOf fun r hr => ?_
    obtain rfl := Option.some.inj hr
    exact (ModelPath.closes_reader levels).streams

/-- Selections are over at their brackets. -/
structure SelectionsClose (levels : Nat) : Prop where
  field : (Field.reader levels).Closes
  fieldSet : (FieldSet.reader levels).Closes
  fields : (Field.listReader levels).Closes
  fieldSets : (FieldSet.listReader levels).Closes

namespace SelectionsClose

variable {levels : Nat}

/-- Without a bracket nothing is read. -/
theorem zero : SelectionsClose 0 where
  field := closes_noRecord _
  fieldSet := closes_noRecord _
  fields := closes_listOf nofun
  fieldSets := closes_listOf nofun

theorem succ_field (h : SelectionsClose levels) : (Field.reader (levels + 1)).Closes := by
  refine closes_record ?_ _
  simp only [Field.recordOf, delay_eq, List.forall_mem_cons]
  refine ⟨streams_text.map _, ?_, ?_, ?_, streams_flag.map _, ?_, ?_, ?_, by simp⟩
  · exact (TypeRef.closes_reader levels).streams.map _
  · exact (streams_optional streams_text).map _
  · exact (streams_optional streams_text).map _
  · exact h.fieldSets.streams.map _
  · exact h.fieldSets.streams.map _
  · exact (streams_optional h.fieldSet.streams).map _

theorem succ_fieldSet (h : SelectionsClose levels) : (FieldSet.reader (levels + 1)).Closes := by
  refine closes_record ?_ _
  simp only [FieldSet.recordOf, delay_eq, List.forall_mem_cons]
  refine ⟨streams_text.map _, ?_, ?_, ?_, by simp⟩
  · exact (ModelPath.closes_reader levels).streams.map _
  · exact h.fields.streams.map _
  · exact (ModelPath.closes_listReader levels).streams.map _

theorem succ (h : SelectionsClose levels) : SelectionsClose (levels + 1) where
  field := h.succ_field
  fieldSet := h.succ_fieldSet
  fields := closes_listOf fun r hr => by
    obtain rfl := Option.some.inj hr
    exact h.field.streams
  fieldSets := closes_listOf fun r hr => by
    obtain rfl := Option.some.inj hr
    exact h.fieldSet.streams

/-- Selections stop at their brackets at every level, by induction on the levels. -/
theorem all (levels : Nat) : SelectionsClose levels := by
  induction levels with
  | zero => exact zero
  | succ levels ih => exact ih.succ

end SelectionsClose

theorem CustomScalar.closes_reader (levels : Nat) : (reader levels).Closes := by
  have htext : (optional text).Streams := streams_optional streams_text
  cases levels with
  | zero => exact closes_noRecord _
  | succ levels =>
    refine closes_record ?_ _
    simp only [record, List.forall_mem_cons]
    exact ⟨streams_text.map _, htext.map _, htext.map _, htext.map _, by simp⟩

/-- Operations and fragments are records. -/
theorem closes_namedFieldReader {α : Type} (description : String) (make : String → Field → α)
    (levels : Nat) : (namedFieldReader description make levels).Closes := by
  cases levels with
  | zero => exact closes_noRecord _
  | succ levels =>
    refine closes_record ?_ _
    simp only [namedFieldRecord, List.forall_mem_cons]
    exact ⟨streams_text.map _, (SelectionsClose.all levels).field.streams.map _, by simp⟩

theorem closes_listReader {α : Type} {reader : (levels : Nat) → Reader α}
    (h : ∀ levels, (reader levels).Closes) (levels : Nat) : (listReader reader levels).Closes := by
  cases levels with
  | zero => exact closes_listOf nofun
  | succ levels =>
    refine closes_listOf fun r hr => ?_
    obtain rfl := Option.some.inj hr
    exact (h levels).streams

/-- A document is a record. -/
theorem Document.closes_reader (levels : Nat) : (reader levels).Closes := by
  cases levels with
  | zero => exact closes_noRecord _
  | succ levels =>
    have hscalars := closes_listReader CustomScalar.closes_reader levels
    have hoperations : (listReader Operation.reader levels).Closes :=
      closes_listReader (closes_namedFieldReader _ _) levels
    have hfragments : (listReader Fragment.reader levels).Closes :=
      closes_listReader (closes_namedFieldReader _ _) levels
    refine closes_record ?_ _
    simp only [recordOf, List.forall_mem_cons]
    exact ⟨streams_text.map _, hscalars.streams.map _, hoperations.streams.map _,
      hfragments.streams.map _, by simp⟩

/-! ## Formats -/

/-- What values can be read as. -/
inductive Format where
  | document
  | operation
  | fragment
  | fieldSet
  | field
  | customScalar
  | typeRef
  | leaf
  | modelPath

namespace Format

/-- The values of a format. -/
def Data : Format → Type
  | document => Document
  | operation => Operation
  | fragment => Fragment
  | fieldSet => FieldSet
  | field => Field
  | customScalar => CustomScalar
  | typeRef => TypeRef
  | leaf => Leaf
  | modelPath => ModelPath

/-- A value of the format that may open at most `levels` brackets. -/
def reader : (f : Format) → (levels : Nat) → Reader f.Data
  | document => Document.reader
  | operation => Operation.reader
  | fragment => Fragment.reader
  | fieldSet => FieldSet.reader
  | field => Field.reader
  | customScalar => CustomScalar.reader
  | typeRef => TypeRef.reader
  | leaf => Leaf.reader
  | modelPath => ModelPath.reader

/-- In every format reading stops at a closing bracket. -/
theorem closes_reader (f : Format) (levels : Nat) : (f.reader levels).Closes := by
  cases f with
  | document => exact Document.closes_reader levels
  | operation => exact closes_namedFieldReader _ _ levels
  | fragment => exact closes_namedFieldReader _ _ levels
  | fieldSet => exact (SelectionsClose.all levels).fieldSet
  | field => exact (SelectionsClose.all levels).field
  | customScalar => exact CustomScalar.closes_reader levels
  | typeRef => exact TypeRef.closes_reader levels
  | leaf => exact Leaf.closes_reader levels
  | modelPath => exact ModelPath.closes_reader levels

/-- The source ends with the bracket that closes the value it holds. -/
structure ClosedAtEnd (f : Format) (source : Bytes) (v : f.Data) : Prop where
  bracket : ∃ (front : Bytes) (bracket : Bracket), source = front ++ [bracket.close]
  run : (f.reader nestingLimit).run source = .done v []

end Format

/-! ## Sources -/

/-- Decoding reads at the front of the source and leaves the rest alone. -/
theorem decode_eq_ok_iff {α : Type} {reader : (levels : Nat) → Reader α} {source : Bytes} {v : α} :
    decode reader source = .ok v ↔ ∃ rest, (reader nestingLimit).run source = .done v rest := by
  unfold decode
  cases (reader nestingLimit).run source with
  | failed failure rest => simp
  | done value rest => simp

theorem textBytes_ne_nil {s : String} (h : s ≠ "") : textBytes s ≠ [] := by
  have hchars : s.toList ≠ [] := by simpa using h
  obtain ⟨b, bytes, hbytes⟩ := exists_textBytes_cons hchars
  rw [String.ofList_toList] at hbytes
  rw [hbytes]
  exact List.cons_ne_nil b bytes

namespace Format

variable {f : Format}

/-- What is behind the value is not looked at. -/
theorem decode_append {source : Bytes} {v : f.Data} (h : decode f.reader source = .ok v)
    (more : Bytes) : decode f.reader (source ++ more) = .ok v := by
  obtain ⟨rest, hrun⟩ := decode_eq_ok_iff.mp h
  obtain ⟨front, bracket, rfl, hahead⟩ := f.closes_reader nestingLimit hrun
  rw [List.append_assoc, List.cons_append]
  exact decode_eq_ok_iff.mpr ⟨rest ++ more, hahead (rest ++ more)⟩

/-- The value is over at a closing bracket. -/
theorem exists_closedAtEnd {source : Bytes} {v : f.Data} (h : decode f.reader source = .ok v) :
    ∃ taken rest, source = taken ++ rest ∧ f.ClosedAtEnd taken v := by
  obtain ⟨rest, hrun⟩ := decode_eq_ok_iff.mp h
  obtain ⟨front, bracket, hsource, hahead⟩ := f.closes_reader nestingLimit hrun
  refine ⟨front ++ [bracket.close], rest, ?_, ⟨front, bracket, rfl⟩, hahead []⟩
  rw [hsource, List.append_assoc, List.singleton_append]

/-- Without its end the source holds no value. -/
theorem ClosedAtEnd.decode_ne_ok {source : Bytes} {v : f.Data} (h : f.ClosedAtEnd source v)
    {front missing : Bytes} (hsource : source = front ++ missing) (hmissing : missing ≠ [])
    (w : f.Data) : decode f.reader front ≠ .ok w := by
  intro hfront
  obtain ⟨rest, hrun⟩ := decode_eq_ok_iff.mp hfront
  obtain ⟨before, bracket, rfl, hahead⟩ := f.closes_reader nestingLimit hrun
  -- read on behind the front, the same value would leave what is missing
  have hwhole := hahead (rest ++ missing)
  have hrest : rest ++ missing = [] := by
    have hread := h.run
    rw [hsource, List.append_assoc, List.cons_append, hwhole] at hread
    exact congrArg Outcome.rest hread
  exact hmissing (List.append_eq_nil_iff.mp hrest).2

end Format

/-- In every format, what is decoded from a source is decoded from it with anything behind it too.
The value is over at a bracket; if the source ends there, no part of it that stops earlier is
decoded. So it is for bytes and for texts. -/
theorem sole_value (f : Format) :
    (∀ (source : Bytes) (v : f.Data), decode f.reader source = .ok v →
      (∀ more, decode f.reader (source ++ more) = .ok v) ∧
      (∃ taken rest, source = taken ++ rest ∧ f.ClosedAtEnd taken v) ∧
      (f.ClosedAtEnd source v → ∀ front missing, source = front ++ missing → missing ≠ [] →
        ∀ w, decode f.reader front ≠ .ok w)) ∧
    ∀ (source : String) (v : f.Data), decodeText f.reader source = .ok v →
      (∀ more, decodeText f.reader (source ++ more) = .ok v) ∧
      (f.ClosedAtEnd (textBytes source) v →
        ∀ front missing, source = front ++ missing → missing ≠ "" →
          ∀ w, decodeText f.reader front ≠ .ok w) := by
  constructor
  · intro source v h
    refine ⟨Format.decode_append h, Format.exists_closedAtEnd h, ?_⟩
    intro hclosed front missing hsource hmissing
    exact hclosed.decode_ne_ok hsource hmissing
  · intro source v h
    constructor
    · intro more
      rw [decodeText, textBytes_append]
      exact Format.decode_append h (textBytes more)
    · intro hclosed front missing hsource hmissing
      have hbytes : textBytes source = textBytes front ++ textBytes missing := by
        rw [hsource, textBytes_append]
      exact hclosed.decode_ne_ok hbytes (textBytes_ne_nil hmissing)

/-- The encoding of a document is closed at its end: with anything behind it the same document is
decoded, and with anything missing from its end none is. -/
theorem sole_value_planet :
    (∀ more, decodeText Document.reader (planetDocument.toJson.render .compact ++ more) =
      .ok planetDocument) ∧
    (∀ front missing, planetDocument.toJson.render .compact = front ++ missing → missing ≠ "" →
      ∀ d, decodeText Document.reader front ≠ .ok d) ∧
    ∀ front missing, textBytes (planetDocument.toJson.render .compact) = front ++ missing →
      missing ≠ [] → ∀ d, decode Document.reader front ≠ .ok d := by
  have hdepth : planetDocument.toJson.depth ≤ nestingLimit := by decide
  have hread : (Document.reader nestingLimit).run
      (textBytes (planetDocument.toJson.render .compact)) = .done planetDocument [] := by
    have hshape := planetDocument.readsShape_reader nestingLimit planetDocument.written_toJson
      hdepth blank_empty (Value.spelledAs_render .compact planetDocument.toJson) ends_nil
    rwa [textBytes_empty, List.nil_append, List.append_nil] at hshape
  have hclosed : Format.document.ClosedAtEnd
      (textBytes (planetDocument.toJson.render .compact)) planetDocument := by
    obtain ⟨front, bracket, hsource, -⟩ := Format.document.closes_reader nestingLimit hread
    exact ⟨⟨front, bracket, hsource⟩, hread⟩
  have hdecode := decode_eq_ok_iff.mpr ⟨[], hread⟩
  obtain ⟨hbytes, htexts⟩ := sole_value .document
  obtain ⟨-, -, hbytesClosed⟩ := hbytes _ _ hdecode
  obtain ⟨hmore, htextClosed⟩ := htexts _ _ hdecode
  exact ⟨hmore, htextClosed hclosed, hbytesClosed hclosed⟩

end SelectionModels
