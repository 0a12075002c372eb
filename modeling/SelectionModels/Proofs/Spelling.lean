import SelectionModels.Format.Document

/-! # The texts of a value

A JSON value can be written in many ways. Blanks may stand wherever a token ends, and the exponent
of a number has several forms. Strings are written here as the renderer writes them.

* `textBytes_append`: the bytes of a text, piece by piece;
* `Value.SpelledAs`: the texts of a value;
* `Value.spelledAs_render`: the renderer gives one of them, in either layout.
-/

namespace SelectionModels

/-! ## Bytes of texts -/

theorem toList_loop (bytes : ByteArray) (i : Nat) (taken : List UInt8) :
    ByteArray.toList.loop bytes i taken = taken.reverse ++ bytes.data.toList.drop i := by
  induction i, taken using ByteArray.toList.loop.induct bytes with
  | case1 i taken hlt ih =>
    have hi : i < bytes.data.toList.length := by simpa using hlt
    have hget : bytes.get! i = bytes.data.toList[i] := by
      rw [Array.getElem_toList]
      exact getElem!_pos bytes.data i (by simpa using hlt)
    rw [ByteArray.toList.loop, if_pos hlt, ih, List.drop_eq_getElem_cons hi, hget]
    simp
  | case2 i taken hle =>
    have hi : bytes.data.toList.length ≤ i := by simpa using hle
    rw [ByteArray.toList.loop, if_neg hle, List.drop_eq_nil_of_le hi, List.append_nil]

/-- The bytes of a text are those of its characters. -/
theorem textBytes_eq_flatMap (s : String) :
    textBytes s = s.toList.flatMap String.utf8EncodeChar := by
  have hdata : textBytes s = s.toByteArray.data.toList := by
    rw [textBytes, ByteArray.toList, toList_loop]
    rfl
  rw [hdata, ← String.utf8Encode_toList, List.utf8Encode, List.toList_data_toByteArray]

theorem textBytes_append (s t : String) : textBytes (s ++ t) = textBytes s ++ textBytes t := by
  simp [textBytes_eq_flatMap]

@[simp] theorem textBytes_empty : textBytes "" = [] := by
  rw [textBytes_eq_flatMap]
  rfl

theorem textBytes_ofList (cs : List Char) :
    textBytes (String.ofList cs) = cs.flatMap String.utf8EncodeChar := by
  rw [textBytes_eq_flatMap, String.toList_ofList]

namespace Json

/-! ## Blanks -/

/-- Nothing but blanks. -/
def Blank (t : String) : Prop :=
  ∀ c ∈ t.toList, c = ' ' ∨ c = '\t' ∨ c = '\n' ∨ c = '\r'

theorem blank_empty : Blank "" := by
  intro c hc
  simp at hc

/-- What stands before an item or a member: blanks before the first one, a comma among blanks before
the others. -/
inductive Lead : (first : Bool) → String → Prop where
  | first {t : String} (blank : Blank t) : Lead true t
  | later {s t : String} (before : Blank s) (after : Blank t) : Lead false (s ++ "," ++ t)

/-! ## Numbers -/

/-- The digits of a fraction after their point, if there are any. -/
def fractionText (digits : List (Fin 10)) : String :=
  if digits.isEmpty then "" else "." ++ String.ofList (digits.map fun d => d.val.digitChar)

/-- An exponent may start with either letter, a plus may be left out, and zeros may stand before the
digits. -/
inductive ExponentSpelledAs : Option (Bool × Nat) → String → Prop where
  | none : ExponentSpelledAs .none ""
  | some {minus : Bool} {mark sign : String} (size zeros : Nat) (hmark : mark = "e" ∨ mark = "E")
    (hsign : sign = (if minus then "-" else "+") ∨ minus = false ∧ sign = "") :
    ExponentSpelledAs (.some (minus, size))
      (mark ++ sign ++ String.ofList (List.replicate zeros '0') ++ natText size)

/-- The texts of a number. -/
inductive Numeral.SpelledAs (n : Numeral) : String → Prop where
  | mk {exponent : String} (hexponent : ExponentSpelledAs n.exponent exponent) :
    SpelledAs n ((if n.negative then "-" else "") ++ natText n.whole ++ fractionText n.fraction ++
      exponent)

/-! ## Values -/

namespace Value

mutual

/-- The texts of a value. -/
inductive SpelledAs : Value → String → Prop where
  | null : SpelledAs .null "null"
  | bool (b : Bool) : SpelledAs (.bool b) (if b then "true" else "false")
  | number {n : Numeral} {t : String} (h : n.SpelledAs t) : SpelledAs (.number n) t
  | string (s : String) : SpelledAs (.string s) (stringText s)
  | array {items : List Value} {t : String} (h : ItemsSpelledAs true items t) :
    SpelledAs (.array items) ("[" ++ t ++ "]")
  | object {members : List (String × Value)} {t : String} (h : MembersSpelledAs true members t) :
    SpelledAs (.object members) ("\x7b" ++ t ++ "\x7d")

/-- The texts of items, up to the closing bracket. -/
inductive ItemsSpelledAs : (first : Bool) → List Value → String → Prop where
  | nil {first : Bool} {t : String} (blank : Blank t) : ItemsSpelledAs first [] t
  | cons {first : Bool} {v : Value} {items : List Value} {lead t later : String}
    (hlead : Lead first lead) (hvalue : v.SpelledAs t) (hlater : ItemsSpelledAs false items later) :
    ItemsSpelledAs first (v :: items) (lead ++ t ++ later)

/-- The texts of members, up to the closing bracket. -/
inductive MembersSpelledAs : (first : Bool) → List (String × Value) → String → Prop where
  | nil {first : Bool} {t : String} (blank : Blank t) : MembersSpelledAs first [] t
  | cons {first : Bool} {v : Value} {members : List (String × Value)}
    {lead before after t later : String} (key : String) (hlead : Lead first lead)
    (hbefore : Blank before) (hafter : Blank after) (hvalue : v.SpelledAs t)
    (hlater : MembersSpelledAs false members later) :
    MembersSpelledAs first ((key, v) :: members)
      (lead ++ stringText key ++ before ++ ":" ++ after ++ t ++ later)

end

end Value

/-! ## Rendering -/

theorem Layout.blank_lineStart (layout : Layout) (depth : Nat) :
    Blank (layout.lineStart depth) := by
  cases layout with
  | compact => exact blank_empty
  | pretty =>
    intro c hc
    simp only [lineStart, String.toList_append, String.toList_ofList, List.mem_append,
      List.mem_replicate] at hc
    rcases hc with hc | ⟨-, rfl⟩
    · have hline : c = '\n' := by simpa using hc
      simp [hline]
    · simp

theorem Layout.colon_eq (layout : Layout) : ∃ after, Blank after ∧ layout.colon = ":" ++ after := by
  cases layout with
  | compact => exact ⟨"", blank_empty, rfl⟩
  | pretty => exact ⟨" ", by simp [Blank], rfl⟩

theorem Numeral.spelledAs_text (n : Numeral) : n.SpelledAs n.text := by
  obtain ⟨negative, whole, fraction, exponent⟩ := n
  cases exponent with
  | none => exact .mk .none
  | some e =>
    obtain ⟨minus, size⟩ := e
    have hexponent : ExponentSpelledAs (some (minus, size))
        ("e" ++ (if minus then "-" else "+") ++ "" ++ natText size) :=
      .some size 0 (.inl rfl) (.inl rfl)
    rw [String.append_empty] at hexponent
    exact .mk hexponent

namespace Value

variable (layout : Layout)

mutual

theorem spelledAs_renderAt (depth : Nat) : (v : Value) → v.SpelledAs (v.renderAt layout depth)
  | .null => .null
  | .bool b => .bool b
  | .number n => .number n.spelledAs_text
  | .string s => .string s
  | .array [] => .array (.nil blank_empty)
  | .array (v :: items) => by
    have hlater := spelledAs_renderItems (depth + 1) (layout.blank_lineStart depth) items
    have hitems := hlater.cons (.first (layout.blank_lineStart (depth + 1)))
      (spelledAs_renderAt (depth + 1) v)
    simpa [renderAt, String.append_assoc] using SpelledAs.array hitems
  | .object [] => .object (.nil blank_empty)
  | .object ((key, v) :: members) => by
    obtain ⟨after, hafter, hcolon⟩ := layout.colon_eq
    have hlater := spelledAs_renderMembers (depth + 1) (layout.blank_lineStart depth) members
    have hmembers := hlater.cons key (.first (layout.blank_lineStart (depth + 1))) blank_empty
      hafter (spelledAs_renderAt (depth + 1) v)
    simpa [renderAt, String.append_assoc, hcolon] using SpelledAs.object hmembers
termination_by structural v => v

theorem spelledAs_renderItems (depth : Nat) {last : String} (hlast : Blank last) :
    (items : List Value) → ItemsSpelledAs false items (renderItems layout depth items ++ last)
  | [] => .nil hlast
  | v :: items => by
    have hlater := spelledAs_renderItems depth hlast items
    have hitems := hlater.cons (.later blank_empty (layout.blank_lineStart depth))
      (spelledAs_renderAt depth v)
    simpa [renderItems, String.append_assoc] using hitems
termination_by structural items => items

theorem spelledAs_renderMembers (depth : Nat) {last : String} (hlast : Blank last) :
    (members : List (String × Value)) →
      MembersSpelledAs false members (renderMembers layout depth members ++ last)
  | [] => .nil hlast
  | (key, v) :: members => by
    obtain ⟨after, hafter, hcolon⟩ := layout.colon_eq
    have hlater := spelledAs_renderMembers depth hlast members
    have hmembers := hlater.cons key (.later blank_empty (layout.blank_lineStart depth)) blank_empty
      hafter (spelledAs_renderAt depth v)
    simpa [renderMembers, String.append_assoc, hcolon] using hmembers
termination_by structural members => members

end

/-- What is rendered is a text of the value, in either layout. -/
theorem spelledAs_render (v : Value) : v.SpelledAs (v.render layout) :=
  spelledAs_renderAt layout 0 v

end Value

end Json

end SelectionModels
