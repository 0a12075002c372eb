import SelectionModels.Proofs.Spelling
import Mathlib.Tactic.IntervalCases

/-! # Strings that are read back

Every character of a text is either written as it is or as one escape, and an escape stands for just
the bytes of its character. So a string that has been written is read as the text that it was
written for, and skipped to its end.

* `escapeChar_cases`: what a character is written as;
* `Reader.run_stringBody`, `Reader.run_skipString`: a string read, and a string skipped.
-/

namespace SelectionModels.Json

open Reader

/-! ## Characters -/

/-- The byte stands for itself inside a string. -/
def IsPlain (b : UInt8) : Prop :=
  b ≠ '"'.toUInt8 ∧ b ≠ '\\'.toUInt8 ∧ isControl b = false

/-- What an escape has after its backslash, and the bytes that it stands for. -/
structure Escapes (tail bytes : Bytes) : Prop where
  run_escape : ∀ rest, escape.run (tail ++ rest) = .done bytes rest
  run_skipEscape : ∀ rest, skipEscape.run (tail ++ rest) = .done () rest

theorem isPlain_iff_toNat {b : UInt8} :
    IsPlain b ↔ b.toNat ≠ '"'.toNat ∧ b.toNat ≠ '\\'.toNat ∧ 0x20 ≤ b.toNat := by
  have hcontrol : isControl b = false ↔ 0x20 ≤ b.toNat := by
    simp [isControl, UInt8.lt_iff_toNat_lt]
  rw [IsPlain, hcontrol, ne_eq, ne_eq, ← UInt8.toNat_inj, ← UInt8.toNat_inj]
  rfl

/-- The bytes of a character that has no escape. -/
theorem isPlain_of_mem_utf8EncodeChar {c : Char} (hquote : c ≠ '"') (hslash : c ≠ '\\')
    (hcontrol : 0x20 ≤ c.toNat) {b : UInt8} (hb : b ∈ String.utf8EncodeChar c) : IsPlain b := by
  have hcode : ∀ d : Char, c ≠ d → c.toNat ≠ d.toNat := fun d hne h => hne (Char.toNat_inj.mp h)
  have hquote := hcode _ hquote
  have hslash := hcode _ hslash
  simp only [Char.reduceToNat] at hquote hslash
  rw [isPlain_iff_toNat]
  simp only [Char.reduceToNat]
  unfold String.utf8EncodeChar at hb
  simp only [Char.toNat] at *
  -- one byte is the character itself, and the bytes of longer ones are all above the ASCII range
  split at hb
  · simp only [List.mem_singleton] at hb
    subst hb
    simp only [UInt8.toNat_ofNat']
    omega
  · split at hb
    · simp only [List.mem_cons, List.not_mem_nil, or_false] at hb
      rcases hb with rfl | rfl <;> simp only [UInt8.toNat_ofNat'] <;> omega
    · split at hb
      · simp only [List.mem_cons, List.not_mem_nil, or_false] at hb
        rcases hb with rfl | rfl | rfl <;> simp only [UInt8.toNat_ofNat'] <;> omega
      · simp only [List.mem_cons, List.not_mem_nil, or_false] at hb
        rcases hb with rfl | rfl | rfl | rfl <;> simp only [UInt8.toNat_ofNat'] <;> omega

/-- The escapes of the characters below the space. -/
theorem escapes_of_lt {n : Nat} (h : n < 0x20) : ∃ tail,
    textBytes (escapeChar (Char.ofNat n)) = '\\'.toUInt8 :: tail ∧
      Escapes tail (String.utf8EncodeChar (Char.ofNat n)) := by
  interval_cases n <;>
    exact ⟨_, (textBytes_eq_flatMap _).trans rfl, fun rest => rfl, fun rest => rfl⟩

theorem escapeChar_of_plain {c : Char} (hquote : c ≠ '"') (hslash : c ≠ '\\')
    (hcontrol : 0x20 ≤ c.toNat) : escapeChar c = c.toString := by
  have hne : ∀ d : Char, d.toNat < 0x20 → c ≠ d := by
    rintro d hd rfl
    omega
  unfold escapeChar
  split
  all_goals first
    | exact absurd rfl hquote
    | exact absurd rfl hslash
    | exact absurd rfl (hne _ (by decide))
    | rw [if_neg (Nat.not_lt.mpr hcontrol)]

/-- A character is written as it is, of bytes that stand for themselves, or as an escape. -/
theorem escapeChar_cases (c : Char) :
    (textBytes (escapeChar c) = String.utf8EncodeChar c ∧
      ∀ b ∈ String.utf8EncodeChar c, IsPlain b) ∨
    ∃ tail, textBytes (escapeChar c) = '\\'.toUInt8 :: tail ∧
      Escapes tail (String.utf8EncodeChar c) := by
  by_cases hquote : c = '"'
  · subst hquote
    exact .inr ⟨_, (textBytes_eq_flatMap _).trans rfl, fun rest => rfl, fun rest => rfl⟩
  by_cases hslash : c = '\\'
  · subst hslash
    exact .inr ⟨_, (textBytes_eq_flatMap _).trans rfl, fun rest => rfl, fun rest => rfl⟩
  rcases Nat.lt_or_ge c.toNat 0x20 with hcontrol | hcontrol
  · right
    rw [← c.ofNat_toNat]
    exact escapes_of_lt hcontrol
  · left
    refine ⟨?_, fun b hb => isPlain_of_mem_utf8EncodeChar hquote hslash hcontrol hb⟩
    rw [escapeChar_of_plain hquote hslash hcontrol, textBytes_eq_flatMap]
    simp

/-- What a string has after its opening quote. -/
def quotedRest (s : String) : Bytes :=
  textBytes (String.join (s.toList.map escapeChar)) ++ ['"'.toUInt8]

theorem textBytes_stringText (s : String) :
    textBytes (stringText s) = '"'.toUInt8 :: quotedRest s := by
  have hquote : textBytes "\"" = ['"'.toUInt8] := (textBytes_eq_flatMap _).trans rfl
  rw [stringText, textBytes_append, textBytes_append, hquote]
  rfl

namespace Reader

/-! ## Reading -/

theorem stringBytesFrom_plain {bytes : Bytes} (h : ∀ b ∈ bytes, IsPlain b) (taken rest : Bytes) :
    stringBytesFrom taken (bytes ++ rest) = stringBytesFrom (bytes.reverse ++ taken) rest := by
  induction bytes generalizing taken with
  | nil => rfl
  | cons b bytes ih =>
    obtain ⟨⟨hquote, hslash, hcontrol⟩, hbytes⟩ := List.forall_mem_cons.mp h
    rw [List.cons_append, stringBytesFrom, if_neg hquote, if_neg hslash, hcontrol]
    simp [ih hbytes]

theorem stringBytesFrom_escape {tail bytes : Bytes} (h : Escapes tail bytes) (taken rest : Bytes) :
    stringBytesFrom taken ('\\'.toUInt8 :: (tail ++ rest)) =
      stringBytesFrom (bytes.reverse ++ taken) rest := by
  rw [stringBytesFrom, if_neg (by decide), if_pos rfl]
  split
  · rename_i bytes' rest' hrun
    rw [h.run_escape] at hrun
    cases hrun
    rw [List.reverseAux_eq]
  · rename_i hrun
    simp [h.run_escape] at hrun

/-- The characters of a string are read one by one. -/
theorem stringBytesFrom_chars (cs : List Char) (taken rest : Bytes) :
    stringBytesFrom taken (textBytes (String.join (cs.map escapeChar)) ++ '"'.toUInt8 :: rest) =
      .done (taken.reverse ++ cs.flatMap String.utf8EncodeChar) rest := by
  induction cs generalizing taken with
  | nil => simp [stringBytesFrom]
  | cons c cs ih =>
    rw [List.map_cons, String.join_cons, textBytes_append, List.append_assoc]
    rcases escapeChar_cases c with ⟨hbytes, hplain⟩ | ⟨tail, hbytes, hescapes⟩
    · rw [hbytes, stringBytesFrom_plain hplain, ih]
      simp
    · rw [hbytes, List.cons_append, stringBytesFrom_escape hescapes, ih]
      simp

theorem fromUTF8?_textBytes (s : String) :
    String.fromUTF8? (ByteArray.mk (textBytes s).toArray) = some s := by
  have hbytes : ByteArray.mk (textBytes s).toArray = s.toByteArray := by
    rw [textBytes_eq_flatMap, ← String.utf8Encode_toList, List.utf8Encode]
    ext1
    simp
  rw [hbytes, String.fromUTF8?, dif_pos s.isValidUTF8]
  rfl

/-- A string is read as the text that it was written for. -/
theorem run_stringBody (s : String) (rest : Bytes) :
    stringBody.run (quotedRest s ++ rest) = .done s rest := by
  have hbytes : stringBytes.run (quotedRest s ++ rest) = .done (textBytes s) rest := by
    rw [quotedRest, List.append_assoc, textBytes_eq_flatMap s]
    exact stringBytesFrom_chars s.toList [] rest
  simp [stringBody, hbytes, fromUTF8?_textBytes]

/-! ## Skipping -/

theorem skipStringFrom_plain {bytes : Bytes} (h : ∀ b ∈ bytes, IsPlain b) (rest : Bytes) :
    skipStringFrom (bytes ++ rest) = skipStringFrom rest := by
  induction bytes with
  | nil => rfl
  | cons b bytes ih =>
    obtain ⟨⟨hquote, hslash, hcontrol⟩, hbytes⟩ := List.forall_mem_cons.mp h
    rw [List.cons_append, skipStringFrom, if_neg hquote, if_neg hslash, hcontrol]
    simp [ih hbytes]

theorem skipStringFrom_escape {tail bytes : Bytes} (h : Escapes tail bytes) (rest : Bytes) :
    skipStringFrom ('\\'.toUInt8 :: (tail ++ rest)) = skipStringFrom rest := by
  rw [skipStringFrom, if_neg (by decide), if_pos rfl]
  split
  · rename_i rest' hrun
    rw [h.run_skipEscape] at hrun
    cases hrun
    rfl
  · rename_i hrun
    simp [h.run_skipEscape] at hrun

theorem skipStringFrom_chars (cs : List Char) (rest : Bytes) :
    skipStringFrom (textBytes (String.join (cs.map escapeChar)) ++ '"'.toUInt8 :: rest) =
      .done () rest := by
  induction cs with
  | nil => simp [skipStringFrom]
  | cons c cs ih =>
    rw [List.map_cons, String.join_cons, textBytes_append, List.append_assoc]
    rcases escapeChar_cases c with ⟨hbytes, hplain⟩ | ⟨tail, hbytes, hescapes⟩
    · rw [hbytes, skipStringFrom_plain hplain, ih]
    · rw [hbytes, List.cons_append, skipStringFrom_escape hescapes, ih]

/-- A string is skipped to its end. -/
theorem run_skipString (s : String) (rest : Bytes) :
    skipString.run (quotedRest s ++ rest) = .done () rest := by
  rw [quotedRest, List.append_assoc]
  exact skipStringFrom_chars s.toList rest

end Reader

end SelectionModels.Json
