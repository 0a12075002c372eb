import SelectionModels.Proofs.Strings

/-! # What strings may look like

A string holds most characters as they are. Every character may be written as an escape instead, and
a quote, a backslash and the control characters must be: by one letter, by the four hexadecimal
digits of its code, or as a pair of two halves. This is how any JSON string is to be understood,
however this library writes its own.

* `CharSpelledAs`, `CharsSpelledAs`: the ways to write the characters of a string;
* `CharsSpelledAs.unique`: a string is read in one way only;
* `charSpelledAs_escapeChar`: the renderer uses one of them.
-/

namespace SelectionModels.Json

/-! ## The ways to write a character -/

/-- The value of a hexadecimal digit of either case. -/
def hexDigit? (c : Char) : Option Nat :=
  if c.isDigit then some (c.toNat - '0'.toNat)
  else if 'a' ≤ c ∧ c ≤ 'f' then some (c.toNat - 'a'.toNat + 10)
  else if 'A' ≤ c ∧ c ≤ 'F' then some (c.toNat - 'A'.toNat + 10)
  else none

/-- The number that four hexadecimal digits spell. -/
def hexUnit? : List Char → Option Nat
  | [a, b, c, d] => do
    return (((← hexDigit? a) * 16 + (← hexDigit? b)) * 16 + (← hexDigit? c)) * 16 +
      (← hexDigit? d)
  | _ => none

/-- The characters that have an escape of one letter, each behind its letter. -/
def shortEscapes : List (Char × Char) :=
  [('"', '"'), ('\\', '\\'), ('/', '/'), ('b', '\x08'), ('f', '\x0c'), ('n', '\n'), ('r', '\r'),
    ('t', '\t')]

/-- The number is one half of a pair that stands for one character. -/
def IsHighHalf (unit : Nat) : Prop := 0xD800 ≤ unit ∧ unit ≤ 0xDBFF

def IsLowHalf (unit : Nat) : Prop := 0xDC00 ≤ unit ∧ unit ≤ 0xDFFF

/-- What follows the backslash in an escape of a character. -/
inductive EscapeSpelledAs : Char → List Char → Prop where
  | short {letter c : Char} (hletter : (letter, c) ∈ shortEscapes) : EscapeSpelledAs c [letter]
  | unit {digits : List Char} {unit : Nat} (hunit : hexUnit? digits = some unit)
    (hhigh : ¬IsHighHalf unit) (hlow : ¬IsLowHalf unit) :
    EscapeSpelledAs (Char.ofNat unit) ('u' :: digits)
  | pair {digits digits' : List Char} {high low : Nat} (hunit : hexUnit? digits = some high)
    (hunit' : hexUnit? digits' = some low) (hhigh : IsHighHalf high) (hlow : IsLowHalf low) :
    EscapeSpelledAs (Char.ofNat (0x10000 + (high - 0xD800) * 0x400 + (low - 0xDC00)))
      ('u' :: (digits ++ '\\' :: 'u' :: digits'))

/-- The ways to write a character in a string. -/
inductive CharSpelledAs : Char → List Char → Prop where
  | itself {c : Char} (hcontrol : 0x20 ≤ c.toNat) (hquote : c ≠ '"') (hslash : c ≠ '\\') :
    CharSpelledAs c [c]
  | escape {c : Char} {t : List Char} (h : EscapeSpelledAs c t) : CharSpelledAs c ('\\' :: t)

/-- The texts of characters inside a string. -/
inductive CharsSpelledAs : List Char → List Char → Prop where
  | nil : CharsSpelledAs [] []
  | cons {c : Char} {cs t later : List Char} (hchar : CharSpelledAs c t)
    (hlater : CharsSpelledAs cs later) : CharsSpelledAs (c :: cs) (t ++ later)

theorem length_of_hexUnit? {digits : List Char} {unit : Nat} (h : hexUnit? digits = some unit) :
    digits.length = 4 := by
  unfold hexUnit? at h
  split at h
  · rfl
  · cases h

theorem eq_of_hexUnit?_append {digits digits' rest rest' : List Char} {unit unit' : Nat}
    (h : hexUnit? digits = some unit) (h' : hexUnit? digits' = some unit')
    (heq : digits ++ rest = digits' ++ rest') : unit = unit' ∧ rest = rest' := by
  have hlength : digits.length = digits'.length := by
    rw [length_of_hexUnit? h, length_of_hexUnit? h']
  rcases List.append_inj heq hlength with ⟨rfl, hrests⟩
  exact ⟨Option.some.inj (h.symm.trans h'), hrests⟩

theorem eq_of_mem_shortEscapes {letter c c' : Char} (h : (letter, c) ∈ shortEscapes)
    (h' : (letter, c') ∈ shortEscapes) : c = c' := by
  have hletters : ∀ e ∈ shortEscapes, ∀ e' ∈ shortEscapes, e.1 = e'.1 → e.2 = e'.2 := by decide
  exact hletters _ h _ h' rfl

theorem ne_of_mem_shortEscapes {letter c : Char} (h : (letter, c) ∈ shortEscapes) :
    letter ≠ 'u' := by
  have hletters : ∀ e ∈ shortEscapes, e.1 ≠ 'u' := by decide
  exact hletters _ h

/-- An escape is read in one way only. -/
theorem EscapeSpelledAs.unique {c c' : Char} {t t' : List Char} (h : EscapeSpelledAs c t)
    (h' : EscapeSpelledAs c' t') {rest rest' : List Char} (heq : t ++ rest = t' ++ rest') :
    c = c' ∧ rest = rest' := by
  cases h with
  | short hletter =>
    cases h' with
    | short hletter' =>
      rcases List.cons.inj heq with ⟨rfl, hrests⟩
      exact ⟨eq_of_mem_shortEscapes hletter hletter', hrests⟩
    | unit => exact absurd (List.cons.inj heq).1 (ne_of_mem_shortEscapes hletter)
    | pair => exact absurd (List.cons.inj heq).1 (ne_of_mem_shortEscapes hletter)
  | unit hunit hhigh hlow =>
    cases h' with
    | short hletter' => exact absurd (List.cons.inj heq).1.symm (ne_of_mem_shortEscapes hletter')
    | unit hunit' =>
      rcases eq_of_hexUnit?_append hunit hunit' (List.cons.inj heq).2 with ⟨rfl, hrests⟩
      exact ⟨rfl, hrests⟩
    | pair hunit' _ hhigh' =>
      -- no unit stands both for itself and for half of a character
      rw [List.cons_append, List.cons_append, List.append_assoc] at heq
      rcases eq_of_hexUnit?_append hunit hunit' (List.cons.inj heq).2 with ⟨rfl, -⟩
      exact absurd hhigh' hhigh
  | pair hunit hunit₂ hhigh hlow =>
    cases h' with
    | short hletter' => exact absurd (List.cons.inj heq).1.symm (ne_of_mem_shortEscapes hletter')
    | unit hunit' hhigh' =>
      rw [List.cons_append, List.cons_append, List.append_assoc] at heq
      rcases eq_of_hexUnit?_append hunit hunit' (List.cons.inj heq).2 with ⟨rfl, -⟩
      exact absurd hhigh hhigh'
    | pair hunit' hunit₂' =>
      rw [List.cons_append, List.cons_append, List.append_assoc, List.append_assoc] at heq
      rcases eq_of_hexUnit?_append hunit hunit' (List.cons.inj heq).2 with ⟨rfl, hrests⟩
      rcases eq_of_hexUnit?_append hunit₂ hunit₂' (List.cons.inj (List.cons.inj hrests).2).2 with
        ⟨rfl, hrests⟩
      exact ⟨rfl, hrests⟩

/-- A character is read in one way only. -/
theorem CharSpelledAs.unique {c c' : Char} {t t' : List Char} (h : CharSpelledAs c t)
    (h' : CharSpelledAs c' t') {rest rest' : List Char} (heq : t ++ rest = t' ++ rest') :
    c = c' ∧ rest = rest' := by
  cases h with
  | itself _ _ hslash =>
    cases h' with
    | itself => exact List.cons.inj heq
    | escape => exact absurd (List.cons.inj heq).1 hslash
  | escape h =>
    cases h' with
    | itself _ _ hslash' => exact absurd (List.cons.inj heq).1.symm hslash'
    | escape h' => exact h.unique h' (List.cons.inj heq).2

/-- Inside a string there is no quote but in an escape. -/
theorem CharSpelledAs.not_quote {c : Char} {t rest rest' : List Char} (h : CharSpelledAs c t) :
    t ++ rest ≠ '"' :: rest' := by
  intro heq
  cases h with
  | itself _ hquote => exact hquote (List.cons.inj heq).1
  | escape => cases (List.cons.inj heq).1

/-- A string is read in one way only. -/
theorem CharsSpelledAs.unique {cs cs' t t' : List Char} (h : CharsSpelledAs cs t)
    (h' : CharsSpelledAs cs' t') {rest rest' : List Char}
    (heq : t ++ '"' :: rest = t' ++ '"' :: rest') : cs = cs' ∧ rest = rest' := by
  induction h generalizing cs' t' with
  | nil =>
    cases h' with
    | nil => exact ⟨rfl, (List.cons.inj heq).2⟩
    | cons hchar' =>
      rw [List.append_assoc] at heq
      exact absurd heq.symm hchar'.not_quote
  | cons hchar _ ih =>
    rw [List.append_assoc] at heq
    cases h' with
    | nil => exact absurd heq hchar.not_quote
    | cons hchar' hlater' =>
      rw [List.append_assoc] at heq
      rcases hchar.unique hchar' heq with ⟨rfl, hrest⟩
      rcases ih hlater' hrest with ⟨rfl, hrests⟩
      exact ⟨rfl, hrests⟩

/-! ## Strings as they are rendered -/

theorem hexDigit?_digitChar {n : Nat} (h : n < 16) : hexDigit? n.digitChar = some n := by
  have hall : ∀ m : Fin 16, hexDigit? m.val.digitChar = some m.val := by decide
  exact hall ⟨n, h⟩

/-- Control characters have escapes, some of them short ones. -/
theorem charSpelledAs_control {c : Char} (h : c.toNat < 0x20) :
    CharSpelledAs c ['\\', 'u', '0', '0', (c.toNat / 16).digitChar, (c.toNat % 16).digitChar] := by
  have hunit : hexUnit? ['0', '0', (c.toNat / 16).digitChar, (c.toNat % 16).digitChar] =
      some c.toNat := by
    have hzero : hexDigit? '0' = some 0 := rfl
    simp only [hexUnit?, hzero, hexDigit?_digitChar (show c.toNat / 16 < 16 by omega),
      hexDigit?_digitChar (show c.toNat % 16 < 16 by omega), Option.bind_eq_bind, Option.bind_some,
      Option.pure_def, Option.some.injEq]
    omega
  have hescape : EscapeSpelledAs (Char.ofNat c.toNat) _ :=
    .unit hunit (by unfold IsHighHalf; omega) (by unfold IsLowHalf; omega)
  rw [c.ofNat_toNat] at hescape
  exact .escape hescape

/-- What is rendered for a character stands for it. -/
theorem charSpelledAs_escapeChar (c : Char) : CharSpelledAs c (escapeChar c).toList := by
  have hshort : ∀ {letter c : Char}, (letter, c) ∈ shortEscapes →
      CharSpelledAs c ['\\', letter] := fun h => .escape (.short h)
  unfold escapeChar
  split
  · exact hshort (by decide)
  · exact hshort (by decide)
  · exact hshort (by decide)
  · exact hshort (by decide)
  · exact hshort (by decide)
  · exact hshort (by decide)
  · exact hshort (by decide)
  · rename_i hquote hslash _ _ _ _ _
    split
    · rename_i hcontrol
      simpa using charSpelledAs_control hcontrol
    · rename_i hcontrol
      simpa using CharSpelledAs.itself (Nat.le_of_not_lt hcontrol) hquote hslash

theorem charsSpelledAs_map_escapeChar (cs : List Char) :
    CharsSpelledAs cs (String.join (cs.map escapeChar)).toList := by
  induction cs with
  | nil => exact .nil
  | cons c cs ih =>
    rw [List.map_cons, String.join_cons, String.toList_append]
    exact .cons (charSpelledAs_escapeChar c) ih

end SelectionModels.Json
