import Mathlib.Data.List.Basic
import SelectionModels.Proofs.Spelling

/-! # Numbers that are read back

A number is written as a sign, digits, perhaps a fraction and perhaps an exponent. No two numbers
are written alike, and where one number ends in a text is told by what follows: neither a digit nor
a point nor the letter of an exponent.

* `EndsNumber`: what may follow a number;
* `eq_of_natText_append`, `eq_of_fractionText_append`, `eq_of_exponent_append`: the parts of a
  number are cut off from what follows in one way only;
* `Numeral.eq_of_spelledAs`: so is a number.
-/

namespace SelectionModels.Json

/-! ## Digits -/

/-- No more digits follow. -/
def EndsDigits (rest : List Char) : Prop :=
  ∀ c ∈ rest.head?, c.isDigit = false

/-- A number goes no further. -/
def EndsNumber (rest : List Char) : Prop :=
  ∀ c ∈ rest.head?, c.isDigit = false ∧ c ≠ '.' ∧ c ≠ 'e' ∧ c ≠ 'E'

/-- Where a number is over its digits are. -/
theorem EndsNumber.endsDigits {rest : List Char} (h : EndsNumber rest) : EndsDigits rest :=
  fun c hc => (h c hc).1

/-- Nothing is left of the digits. -/
theorem takeWhile_isDigit_of_endsDigits {rest : List Char} (h : EndsDigits rest) :
    rest.takeWhile Char.isDigit = [] := by
  cases rest with
  | nil => rfl
  | cons c rest => exact List.takeWhile_cons_of_neg (by simp [h c rfl])

/-- Digits are cut off in one way only. -/
theorem eq_of_digits_append {digits digits' rest rest' : List Char}
    (hdigits : ∀ c ∈ digits, c.isDigit = true) (hdigits' : ∀ c ∈ digits', c.isDigit = true)
    (hrest : EndsDigits rest) (hrest' : EndsDigits rest')
    (h : digits ++ rest = digits' ++ rest') : digits = digits' ∧ rest = rest' := by
  have htaken := congrArg (List.takeWhile Char.isDigit) h
  rw [List.takeWhile_append_of_pos hdigits, List.takeWhile_append_of_pos hdigits',
    takeWhile_isDigit_of_endsDigits hrest, takeWhile_isDigit_of_endsDigits hrest',
    List.append_nil, List.append_nil] at htaken
  subst htaken
  exact ⟨rfl, List.append_cancel_left h⟩

theorem isDigit_of_mem_toDigits {n : Nat} {c : Char} (hc : c ∈ Nat.toDigits 10 n) :
    c.isDigit = true :=
  Nat.isDigit_of_mem_toDigits (by decide) (by decide) hc

/-! ## Numbers -/

theorem toList_natText (n : Nat) : (natText n).toList = Nat.toDigits 10 n :=
  String.toList_ofList

/-- A natural number is told from its text, whatever follows that is no digit. -/
theorem eq_of_natText_append {n n' : Nat} {rest rest' : List Char} (hrest : EndsDigits rest)
    (hrest' : EndsDigits rest') (h : (natText n).toList ++ rest = (natText n').toList ++ rest') :
    n = n' ∧ rest = rest' := by
  rw [toList_natText, toList_natText] at h
  rcases eq_of_digits_append (fun _ => isDigit_of_mem_toDigits) (fun _ => isDigit_of_mem_toDigits)
    hrest hrest' h with ⟨hdigits, hrests⟩
  have hvalue : n = n' := by
    calc n = Nat.ofDigitChars 10 (Nat.toDigits 10 n) 0 := Nat.ofDigitChars_ten_toDigits.symm
      _ = Nat.ofDigitChars 10 (Nat.toDigits 10 n') 0 := by rw [hdigits]
      _ = n' := Nat.ofDigitChars_ten_toDigits
  exact ⟨hvalue, hrests⟩

/-- A fraction without digits is not written. -/
theorem toList_fractionText (digits : List (Fin 10)) :
    (fractionText digits).toList =
      if digits = [] then [] else '.' :: digits.map fun d => d.val.digitChar := by
  cases digits with
  | nil => rfl
  | cons d digits => simp [fractionText]

theorem digitChar_injective : Function.Injective fun d : Fin 10 => d.val.digitChar := by
  intro d d'
  revert d d'
  decide

/-- A fraction is told from its text, whatever follows that is neither digit nor point. -/
theorem eq_of_fractionText_append {digits digits' : List (Fin 10)} {rest rest' : List Char}
    (hrest : EndsDigits rest) (hrest' : EndsDigits rest') (hpoint : ∀ c ∈ rest.head?, c ≠ '.')
    (hpoint' : ∀ c ∈ rest'.head?, c ≠ '.')
    (h : (fractionText digits).toList ++ rest = (fractionText digits').toList ++ rest') :
    digits = digits' ∧ rest = rest' := by
  have hisDigit : ∀ ds : List (Fin 10), ∀ c ∈ ds.map fun d => d.val.digitChar,
      c.isDigit = true := by
    intro ds c hc
    rcases List.mem_map.mp hc with ⟨d, -, rfl⟩
    rw [Nat.isDigit_digitChar]
    exact decide_eq_true d.isLt
  rw [toList_fractionText, toList_fractionText] at h
  split at h <;> split at h
  · rename_i hnil hnil'
    exact ⟨hnil.trans hnil'.symm, h⟩
  · subst h
    exact absurd rfl (hpoint _ rfl)
  · subst h
    exact absurd rfl (hpoint' _ rfl)
  · rcases eq_of_digits_append (hisDigit _) (hisDigit _) hrest hrest' (List.cons.inj h).2 with
      ⟨hdigits, hrests⟩
    exact ⟨digitChar_injective.list_map hdigits, hrests⟩

/-- What an exponent is written as, if there is one: a letter, perhaps a sign, and digits. -/
theorem exists_toList_of_exponent {e : Bool × Nat} {t : String}
    (h : ExponentSpelledAs (some e) t) :
    ∃ mark sign digits, t.toList = mark :: (sign ++ digits) ∧ (mark = 'e' ∨ mark = 'E') ∧
      (e.1 = true ∧ sign = ['-'] ∨ e.1 = false ∧ sign = ['+'] ∨ e.1 = false ∧ sign = []) ∧
      digits ≠ [] ∧ (∀ c ∈ digits, c.isDigit = true) ∧ Nat.ofDigitChars 10 digits 0 = e.2 := by
  cases h with
  | @some minus mark sign size zeros hmark hsign =>
    obtain ⟨m, hm, hletter⟩ : ∃ m, mark.toList = [m] ∧ (m = 'e' ∨ m = 'E') := by
      rcases hmark with rfl | rfl
      · exact ⟨'e', rfl, .inl rfl⟩
      · exact ⟨'E', rfl, .inr rfl⟩
    refine ⟨m, sign.toList, List.replicate zeros '0' ++ Nat.toDigits 10 size, ?_, hletter, ?_, ?_,
      ?_, ?_⟩
    · simp [hm, toList_natText]
    · rcases hsign with rfl | ⟨rfl, rfl⟩
      · cases minus
        · exact .inr (.inl ⟨rfl, rfl⟩)
        · exact .inl ⟨rfl, rfl⟩
      · exact .inr (.inr ⟨rfl, rfl⟩)
    · exact List.append_ne_nil_of_right_ne_nil _ Nat.toDigits_ne_nil
    · intro c hc
      rcases List.mem_append.mp hc with hc | hc
      · rw [List.eq_of_mem_replicate hc]
        rfl
      · exact isDigit_of_mem_toDigits hc
    · rw [Nat.ofDigitChars_append, Nat.ofDigitChars_replicate_zero, Nat.mul_zero,
        Nat.ofDigitChars_ten_toDigits]

/-- Neither an exponent nor what follows it goes on with a fraction. -/
theorem head?_exponent_append {e : Option (Bool × Nat)} {t : String}
    (h : ExponentSpelledAs e t) {rest : List Char} (hrest : EndsNumber rest) :
    ∀ c ∈ (t.toList ++ rest).head?, c.isDigit = false ∧ c ≠ '.' := by
  intro c hc
  cases e with
  | none =>
    cases h
    exact ⟨(hrest c hc).1, (hrest c hc).2.1⟩
  | some e =>
    rcases exists_toList_of_exponent h with ⟨mark, sign, digits, htext, hmark, -⟩
    rw [htext] at hc
    obtain rfl : mark = c := by simpa using hc
    rcases hmark with rfl | rfl <;> decide

/-- The sign of an exponent, `true` for a minus, and what is behind it. -/
def afterSign : List Char → Bool × List Char
  | '-' :: cs => (true, cs)
  | '+' :: cs => (false, cs)
  | cs => (false, cs)

/-- A plus and no sign come to the same. -/
theorem afterSign_append {minus : Bool} {sign digits : List Char} (hne : digits ≠ [])
    (hdigits : ∀ c ∈ digits, c.isDigit = true) (rest : List Char)
    (hsign : minus = true ∧ sign = ['-'] ∨ minus = false ∧ sign = ['+'] ∨
      minus = false ∧ sign = []) :
    afterSign (sign ++ (digits ++ rest)) = (minus, digits ++ rest) := by
  rcases hsign with ⟨rfl, rfl⟩ | ⟨rfl, rfl⟩ | ⟨rfl, rfl⟩
  · rfl
  · rfl
  · rcases List.exists_cons_of_ne_nil hne with ⟨d, digits, rfl⟩
    have hd : d.isDigit = true := hdigits d List.mem_cons_self
    rw [List.nil_append, List.cons_append]
    unfold afterSign
    split
    · rename_i heq
      cases (List.cons.inj heq).1
      cases hd
    · rename_i heq
      cases (List.cons.inj heq).1
      cases hd
    · rfl

/-- An exponent is told from any of its texts. -/
theorem eq_of_exponent_append {e e' : Option (Bool × Nat)} {t t' : String}
    (h : ExponentSpelledAs e t) (h' : ExponentSpelledAs e' t') {rest rest' : List Char}
    (hrest : EndsNumber rest) (hrest' : EndsNumber rest')
    (heq : t.toList ++ rest = t'.toList ++ rest') : e = e' ∧ rest = rest' := by
  have hmarked : ∀ {rest : List Char}, EndsNumber rest → ∀ {c : Char} {cs : List Char},
      (c = 'e' ∨ c = 'E') → c :: cs ≠ rest := by
    rintro rest hrest c cs hc rfl
    rcases hrest c rfl with ⟨-, -, he, hE⟩
    rcases hc with rfl | rfl
    · exact he rfl
    · exact hE rfl
  cases e with
  | none =>
    cases h
    cases e' with
    | none =>
      cases h'
      exact ⟨rfl, heq⟩
    | some e' =>
      rcases exists_toList_of_exponent h' with ⟨mark', sign', digits', htext', hmark', -⟩
      rw [htext'] at heq
      exact absurd heq.symm (hmarked hrest hmark')
  | some e =>
    rcases exists_toList_of_exponent h with ⟨mark, sign, digits, htext, hmark, hsign, hne, hdigits,
      hsize⟩
    rw [htext] at heq
    cases e' with
    | none =>
      cases h'
      exact absurd heq (hmarked hrest' hmark)
    | some e' =>
      rcases exists_toList_of_exponent h' with ⟨mark', sign', digits', htext', -, hsign', hne',
        hdigits', hsize'⟩
      rw [htext', List.cons_append, List.cons_append, List.append_assoc, List.append_assoc] at heq
      -- behind the letters are signs, and digits behind these
      have hsigned := congrArg afterSign (List.cons.inj heq).2
      rw [afterSign_append hne hdigits rest hsign, afterSign_append hne' hdigits' rest' hsign',
        Prod.mk.injEq] at hsigned
      rcases eq_of_digits_append hdigits hdigits' hrest.endsDigits hrest'.endsDigits hsigned.2 with
        ⟨rfl, hrests⟩
      exact ⟨congrArg some (Prod.ext hsigned.1 (hsize.symm.trans hsize')), hrests⟩

theorem endsDigits_fraction_append (fraction : List (Fin 10)) {rest : List Char}
    (hrest : EndsDigits rest) : EndsDigits ((fractionText fraction).toList ++ rest) := by
  rw [toList_fractionText]
  split
  · exact hrest
  · intro c hc
    obtain rfl : '.' = c := by simpa using hc
    rfl

/-- A number is read in one way only, if it is read as far as it goes. -/
theorem Numeral.eq_of_spelledAs {n n' : Numeral} {t t' : String} (h : n.SpelledAs t)
    (h' : n'.SpelledAs t') {rest rest' : List Char} (hrest : EndsNumber rest)
    (hrest' : EndsNumber rest') (heq : t.toList ++ rest = t'.toList ++ rest') :
    n = n' ∧ rest = rest' := by
  have hsign : ∀ negative : Bool,
      negative = true ∧ (if negative then "-" else "").toList = ['-'] ∨
        negative = false ∧ (if negative then "-" else "").toList = ['+'] ∨
        negative = false ∧ (if negative then "-" else "").toList = [] := by decide
  rcases n with ⟨negative, whole, fraction, exponent⟩
  rcases n' with ⟨negative', whole', fraction', exponent'⟩
  rcases h with ⟨hexponent⟩
  rcases h' with ⟨hexponent'⟩
  simp only [String.toList_append, toList_natText, List.append_assoc] at heq
  -- sign, whole part, fraction and exponent are told one after the other
  have hsigned := congrArg afterSign heq
  rw [afterSign_append Nat.toDigits_ne_nil (fun _ => isDigit_of_mem_toDigits) _ (hsign negative),
    afterSign_append Nat.toDigits_ne_nil (fun _ => isDigit_of_mem_toDigits) _ (hsign negative'),
    Prod.mk.injEq] at hsigned
  rcases hsigned with ⟨rfl, hwhole⟩
  have hhead := head?_exponent_append hexponent hrest
  have hhead' := head?_exponent_append hexponent' hrest'
  have hdigits := fun c hc => (hhead c hc).1
  have hdigits' := fun c hc => (hhead' c hc).1
  rw [← toList_natText, ← toList_natText] at hwhole
  rcases eq_of_natText_append (endsDigits_fraction_append fraction hdigits)
    (endsDigits_fraction_append fraction' hdigits') hwhole with ⟨rfl, hfraction⟩
  rcases eq_of_fractionText_append hdigits hdigits' (fun c hc => (hhead c hc).2)
    (fun c hc => (hhead' c hc).2) hfraction with ⟨rfl, hexponents⟩
  rcases eq_of_exponent_append hexponent hexponent' hrest hrest' hexponents with ⟨rfl, hrests⟩
  exact ⟨rfl, hrests⟩

end SelectionModels.Json
