import Mathlib.Tactic.IntervalCases
import SelectionModels.Proofs.Strings

/-! # Tokens and numbers

Blanks may stand before every token, and a reader that asks for the next token drops them. A number
is skipped from its first digit to where it ends, in all forms that it may be written in.

* `textBytes_null`, `textBytes_brackets` and their like: the bytes of what is always written alike;
* `Reader.run_peekToken`, `Reader.run_takeToken`, `Reader.run_takeIf_of_eq`: the next token;
* `Reader.Ends`: what may follow a number;
* `Reader.exponent_cases`, `Reader.fraction_cases`, `Reader.whole_cases`: what its parts are made
  of;
* `Reader.run_skipAfterDigit`: a number is skipped.
-/

namespace SelectionModels.Json

open Reader

/-! ## Fixed texts -/

/-- The three words, and the marks between values. -/
theorem textBytes_null :
    textBytes "null" = ['n'.toUInt8, 'u'.toUInt8, 'l'.toUInt8, 'l'.toUInt8] :=
  (textBytes_eq_flatMap _).trans rfl

theorem textBytes_true :
    textBytes "true" = ['t'.toUInt8, 'r'.toUInt8, 'u'.toUInt8, 'e'.toUInt8] :=
  (textBytes_eq_flatMap _).trans rfl

theorem textBytes_false :
    textBytes "false" = ['f'.toUInt8, 'a'.toUInt8, 'l'.toUInt8, 's'.toUInt8, 'e'.toUInt8] :=
  (textBytes_eq_flatMap _).trans rfl

theorem textBytes_minus : textBytes "-" = ['-'.toUInt8] :=
  (textBytes_eq_flatMap _).trans rfl

theorem textBytes_comma : textBytes "," = [','.toUInt8] :=
  (textBytes_eq_flatMap _).trans rfl

theorem textBytes_colon : textBytes ":" = [':'.toUInt8] :=
  (textBytes_eq_flatMap _).trans rfl

/-- A list stands between its brackets. -/
theorem textBytes_brackets (t : String) :
    textBytes ("[" ++ t ++ "]") = '['.toUInt8 :: (textBytes t ++ [']'.toUInt8]) := by
  have hopen : textBytes "[" = ['['.toUInt8] := (textBytes_eq_flatMap _).trans rfl
  have hclose : textBytes "]" = [']'.toUInt8] := (textBytes_eq_flatMap _).trans rfl
  rw [textBytes_append, textBytes_append, hopen, hclose]
  rfl

/-- An object stands between its brackets. -/
theorem textBytes_braces (t : String) :
    textBytes ("\x7b" ++ t ++ "\x7d") = '\x7b'.toUInt8 :: (textBytes t ++ ['\x7d'.toUInt8]) := by
  have hopen : textBytes "\x7b" = ['\x7b'.toUInt8] := (textBytes_eq_flatMap _).trans rfl
  have hclose : textBytes "\x7d" = ['\x7d'.toUInt8] := (textBytes_eq_flatMap _).trans rfl
  rw [textBytes_append, textBytes_append, hopen, hclose]
  rfl

/-- A member of an object, with everything that stands before and after it. -/
theorem textBytes_member (lead key before after t later : String) (rest : Bytes) :
    textBytes (lead ++ stringText key ++ before ++ ":" ++ after ++ t ++ later) ++ rest =
      textBytes lead ++ '"'.toUInt8 :: (quotedRest key ++ (textBytes before ++
        ':'.toUInt8 :: (textBytes after ++ (textBytes t ++ (textBytes later ++ rest))))) := by
  simp [textBytes_append, textBytes_stringText, textBytes_colon]

/-! ## Tokens -/

/-- Every byte of a text of blanks is one. -/
theorem isBlank_of_blank {t : String} (h : Blank t) {b : UInt8} (hb : b ∈ textBytes t) :
    isBlank b = true := by
  rw [textBytes_eq_flatMap] at hb
  obtain ⟨c, hc, hb⟩ := List.mem_flatMap.mp hb
  obtain rfl | rfl | rfl | rfl := h c hc <;>
    · rw [List.mem_singleton.mp hb]
      decide

/-- Blanks are dropped before a token. -/
theorem dropWhile_isBlank {lead : String} (hlead : Blank lead) {b : UInt8}
    (hb : isBlank b = false) (rest : Bytes) :
    (textBytes lead ++ b :: rest).dropWhile isBlank = b :: rest := by
  rw [List.dropWhile_append_of_pos fun b hb => isBlank_of_blank hlead hb,
    List.dropWhile_cons_of_neg (by simp [hb])]

namespace Reader

/-- What is made of a value, or the failure. -/
theorem run_map {α β : Type} (f : α → β) (r : Reader α) (input : Bytes) :
    (f <$> r).run input =
      match r.run input with
      | .done value rest => .done (f value) rest
      | .failed failure rest => .failed failure rest := rfl

theorem run_discard {α : Type} (r : Reader α) (input : Bytes) :
    (discard r).run input =
      match r.run input with
      | .done _ rest => .done () rest
      | .failed failure rest => .failed failure rest := rfl

section Tokens

variable {lead : String} {b : UInt8}

/-- Blanks are dropped before the next token, which is left. -/
theorem run_peekToken (hlead : Blank lead) (hb : isBlank b = false) (rest : Bytes) :
    peekToken.run (textBytes lead ++ b :: rest) = .done (some b) (b :: rest) := by
  simp [peekToken, dropWhile_isBlank hlead hb]

/-- Blanks are dropped before the next token, which is taken. -/
theorem run_takeToken (hlead : Blank lead) (hb : isBlank b = false) (rest : Bytes) :
    takeToken.run (textBytes lead ++ b :: rest) = .done (some b) rest := by
  simp [takeToken, dropWhile_isBlank hlead hb]

/-- The next token is taken, or nothing but the blanks before it. -/
theorem run_takeIf (b : UInt8) (input : Bytes) : (takeIf b).run input =
    if (input.dropWhile isBlank).head? = some b then .done true (input.dropWhile isBlank).tail
    else .done false (input.dropWhile isBlank) := by
  rw [takeIf, run_bind]
  simp only [peekToken]
  cases (input.dropWhile isBlank).head? with
  | none => rfl
  | some c =>
    by_cases hc : c = b
    · simp [hc, run_map, skip]
    · simp [hc]

/-- The token is the one that is asked for. -/
theorem run_takeIf_of_eq (hlead : Blank lead) (hb : isBlank b = false) (rest : Bytes) :
    (takeIf b).run (textBytes lead ++ b :: rest) = .done true rest := by
  simp [run_takeIf, dropWhile_isBlank hlead hb]

/-- The token is another one, and it is left. -/
theorem run_takeIf_of_ne (hlead : Blank lead) (hb : isBlank b = false) {c : UInt8} (hne : b ≠ c)
    (rest : Bytes) : (takeIf c).run (textBytes lead ++ b :: rest) = .done false (b :: rest) := by
  simp [run_takeIf, dropWhile_isBlank hlead hb, hne]

end Tokens

/-! ## Digits -/

/-- A number is over before these bytes. -/
structure Ends (rest : Bytes) : Prop where
  digit : rest.head?.any isDigit = false
  point : rest.head?.any (· == '.'.toUInt8) = false
  exponent : rest.head?.any isExponentMark = false

theorem run_peekIs (test : UInt8 → Bool) (input : Bytes) :
    (peekIs test).run input = .done (input.head?.any test) input := rfl

/-- A digit is seen, and it is left. -/
theorem run_peekDigit?_of_digit {b : UInt8} (h : isDigit b = true) (rest : Bytes) :
    peekDigit?.run (b :: rest) = .done (some (digitValue b)) (b :: rest) := by
  simp [peekDigit?, run_bind, peek, h]

/-- There is no digit where a number is over. -/
theorem run_peekDigit?_of_ends {rest : Bytes} (h : rest.head?.any isDigit = false) :
    peekDigit?.run rest = .done none rest := by
  cases rest with
  | nil => rfl
  | cons b rest =>
    have hb : isDigit b = false := by simpa using h
    simp [peekDigit?, run_bind, peek, hb]

/-- Digits are dropped up to where a number is over. -/
theorem run_skipDigits {digits rest : Bytes} (hdigits : ∀ b ∈ digits, isDigit b = true)
    (hrest : rest.head?.any isDigit = false) : skipDigits.run (digits ++ rest) = .done () rest := by
  have hdrop : rest.dropWhile isDigit = rest := by
    cases rest with
    | nil => rfl
    | cons b rest => exact List.dropWhile_cons_of_neg (by simpa using hrest)
  simp [skipDigits, List.dropWhile_append_of_pos hdigits, hdrop]

/-- The bytes of digits are digits. -/
theorem isDigit_of_mem_textBytes {cs : List Char} (h : ∀ c ∈ cs, c.isDigit = true) {b : UInt8}
    (hb : b ∈ textBytes (String.ofList cs)) : isDigit b = true := by
  rw [textBytes_ofList] at hb
  obtain ⟨c, hc, hb⟩ := List.mem_flatMap.mp hb
  obtain ⟨hlow, hhigh⟩ : 48 ≤ c.val.toNat ∧ c.val.toNat ≤ 57 := by
    simpa [Char.isDigit, UInt32.le_iff_toNat_le] using h c hc
  rw [String.utf8EncodeChar, if_pos (by omega), List.mem_singleton] at hb
  subst hb
  simp only [isDigit, Bool.and_eq_true, decide_eq_true_eq, UInt8.le_iff_toNat_le,
    UInt8.toNat_ofNat']
  exact ⟨by change 48 ≤ _; omega, by change _ ≤ 57; omega⟩

/-- A text that is not empty has a first byte. -/
theorem exists_textBytes_cons {cs : List Char} (h : cs ≠ []) :
    ∃ b bytes, textBytes (String.ofList cs) = b :: bytes := by
  refine List.exists_cons_of_ne_nil ?_
  obtain ⟨c, cs, rfl⟩ := List.exists_cons_of_ne_nil h
  rw [textBytes_ofList, List.flatMap_cons]
  exact List.append_ne_nil_of_left_ne_nil String.utf8EncodeChar_ne_nil _

/-- A natural number is written in digits. -/
theorem isDigit_of_mem_natText {n : Nat} {b : UInt8} (hb : b ∈ textBytes (natText n)) :
    isDigit b = true :=
  isDigit_of_mem_textBytes
    (fun _ hc => Nat.isDigit_of_mem_toDigits (by decide) (by decide) hc) hb

/-- A positive number does not start with a zero. -/
theorem digitValue_ne_zero_of_natText {n : Nat} (hn : 0 < n) {b : UInt8} {bytes : Bytes}
    (h : textBytes (natText n) = b :: bytes) : digitValue b ≠ 0 := by
  induction n using Nat.strongRecOn generalizing bytes with
  | _ n ih =>
    rcases Nat.lt_or_ge n 10 with hlt | hle
    · rw [natText, Nat.toDigits_of_lt_base hlt, textBytes_ofList] at h
      interval_cases n <;> (obtain ⟨rfl, -⟩ := List.cons.inj h; decide)
    · -- the first digit is that of the number without its last digit
      obtain ⟨b', bytes', hbytes⟩ := exists_textBytes_cons (@Nat.toDigits_ne_nil (n / 10) 10)
      rw [natText, Nat.toDigits_of_base_le (by decide) hle, String.ofList_append,
        textBytes_append, hbytes] at h
      obtain ⟨rfl, -⟩ := List.cons.inj h
      exact ih (n / 10) (by omega) (by omega) hbytes

/-! ## Parts of a number -/

/-- What an exponent is made of. -/
theorem exponent_cases {e : Option (Bool × Nat)} {t : String} (h : ExponentSpelledAs e t) :
    textBytes t = [] ∨ ∃ mark sign d digits, textBytes t = mark :: (sign ++ d :: digits) ∧
      (mark = 'e'.toUInt8 ∨ mark = 'E'.toUInt8) ∧
      (sign = [] ∨ sign = ['-'.toUInt8] ∨ sign = ['+'.toUInt8]) ∧
      ∀ b ∈ d :: digits, isDigit b = true := by
  cases h with
  | none => exact .inl textBytes_empty
  | @some minus mark sign size zeros hmark hsign =>
    right
    -- zeros may stand before the digits of the size, of which there is one at least
    have hzeros : ∀ b ∈ textBytes (String.ofList (List.replicate zeros '0')) ++
        textBytes (natText size), isDigit b = true := by
      intro b hb
      rcases List.mem_append.mp hb with hb | hb
      · refine isDigit_of_mem_textBytes (fun c hc => ?_) hb
        rw [List.eq_of_mem_replicate hc]
        rfl
      · exact isDigit_of_mem_natText hb
    obtain ⟨d, digits, hdigits⟩ : ∃ d digits,
        textBytes (String.ofList (List.replicate zeros '0')) ++ textBytes (natText size) =
          d :: digits := by
      rw [natText, ← textBytes_append, ← String.ofList_append]
      exact exists_textBytes_cons (List.append_ne_nil_of_right_ne_nil _ Nat.toDigits_ne_nil)
    rw [hdigits] at hzeros
    have hmark' : ∃ b, textBytes mark = [b] ∧ (b = 'e'.toUInt8 ∨ b = 'E'.toUInt8) := by
      rcases hmark with rfl | rfl
      · exact ⟨_, (textBytes_eq_flatMap _).trans rfl, .inl rfl⟩
      · exact ⟨_, (textBytes_eq_flatMap _).trans rfl, .inr rfl⟩
    have hsign' : textBytes sign = [] ∨ textBytes sign = ['-'.toUInt8] ∨
        textBytes sign = ['+'.toUInt8] := by
      rcases hsign with rfl | ⟨-, rfl⟩
      · cases minus
        · exact .inr (.inr ((textBytes_eq_flatMap _).trans rfl))
        · exact .inr (.inl ((textBytes_eq_flatMap _).trans rfl))
      · exact .inl textBytes_empty
    obtain ⟨b, hb, hletter⟩ := hmark'
    refine ⟨b, textBytes sign, d, digits, ?_, hletter, hsign', hzeros⟩
    simp only [textBytes_append, List.append_assoc, hb, hdigits, List.cons_append, List.nil_append]

/-- What follows an exponent's sign is looked at as digits. -/
theorem run_exponentSign {sign : Bytes}
    (hsign : sign = [] ∨ sign = ['-'.toUInt8] ∨ sign = ['+'.toUInt8]) {d : UInt8}
    (hd : isDigit d = true) (rest : Bytes) :
    ∃ minus, exponentSign.run (sign ++ d :: rest) = .done minus (d :: rest) := by
  rcases hsign with rfl | rfl | rfl
  · have hplus : d ≠ '+'.toUInt8 := by rintro rfl; revert hd; decide
    have hminus : d ≠ '-'.toUInt8 := by rintro rfl; revert hd; decide
    exact ⟨false, by simp [exponentSign, run_bind, peek, hplus, hminus]⟩
  · exact ⟨true, rfl⟩
  · exact ⟨false, rfl⟩

/-- An exponent is skipped, or there is none. -/
theorem run_skipExponent {e : Option (Bool × Nat)} {t : String} (h : ExponentSpelledAs e t)
    {rest : Bytes} (hrest : Ends rest) :
    skipExponent.run (textBytes t ++ rest) = .done () rest := by
  rcases exponent_cases h with hbytes | ⟨mark, sign, d, digits, hbytes, hmark, hsign, hdigits⟩
  · simp [hbytes, skipExponent, run_bind, run_peekIs, hrest.exponent]
  · obtain ⟨hd, hdigits⟩ := List.forall_mem_cons.mp hdigits
    obtain ⟨minus, hminus⟩ := run_exponentSign hsign hd (digits ++ rest)
    have hmark : isExponentMark mark = true := by
      rcases hmark with rfl | rfl <;> decide
    rw [hbytes, List.cons_append, List.append_assoc, List.cons_append]
    simp [skipExponent, run_bind, run_peekIs, hmark, skip, next, hd, run_discard, hminus,
      run_skipDigits hdigits hrest.digit]

/-- Neither digits nor a fraction go on before an exponent. -/
theorem ends_exponent {e : Option (Bool × Nat)} {t : String} (h : ExponentSpelledAs e t)
    {rest : Bytes} (hrest : Ends rest) :
    (textBytes t ++ rest).head?.any isDigit = false ∧
      (textBytes t ++ rest).head?.any (· == '.'.toUInt8) = false := by
  rcases exponent_cases h with hbytes | ⟨mark, sign, d, digits, hbytes, rfl | rfl, -, -⟩
  · simp only [hbytes, List.nil_append]
    exact ⟨hrest.digit, hrest.point⟩
  · rw [hbytes]
    exact ⟨rfl, rfl⟩
  · rw [hbytes]
    exact ⟨rfl, rfl⟩

/-- What a fraction is made of. -/
theorem fraction_cases (digits : List (Fin 10)) :
    textBytes (fractionText digits) = [] ∨ ∃ d later,
      textBytes (fractionText digits) = '.'.toUInt8 :: d :: later ∧
        ∀ b ∈ d :: later, isDigit b = true := by
  cases digits with
  | nil => exact .inl textBytes_empty
  | cons x digits =>
    right
    have hchars : ∀ c ∈ (x :: digits).map fun d => d.val.digitChar, c.isDigit = true := by
      have hdigit : ∀ d : Fin 10, d.val.digitChar.isDigit = true := by decide
      intro c hc
      obtain ⟨d, -, rfl⟩ := List.mem_map.mp hc
      exact hdigit d
    obtain ⟨d, later, hlater⟩ := exists_textBytes_cons
      (List.cons_ne_nil x.val.digitChar (digits.map fun d => d.val.digitChar))
    have hpoint : textBytes "." = ['.'.toUInt8] := (textBytes_eq_flatMap _).trans rfl
    refine ⟨d, later, ?_, fun b hb => isDigit_of_mem_textBytes hchars (hlater ▸ hb)⟩
    rw [fractionText, if_neg (by simp), textBytes_append, hpoint, List.map_cons, hlater]
    rfl

/-- A fraction is skipped, or there is none. -/
theorem run_skipFraction (digits : List (Fin 10)) {rest : Bytes}
    (hdigit : rest.head?.any isDigit = false)
    (hpoint : rest.head?.any (· == '.'.toUInt8) = false) :
    skipFraction.run (textBytes (fractionText digits) ++ rest) = .done () rest := by
  rcases fraction_cases digits with hbytes | ⟨d, later, hbytes, hdigits⟩
  · simp [hbytes, skipFraction, run_bind, run_peekIs, hpoint]
  · have hdrop := run_skipDigits hdigits hdigit
    have hd := run_peekDigit?_of_digit (hdigits d (List.mem_cons_self ..)) (later ++ rest)
    rw [List.cons_append] at hdrop
    simp [hbytes, skipFraction, run_bind, run_peekIs, skip, hd, hdrop]

/-- The first digit of a number, and how it goes on after it. -/
theorem whole_cases (n : Nat) : ∃ d digits, textBytes (natText n) = d :: digits ∧
    (∀ b ∈ d :: digits, isDigit b = true) ∧ (digitValue d = 0 → digits = []) := by
  obtain ⟨d, digits, hbytes⟩ := exists_textBytes_cons (@Nat.toDigits_ne_nil n 10)
  refine ⟨d, digits, hbytes, ?_, fun hzero => ?_⟩
  · intro b hb
    rw [← hbytes] at hb
    exact isDigit_of_mem_natText hb
  · rcases Nat.eq_zero_or_pos n with rfl | hn
    · have hbytes' : textBytes (natText 0) = ['0'.toUInt8] := (textBytes_eq_flatMap _).trans rfl
      exact (List.cons.inj (hbytes.symm.trans hbytes')).2
    · exact absurd hzero (digitValue_ne_zero_of_natText hn hbytes)

/-- A number is passed over from its first digit on. -/
theorem run_skipAfterDigit {d : UInt8} {digits : Bytes} (hdigits : ∀ b ∈ digits, isDigit b = true)
    (hzero : digitValue d = 0 → digits = []) (fraction : List (Fin 10))
    {e : Option (Bool × Nat)} {t : String} (h : ExponentSpelledAs e t) {rest : Bytes}
    (hrest : Ends rest) :
    (skipAfterDigit d).run (digits ++ (textBytes (fractionText fraction) ++
      (textBytes t ++ rest))) = .done () rest := by
  obtain ⟨hdigit, hpoint⟩ := ends_exponent h hrest
  have hfraction := run_skipFraction fraction hdigit hpoint
  have hexponent := run_skipExponent h hrest
  have hafter : (textBytes (fractionText fraction) ++ (textBytes t ++ rest)).head?.any isDigit =
      false := by
    rcases fraction_cases fraction with hbytes | ⟨d, later, hbytes, -⟩
    · rw [hbytes]
      exact hdigit
    · rw [hbytes]
      rfl
  by_cases hd : digitValue d = 0
  · rw [hzero hd, List.nil_append]
    simp [skipAfterDigit, hd, run_bind, run_peekDigit?_of_ends hafter, hfraction, hexponent]
  · simp [skipAfterDigit, hd, run_bind, run_skipDigits hdigits hafter, hfraction, hexponent]

/-! ## Beside other tokens -/

/-- A digit is no blank. -/
theorem isBlank_of_isDigit {b : UInt8} (h : isDigit b = true) : isBlank b = false := by
  have hne : ∀ c : UInt8, isDigit c = false → (b == c) = false := by
    intro c hc
    rw [beq_eq_false_iff_ne]
    rintro rfl
    simp [h] at hc
  simp only [isBlank, hne _ (by decide : isDigit ' '.toUInt8 = false),
    hne _ (by decide : isDigit '\t'.toUInt8 = false),
    hne _ (by decide : isDigit '\n'.toUInt8 = false),
    hne _ (by decide : isDigit '\r'.toUInt8 = false), Bool.or_self]

/-- A value that starts with a digit is a number. -/
theorem ofByte?_of_isDigit {b : UInt8} (h : isDigit b = true) :
    Opening.ofByte? (some b) = .digit := by
  have hne : ∀ c : UInt8, isDigit c = false → b ≠ c := by
    rintro c hc rfl
    simp [h] at hc
  rw [Opening.ofByte?, if_neg (hne _ (by decide)), if_neg (hne _ (by decide)),
    if_neg (hne _ (by decide)), if_neg (hne _ (by decide)), if_pos h]

/-- A number is over at the end of the text. -/
theorem ends_nil : Ends [] :=
  ⟨rfl, rfl, rfl⟩

/-- A number is over before a byte that cannot go on with it. -/
theorem ends_cons {b : UInt8} (hdigit : isDigit b = false) (hpoint : b ≠ '.'.toUInt8)
    (hexponent : isExponentMark b = false) (rest : Bytes) : Ends (b :: rest) :=
  ⟨hdigit, by simpa using hpoint, hexponent⟩

/-- A number is over before blanks, and before what follows them. -/
theorem ends_of_blank {t : String} (h : Blank t) {rest : Bytes} (hrest : Ends rest) :
    Ends (textBytes t ++ rest) := by
  cases hbytes : textBytes t with
  | nil => exact hrest
  | cons b bytes =>
    have hb : isBlank b = true := isBlank_of_blank h (by simp [hbytes])
    obtain ((rfl | rfl) | rfl) | rfl : ((b = ' '.toUInt8 ∨ b = '\t'.toUInt8) ∨ b = '\n'.toUInt8) ∨
        b = '\r'.toUInt8 := by simpa [isBlank] using hb
    all_goals exact ends_cons (by decide) (by decide) (by decide) _

theorem ends_comma (rest : Bytes) : Ends (','.toUInt8 :: rest) :=
  ends_cons (by decide) (by decide) (by decide) rest

end Reader

end SelectionModels.Json
