import SelectionModels.Proofs.NumberTexts
import SelectionModels.Proofs.StringTexts

/-! # Texts as sequences of tokens

A JSON text is a sequence of tokens with blanks between them. A token is a symbol, a number or a
string, and each starts with a character that tells which.

* `Token.SpelledAs`: the texts of a token;
* `TokensSpelledAs`: the texts of a sequence of tokens;
* `TokensSpelledAs.unique`: a text is cut into tokens in one way only.
-/

namespace SelectionModels.Json

/-! ## Tokens -/

/-- The tokens that are always written alike. -/
inductive Symbol where
  | beginArray
  | endArray
  | beginObject
  | endObject
  | colon
  | comma
  | null
  | true
  | false
deriving DecidableEq

def Symbol.text : Symbol → String
  | .beginArray => "["
  | .endArray => "]"
  | .beginObject => "\x7b"
  | .endObject => "\x7d"
  | .colon => ":"
  | .comma => ","
  | .null => "null"
  | .true => "true"
  | .false => "false"

inductive Token where
  | symbol (s : Symbol)
  | number (n : Numeral)
  | string (s : String)

/-- The texts of a token. -/
inductive Token.SpelledAs : Token → List Char → Prop where
  | symbol (s : Symbol) : SpelledAs (.symbol s) s.text.toList
  | number {n : Numeral} {t : String} (h : n.SpelledAs t) : SpelledAs (.number n) t.toList
  | string {s : String} {t : List Char} (h : CharsSpelledAs s.toList t) :
    SpelledAs (.string s) ('"' :: (t ++ ['"']))

/-- The token ends before this text: a number is read as far as it goes. -/
def Token.EndsBefore (rest : List Char) : Token → Prop
  | .number _ => EndsNumber rest
  | _ => True

/-- The characters that may stand between tokens. -/
def isBlankChar (c : Char) : Bool :=
  c == ' ' || c == '\t' || c == '\n' || c == '\r'

/-- The texts of a sequence of tokens, with blanks before each of them and behind the last. -/
inductive TokensSpelledAs : List Token → List Char → Prop where
  | nil {blanks : List Char} (hblank : ∀ c ∈ blanks, isBlankChar c = true) :
    TokensSpelledAs [] blanks
  | cons {token : Token} {tokens : List Token} {lead t later : List Char}
    (hlead : ∀ c ∈ lead, isBlankChar c = true) (htoken : token.SpelledAs t)
    (hends : token.EndsBefore later) (hlater : TokensSpelledAs tokens later) :
    TokensSpelledAs (token :: tokens) (lead ++ (t ++ later))

namespace Token

/-- A token of this sort may start with the character. -/
def StartsWith (c : Char) : Token → Prop
  | .symbol s => s.text.toList.head? = some c
  | .number _ => c = '-' ∨ c.isDigit = true
  | .string _ => c = '"'

theorem SpelledAs.exists_cons {token : Token} {t : List Char} (h : token.SpelledAs t) :
    ∃ c t', t = c :: t' ∧ token.StartsWith c := by
  cases h with
  | symbol s => cases s <;> exact ⟨_, _, rfl, rfl⟩
  | string => exact ⟨_, _, rfl, rfl⟩
  | @number n t h =>
    rcases n with ⟨negative, whole, fraction, exponent⟩
    rcases h with ⟨hexponent⟩
    rcases List.exists_cons_of_ne_nil (@Nat.toDigits_ne_nil whole 10) with ⟨d, digits, hdigits⟩
    have hd : d.isDigit = true := isDigit_of_mem_toDigits (n := whole) (by simp [hdigits])
    have hsign : (if negative then "-" else "").toList = if negative then ['-'] else [] := by
      cases negative <;> rfl
    simp only [String.toList_append, toList_natText, hdigits, hsign]
    cases negative with
    | false => exact ⟨d, _, rfl, .inr hd⟩
    | true => exact ⟨'-', _, rfl, .inl rfl⟩

theorem Symbol.eq_of_head? {s s' : Symbol} {c : Char} (h : s.text.toList.head? = some c)
    (h' : s'.text.toList.head? = some c) : s = s' := by
  have heq := h.trans h'.symm
  clear h h'
  cases s <;> cases s' <;> simp [Symbol.text] at heq ⊢

theorem Symbol.not_startsWith {s : Symbol} {c : Char} (h : s.text.toList.head? = some c) :
    c ≠ '"' ∧ c ≠ '-' ∧ c.isDigit = false ∧ isBlankChar c = false := by
  cases s <;> (obtain rfl := Option.some.inj h; decide)

theorem StartsWith.not_isBlankChar {token : Token} {c : Char} (h : token.StartsWith c) :
    isBlankChar c = false := by
  cases token with
  | symbol s => exact (Symbol.not_startsWith h).2.2.2
  | string s =>
    obtain rfl : c = '"' := h
    rfl
  | number n =>
    rcases h with rfl | hdigit
    · rfl
    · -- no blank is a digit
      have hne : ∀ b : Char, b.isDigit = false → (c == b) = false := by
        intro b hb
        rw [beq_eq_false_iff_ne]
        rintro rfl
        cases hdigit.symm.trans hb
      simp [isBlankChar, hne]

/-- A token is read in one way only, up to where it ends. -/
theorem SpelledAs.unique {token token' : Token} {t t' : List Char} (h : token.SpelledAs t)
    (h' : token'.SpelledAs t') {rest rest' : List Char} (hends : token.EndsBefore rest)
    (hends' : token'.EndsBefore rest') (heq : t ++ rest = t' ++ rest') :
    token = token' ∧ rest = rest' := by
  rcases h.exists_cons with ⟨c, u, hu, hstart⟩
  rcases h'.exists_cons with ⟨c', u', hu', hstart'⟩
  obtain rfl : c = c' := by
    rw [hu, hu'] at heq
    exact (List.cons.inj heq).1
  clear hu hu'
  -- the first character tells the kinds of tokens apart
  cases h with
  | symbol s =>
    have hs := Symbol.not_startsWith hstart
    cases h' with
    | symbol s' =>
      obtain rfl := Symbol.eq_of_head? hstart hstart'
      exact ⟨rfl, List.append_cancel_left heq⟩
    | number =>
      rcases hstart' with hminus | hdigit
      · exact absurd hminus hs.2.1
      · cases hdigit.symm.trans hs.2.2.1
    | string => exact absurd hstart' hs.1
  | number hn =>
    cases h' with
    | symbol s' =>
      have hs' := Symbol.not_startsWith hstart'
      rcases hstart with hminus | hdigit
      · exact absurd hminus hs'.2.1
      · cases hdigit.symm.trans hs'.2.2.1
    | number hn' =>
      rcases Numeral.eq_of_spelledAs hn hn' hends hends' heq with ⟨rfl, hrests⟩
      exact ⟨rfl, hrests⟩
    | string =>
      obtain rfl : c = '"' := hstart'
      rcases hstart with hminus | hdigit
      · cases hminus
      · cases hdigit
  | string hs =>
    obtain rfl : c = '"' := hstart
    cases h' with
    | symbol s' => exact absurd rfl (Symbol.not_startsWith hstart').1
    | number =>
      rcases hstart' with hminus | hdigit
      · cases hminus
      · cases hdigit
    | string hs' =>
      rw [List.cons_append, List.cons_append, List.append_assoc, List.append_assoc] at heq
      rcases hs.unique hs' (List.cons.inj heq).2 with ⟨hcs, hrests⟩
      exact ⟨congrArg Token.string (String.toList_inj.mp hcs), hrests⟩

end Token

theorem dropWhile_isBlankChar {token : Token} {lead t : List Char}
    (hlead : ∀ c ∈ lead, isBlankChar c = true) (ht : token.SpelledAs t) (rest : List Char) :
    (lead ++ (t ++ rest)).dropWhile isBlankChar = t ++ rest := by
  rcases ht.exists_cons with ⟨c, u, rfl, hstart⟩
  rw [List.dropWhile_append_of_pos hlead, List.cons_append,
    List.dropWhile_cons_of_neg (by simp [hstart.not_isBlankChar])]

theorem dropWhile_of_blank {blanks : List Char} (h : ∀ c ∈ blanks, isBlankChar c = true) :
    blanks.dropWhile isBlankChar = [] := by
  rw [← List.append_nil blanks, List.dropWhile_append_of_pos h]
  rfl

/-- A text is cut into tokens in one way only: blanks are dropped up to the first token, which is
told by what it starts with and ends where it is said to end. -/
theorem TokensSpelledAs.unique {tokens tokens' : List Token} {cs cs' : List Char}
    (h : TokensSpelledAs tokens cs) (h' : TokensSpelledAs tokens' cs') (heq : cs = cs') :
    tokens = tokens' := by
  induction h generalizing tokens' cs' with
  | nil hblank =>
    subst heq
    cases h' with
    | nil => rfl
    | cons hlead' htoken' =>
      have hdrop := dropWhile_of_blank hblank
      rw [dropWhile_isBlankChar hlead' htoken'] at hdrop
      rcases htoken'.exists_cons with ⟨c, u, rfl, -⟩
      cases hdrop
  | @cons token tokens lead t later hlead htoken hends hlater ih =>
    cases h' with
    | nil hblank' =>
      have hdrop := dropWhile_of_blank hblank'
      rw [← heq, dropWhile_isBlankChar hlead htoken] at hdrop
      rcases htoken.exists_cons with ⟨c, u, rfl, -⟩
      cases hdrop
    | cons hlead' htoken' hends' hlater' =>
      have hdrop := congrArg (List.dropWhile isBlankChar) heq
      rw [dropWhile_isBlankChar hlead htoken, dropWhile_isBlankChar hlead' htoken'] at hdrop
      rcases htoken.unique htoken' hends hends' hdrop with ⟨rfl, hrest⟩
      rw [ih hlater' hrest]

end SelectionModels.Json
