import SelectionModels.Proofs.TokenTexts

/-! # Texts that denote a value

What a text means is told by its tokens: the tokens of a value follow from the value, and no two
values have the same ones.

* `Value.tokens`: the tokens of a value;
* `Denotes`: a text is well-formed and denotes a value;
* `Denotes.unique`: a text denotes one value;
* `denotes_render`: a value is denoted by what is rendered for it, in either layout.
-/

namespace SelectionModels.Json

/-! ## The tokens of a value -/

/-- Before every item or member but the first there is a comma. -/
def leadTokens (first : Bool) : List Token :=
  if first then [] else [.symbol .comma]

namespace Value

mutual

/-- The tokens of a value. -/
def tokens : Value → List Token
  | .null => [.symbol .null]
  | .bool true => [.symbol .true]
  | .bool false => [.symbol .false]
  | .number n => [.number n]
  | .string s => [.string s]
  | .array items => .symbol .beginArray :: itemTokens true items
  | .object members => .symbol .beginObject :: memberTokens true members
termination_by structural v => v

/-- The tokens of items, up to the closing bracket. -/
def itemTokens (first : Bool) : List Value → List Token
  | [] => [.symbol .endArray]
  | v :: items => leadTokens first ++ (tokens v ++ itemTokens false items)
termination_by structural items => items

/-- The tokens of members, up to the closing bracket. -/
def memberTokens (first : Bool) : List (String × Value) → List Token
  | [] => [.symbol .endObject]
  | (key, v) :: members =>
    leadTokens first ++
      .string key :: .symbol .colon :: (tokens v ++ memberTokens false members)
termination_by structural members => members

end

/-- No closing bracket starts a value. -/
theorem exists_tokens_cons (v : Value) :
    ∃ token later, v.tokens = token :: later ∧ token ≠ .symbol .endArray := by
  cases v with
  | bool b => cases b <;> exact ⟨_, _, rfl, by simp⟩
  | _ => exact ⟨_, _, rfl, by simp⟩

/-- Where a list ends no item follows. -/
theorem itemTokens_nil_ne (first : Bool) (v : Value) (items : List Value)
    (rest rest' : List Token) :
    itemTokens first [] ++ rest ≠ itemTokens first (v :: items) ++ rest' := by
  rcases v.exists_tokens_cons with ⟨token, later, htokens, hend⟩
  cases first with
  | true =>
    intro h
    simp only [itemTokens, leadTokens, htokens] at h
    exact hend (List.cons.inj h).1.symm
  | false => simp [itemTokens, leadTokens]

mutual

/-- Values are told by their tokens, whatever follows these. -/
theorem eq_of_tokens_append : (v v' : Value) → {rest rest' : List Token} →
    v.tokens ++ rest = v'.tokens ++ rest' → v = v' ∧ rest = rest'
  | .null, v', _, _, h => by
    -- here and below the first token tells the kinds of values apart
    cases v' with
    | null => exact ⟨rfl, (List.cons.inj h).2⟩
    | bool b => cases b <;> simp [tokens] at h
    | _ => simp [tokens] at h
  | .bool true, v', _, _, h => by
    cases v' with
    | bool b =>
      cases b with
      | true => exact ⟨rfl, (List.cons.inj h).2⟩
      | false => simp [tokens] at h
    | _ => simp [tokens] at h
  | .bool false, v', _, _, h => by
    cases v' with
    | bool b =>
      cases b with
      | true => simp [tokens] at h
      | false => exact ⟨rfl, (List.cons.inj h).2⟩
    | _ => simp [tokens] at h
  | .number n, v', _, _, h => by
    cases v' with
    | number n' =>
      obtain ⟨hn, hrests⟩ := List.cons.inj h
      exact ⟨congrArg number (Token.number.inj hn), hrests⟩
    | bool b => cases b <;> simp [tokens] at h
    | _ => simp [tokens] at h
  | .string s, v', _, _, h => by
    cases v' with
    | string s' =>
      obtain ⟨hs, hrests⟩ := List.cons.inj h
      exact ⟨congrArg string (Token.string.inj hs), hrests⟩
    | bool b => cases b <;> simp [tokens] at h
    | _ => simp [tokens] at h
  | .array items, v', _, _, h => by
    cases v' with
    | array items' =>
      obtain ⟨hitems, hrests⟩ := eq_of_itemTokens_append true items items' (List.cons.inj h).2
      exact ⟨congrArg array hitems, hrests⟩
    | bool b => cases b <;> simp [tokens] at h
    | _ => simp [tokens] at h
  | .object members, v', _, _, h => by
    cases v' with
    | object members' =>
      obtain ⟨hmembers, hrests⟩ :=
        eq_of_memberTokens_append true members members' (List.cons.inj h).2
      exact ⟨congrArg object hmembers, hrests⟩
    | bool b => cases b <;> simp [tokens] at h
    | _ => simp [tokens] at h
termination_by structural v => v

theorem eq_of_itemTokens_append (first : Bool) : (items items' : List Value) →
    {rest rest' : List Token} →
    itemTokens first items ++ rest = itemTokens first items' ++ rest' →
      items = items' ∧ rest = rest'
  | [], [], _, _, h => ⟨rfl, List.append_cancel_left h⟩
  | [], v' :: items', rest, rest', h => absurd h (itemTokens_nil_ne first v' items' rest rest')
  | v :: items, [], rest, rest', h => absurd h.symm (itemTokens_nil_ne first v items rest' rest)
  | v :: items, v' :: items', _, _, h => by
    simp only [itemTokens, List.append_assoc] at h
    obtain ⟨hv, hitems⟩ := eq_of_tokens_append v v' (List.append_cancel_left h)
    obtain ⟨hitems, hrests⟩ := eq_of_itemTokens_append false items items' hitems
    exact ⟨by rw [hv, hitems], hrests⟩
termination_by structural items => items

theorem eq_of_memberTokens_append (first : Bool) : (members members' : List (String × Value)) →
    {rest rest' : List Token} →
    memberTokens first members ++ rest = memberTokens first members' ++ rest' →
      members = members' ∧ rest = rest'
  | [], [], _, _, h => ⟨rfl, List.append_cancel_left h⟩
  | [], (key', v') :: members', _, _, h => by
    cases first <;> simp [memberTokens, leadTokens] at h
  | (key, v) :: members, [], _, _, h => by
    cases first <;> simp [memberTokens, leadTokens] at h
  | (key, v) :: members, (key', v') :: members', _, _, h => by
    simp only [memberTokens, List.append_assoc, List.cons_append] at h
    obtain ⟨hkey, h⟩ := List.cons.inj (List.append_cancel_left h)
    obtain ⟨hv, hmembers⟩ := eq_of_tokens_append v v' (List.cons.inj h).2
    obtain ⟨hmembers, hrests⟩ := eq_of_memberTokens_append false members members' hmembers
    exact ⟨by rw [Token.string.inj hkey, hv, hmembers], hrests⟩
termination_by structural members => members

end

end Value

/-- The text is well-formed JSON and denotes the value. -/
def Denotes (text : String) (v : Value) : Prop :=
  TokensSpelledAs v.tokens text.toList

/-- A text denotes one value. -/
theorem Denotes.unique {text : String} {v v' : Value} (h : Denotes text v)
    (h' : Denotes text v') : v = v' := by
  have htokens : v.tokens ++ [] = v'.tokens ++ [] := by
    rw [List.append_nil, List.append_nil]
    exact TokensSpelledAs.unique h h' rfl
  exact (Value.eq_of_tokens_append v v' htokens).1

/-! ## Rendering -/

theorem isBlankChar_of_blank {t : String} (h : Blank t) :
    ∀ c ∈ t.toList, isBlankChar c = true := by
  intro c hc
  rcases h c hc with rfl | rfl | rfl | rfl <;> rfl

theorem endsNumber_nil : EndsNumber [] := by
  intro c hc
  cases hc

theorem endsNumber_cons {c : Char} (h : c.isDigit = false ∧ c ≠ '.' ∧ c ≠ 'e' ∧ c ≠ 'E')
    (rest : List Char) : EndsNumber (c :: rest) := by
  intro c' hc'
  obtain rfl : c = c' := Option.some.inj hc'
  exact h

/-- A number goes no further than to the next blank. -/
theorem endsNumber_of_blank {t : String} (h : Blank t) {rest : List Char}
    (hrest : EndsNumber rest) : EndsNumber (t.toList ++ rest) := by
  cases htext : t.toList with
  | nil => exact hrest
  | cons c cs =>
    have hc : c ∈ t.toList := by simp [htext]
    apply endsNumber_cons
    rcases h c hc with rfl | rfl | rfl | rfl <;> decide

theorem endsNumber_lead {lead : String} (h : Lead false lead) (rest : List Char) :
    EndsNumber (lead.toList ++ rest) := by
  cases h with
  | later hbefore _ =>
    rw [String.toList_append, String.toList_append, List.append_assoc, List.append_assoc]
    exact endsNumber_of_blank hbefore (endsNumber_cons (by decide) _)

theorem endsNumber_items {items : List Value} {t : String}
    (h : Value.ItemsSpelledAs false items t) (rest : List Char) :
    EndsNumber (t.toList ++ ']' :: rest) := by
  cases h with
  | nil hblank => exact endsNumber_of_blank hblank (endsNumber_cons (by decide) _)
  | cons hlead =>
    rw [String.toList_append, String.toList_append, List.append_assoc, List.append_assoc]
    exact endsNumber_lead hlead _

theorem endsNumber_members {members : List (String × Value)} {t : String}
    (h : Value.MembersSpelledAs false members t) (rest : List Char) :
    EndsNumber (t.toList ++ '\x7d' :: rest) := by
  cases h with
  | nil hblank => exact endsNumber_of_blank hblank (endsNumber_cons (by decide) _)
  | cons key hlead =>
    simp only [String.toList_append, List.append_assoc]
    exact endsNumber_lead hlead _

/-- A symbol ends wherever it ends. -/
theorem TokensSpelledAs.cons_symbol {s : Symbol} {tokens : List Token} {lead : String}
    {later : List Char} (hlead : Blank lead) (hlater : TokensSpelledAs tokens later) :
    TokensSpelledAs (.symbol s :: tokens) (lead.toList ++ (s.text.toList ++ later)) :=
  .cons (isBlankChar_of_blank hlead) (.symbol s) trivial hlater

theorem TokensSpelledAs.cons_string {tokens : List Token} {lead : String}
    {later : List Char} (s : String) (hlead : Blank lead)
    (hlater : TokensSpelledAs tokens later) :
    TokensSpelledAs (.string s :: tokens)
      (lead.toList ++ ((stringText s).toList ++ later)) := by
  have hs : (Token.string s).SpelledAs (stringText s).toList := by
    rw [stringText, String.toList_append, String.toList_append]
    exact .string (charsSpelledAs_map_escapeChar s.toList)
  exact .cons (isBlankChar_of_blank hlead) hs trivial hlater

/-- What stands before an item or a member are blanks and perhaps a comma. -/
theorem exists_leadTokens {first : Bool} {lead : String} (h : Lead first lead) :
    ∃ blanks, Blank blanks ∧ ∀ {tokens : List Token} {rest : List Char},
      TokensSpelledAs tokens (blanks.toList ++ rest) →
        TokensSpelledAs (leadTokens first ++ tokens) (lead.toList ++ rest) := by
  cases h with
  | first hblank => exact ⟨lead, hblank, fun hrest => hrest⟩
  | later hbefore hafter =>
    refine ⟨_, hafter, fun hrest => ?_⟩
    rw [String.toList_append, String.toList_append, List.append_assoc, List.append_assoc]
    exact .cons_symbol (s := .comma) hbefore hrest

namespace Value

mutual

/-- The tokens of a value are in all of its texts. The induction is on how the value is written, and
what stands behind it is part of the statement, since a number must not go on there. -/
theorem tokensSpelledAs_of_spelledAs : {v : Value} → {t : String} → v.SpelledAs t →
    {lead : String} → Blank lead → {tokens : List Token} → {later : List Char} →
    EndsNumber later → TokensSpelledAs tokens later →
      TokensSpelledAs (v.tokens ++ tokens) (lead.toList ++ (t.toList ++ later))
  | _, _, .null, _, hlead, _, _, _, hlater => .cons_symbol (s := .null) hlead hlater
  | _, _, .bool true, _, hlead, _, _, _, hlater => .cons_symbol (s := .true) hlead hlater
  | _, _, .bool false, _, hlead, _, _, _, hlater => .cons_symbol (s := .false) hlead hlater
  | _, _, .number h, _, hlead, _, _, hends, hlater =>
    .cons (isBlankChar_of_blank hlead) (.number h) hends hlater
  | _, _, .string s, _, hlead, _, _, _, hlater => .cons_string s hlead hlater
  | _, _, .array h, _, hlead, _, _, _, hlater => by
    simp only [String.toList_append, List.append_assoc]
    exact .cons_symbol (s := .beginArray) hlead (tokensSpelledAs_of_items h hlater)
  | _, _, .object h, _, hlead, _, _, _, hlater => by
    simp only [String.toList_append, List.append_assoc]
    exact .cons_symbol (s := .beginObject) hlead (tokensSpelledAs_of_members h hlater)
termination_by structural _ _ h => h

theorem tokensSpelledAs_of_items : {first : Bool} → {items : List Value} → {t : String} →
    ItemsSpelledAs first items t → {tokens : List Token} → {later : List Char} →
    TokensSpelledAs tokens later →
      TokensSpelledAs (itemTokens first items ++ tokens) (t.toList ++ (']' :: later))
  | _, _, _, .nil hblank, _, _, hlater => .cons_symbol (s := .endArray) hblank hlater
  | _, _, _, .cons hlead hvalue hitems, _, later, hlater => by
    simp only [String.toList_append, itemTokens, List.append_assoc]
    obtain ⟨blanks, hblanks, hleads⟩ := exists_leadTokens hlead
    exact hleads (tokensSpelledAs_of_spelledAs hvalue hblanks (endsNumber_items hitems later)
      (tokensSpelledAs_of_items hitems hlater))
termination_by structural _ _ _ h => h

theorem tokensSpelledAs_of_members : {first : Bool} → {members : List (String × Value)} →
    {t : String} → MembersSpelledAs first members t → {tokens : List Token} →
    {later : List Char} → TokensSpelledAs tokens later →
      TokensSpelledAs (memberTokens first members ++ tokens) (t.toList ++ ('\x7d' :: later))
  | _, _, _, .nil hblank, _, _, hlater => .cons_symbol (s := .endObject) hblank hlater
  | _, _, _, .cons key hlead hbefore hafter hvalue hmembers, _, later, hlater => by
    simp only [String.toList_append, memberTokens, List.append_assoc, List.cons_append]
    obtain ⟨blanks, hblanks, hleads⟩ := exists_leadTokens hlead
    exact hleads (.cons_string key hblanks (.cons_symbol (s := .colon) hbefore
      (tokensSpelledAs_of_spelledAs hvalue hafter (endsNumber_members hmembers later)
        (tokensSpelledAs_of_members hmembers hlater))))
termination_by structural _ _ _ h => h

end

end Value

/-- What is rendered for a value denotes it, in either layout. -/
theorem denotes_render (layout : Layout) (v : Value) : Denotes (v.render layout) v := by
  have hnothing : TokensSpelledAs [] [] := .nil (by simp)
  have htokens := Value.tokensSpelledAs_of_spelledAs (v.spelledAs_render layout) blank_empty
    endsNumber_nil hnothing
  simpa [Denotes] using htokens

end SelectionModels.Json
