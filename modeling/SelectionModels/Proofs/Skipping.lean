import SelectionModels.Proofs.Tokens

/-! # Values that are passed over

A value that nobody asks for is skipped to its end, however it is written and however deeply it
nests. The walk has the brackets that are open in a list, so what is proved is that it comes from
before a value to behind it with the same list.

* `Reader.Passes`: the walk goes through a text;
* `Reader.passes_of_spelledAs`: it goes through every text of a value;
* `Reader.run_skipValue`: any value is skipped.
-/

namespace SelectionModels.Json.Reader

/-! ## Ways through a value -/

theorem Bracket.ends_close (bracket : Bracket) (rest : Bytes) : Ends (bracket.close :: rest) := by
  cases bracket <;> exact ends_cons (by decide) (by decide) (by decide) rest

theorem Bracket.isBlank_close (bracket : Bracket) : isBlank bracket.close = false := by
  cases bracket <;> decide

/-- How the walk goes on. -/
def resume : Outcome (Option SkipState) → Outcome Unit
  | .done none rest => .done () rest
  | .done (some state) rest => skipFrom state rest
  | .failed failure rest => .failed failure rest

theorem skipFrom_eq_resume (state : SkipState) (input : Bytes) :
    skipFrom state input = resume ((skipStep state).run input) := by
  rw [skipFrom]
  split <;> simp_all [resume]

/-- Inside a bracket, the first entry comes without a comma. -/
def phaseOf (first : Bool) : SkipPhase :=
  if first then .inside else .behind

/-- The walk leaves a bracket. -/
theorem skipFrom_close (first : Bool) (bracket : Bracket) (outer : List Bracket) {t : String}
    (h : Blank t) (rest : Bytes) :
    skipFrom (phaseOf first, bracket :: outer) (textBytes t ++ bracket.close :: rest) =
      resume (.done (behindValue outer) rest) := by
  rw [skipFrom_eq_resume]
  cases first with
  | true =>
    have htake := run_takeIf_of_eq h bracket.isBlank_close rest
    simp [phaseOf, skipStep, run_bind_of_done htake]
  | false =>
    have htake := run_takeToken h bracket.isBlank_close rest
    have hcomma : bracket.close ≠ ','.toUInt8 := by cases bracket <;> decide
    simp [phaseOf, skipStep, run_bind_of_done htake, hcomma]

/-- The walk comes to the next entry. -/
theorem skipFrom_lead {first : Bool} {lead : String} (h : Lead first lead) (bracket : Bracket)
    (outer : List Bracket) {b : UInt8} (hb : isBlank b = false) (hclose : b ≠ bracket.close)
    (rest : Bytes) :
    ∃ blanks, Blank blanks ∧
      skipFrom (phaseOf first, bracket :: outer) (textBytes lead ++ b :: rest) =
        resume ((skipEntry (bracket :: outer)).run (textBytes blanks ++ b :: rest)) := by
  rw [skipFrom_eq_resume]
  cases h with
  | first hblank =>
    refine ⟨"", blank_empty, ?_⟩
    have htake := run_takeIf_of_ne hblank hb hclose rest
    have hpeek := run_peekToken blank_empty hb rest
    rw [textBytes_empty, List.nil_append] at hpeek ⊢
    simp [phaseOf, skipStep, run_bind_of_done htake, run_bind_of_done hpeek]
  | @later s t hbefore hafter =>
    refine ⟨t, hafter, ?_⟩
    have htake := run_takeToken (b := ','.toUInt8) hbefore (by decide) (textBytes t ++ b :: rest)
    have hcomma : resume ((skipStep (phaseOf false, bracket :: outer)).run
        (textBytes s ++ ','.toUInt8 :: (textBytes t ++ b :: rest))) =
          skipFrom (.entry, bracket :: outer) (textBytes t ++ b :: rest) := by
      simp [phaseOf, skipStep, run_bind_of_done htake, resume]
    rw [textBytes_append, textBytes_append, textBytes_comma, List.append_assoc, List.append_assoc,
      List.singleton_append, hcomma, skipFrom_eq_resume]
    rfl

/-- An item, or a member after its key. -/
def skipItem (enclosing : List Bracket) : Reader (Option SkipState) := do
  match ← skipStart with
  | some bracket => return some (.inside, bracket :: enclosing)
  | none => return behindValue enclosing

theorem run_skipKey (key : String) {lead before : String} (hlead : Blank lead)
    (hbefore : Blank before) (rest : Bytes) :
    skipKey.run (textBytes lead ++ '"'.toUInt8 :: (quotedRest key ++
      (textBytes before ++ ':'.toUInt8 :: rest))) = .done () rest := by
  have hquote := run_takeToken (b := '"'.toUInt8) hlead (by decide)
    (quotedRest key ++ (textBytes before ++ ':'.toUInt8 :: rest))
  have hcolon := run_takeToken (b := ':'.toUInt8) hbefore (by decide) rest
  simp [skipKey, run_bind_of_done hquote, run_bind_of_done (run_skipString key _), colon,
    run_bind_of_done hcolon]

/-! ### Values -/

/-- The walk goes from before a value to behind it. -/
def Passes (t : String) : Prop :=
  ∀ ⦃lead : String⦄ ⦃rest : Bytes⦄ (enclosing : List Bracket), Blank lead → Ends rest →
    resume ((skipItem enclosing).run (textBytes lead ++ (textBytes t ++ rest))) =
      resume (.done (behindValue enclosing) rest)

theorem passes_of_skipStart {t : String}
    (h : ∀ ⦃lead : String⦄ ⦃rest : Bytes⦄, Blank lead → Ends rest →
      skipStart.run (textBytes lead ++ (textBytes t ++ rest)) = .done none rest) : Passes t := by
  intro lead rest enclosing hlead hrest
  rw [skipItem, run_bind_of_done (h hlead hrest)]
  rfl

theorem passes_number {n : Numeral} {t : String} (h : n.SpelledAs t) : Passes t := by
  refine passes_of_skipStart fun lead rest hlead hrest => ?_
  obtain @⟨exponent, hexponent⟩ := h
  obtain ⟨d, digits, hbytes, hdigits, hzero⟩ := whole_cases n.whole
  obtain ⟨hd, hdigits⟩ := List.forall_mem_cons.mp hdigits
  have hskip := run_skipAfterDigit hdigits hzero n.fraction hexponent hrest
  simp only [textBytes_append, hbytes, List.append_assoc, List.cons_append]
  generalize digits ++ (textBytes (fractionText n.fraction) ++ (textBytes exponent ++ rest)) =
    behind at hskip ⊢
  cases n.negative with
  | true =>
    have hunsigned : skipUnsigned.run (d :: behind) = .done () rest := by
      simp [skipUnsigned, run_bind, next, hd, hskip]
    rw [if_pos rfl, textBytes_minus, List.singleton_append, skipStart,
      run_bind_of_done (run_takeToken hlead (by decide) _)]
    exact run_bind_of_done hunsigned
  | false =>
    rw [if_neg (by decide), textBytes_empty, List.nil_append, skipStart,
      run_bind_of_done (run_takeToken hlead (isBlank_of_isDigit hd) _)]
    simp only [ofByte?_of_isDigit hd]
    exact run_bind_of_done hskip

/-- What the first byte of a value announces. -/
def opening : Value → Opening
  | .null => .null
  | .bool b => if b then .true else .false
  | .number n => if n.negative then .minus else .digit
  | .string _ => .quote
  | .array _ => .bracket
  | .object _ => .brace

theorem opening_ne_other (v : Value) : opening v ≠ .other := by
  unfold opening
  split <;> (try split) <;> simp

/-- The text of a value starts with what announces it, and not with a blank. -/
theorem exists_cons_of_spelledAs {v : Value} {t : String} (h : v.SpelledAs t) : ∃ b bytes,
    textBytes t = b :: bytes ∧ isBlank b = false ∧ Opening.ofByte? (some b) = opening v := by
  cases h with
  | null => exact ⟨_, _, textBytes_null, by decide, by decide⟩
  | bool b =>
    cases b with
    | true => exact ⟨_, _, textBytes_true, by decide, by decide⟩
    | false => exact ⟨_, _, textBytes_false, by decide, by decide⟩
  | @number n t h =>
    obtain @⟨exponent, -⟩ := h
    obtain ⟨d, digits, hbytes, hdigits, -⟩ := whole_cases n.whole
    have hd := hdigits d (List.mem_cons_self ..)
    simp only [textBytes_append, hbytes, opening]
    cases n.negative with
    | true =>
      rw [if_pos rfl, if_pos rfl, textBytes_minus]
      exact ⟨_, _, rfl, by decide, by decide⟩
    | false =>
      rw [if_neg (by decide), if_neg (by decide), textBytes_empty]
      exact ⟨_, _, rfl, isBlank_of_isDigit hd, ofByte?_of_isDigit hd⟩
  | string s => exact ⟨_, _, textBytes_stringText s, by decide, rfl⟩
  | array => exact ⟨_, _, textBytes_brackets _, by decide, rfl⟩
  | object => exact ⟨_, _, textBytes_braces _, by decide, rfl⟩

theorem ne_close_of_opening {v : Value} {b : UInt8} (h : Opening.ofByte? (some b) = opening v)
    (bracket : Bracket) : b ≠ bracket.close := by
  have hother : Opening.ofByte? (some bracket.close) = .other := by cases bracket <;> decide
  rintro rfl
  exact opening_ne_other v (h.symm.trans hother)

/-! ### Items and members -/

theorem ends_lead {lead : String} (h : Lead false lead) (rest : Bytes) :
    Ends (textBytes lead ++ rest) := by
  obtain _ | ⟨hbefore, hafter⟩ := h
  rw [textBytes_append, textBytes_append, textBytes_comma, List.append_assoc, List.append_assoc]
  exact ends_of_blank hbefore (ends_comma _)

theorem ends_items {items : List Value} {t : String} (h : Value.ItemsSpelledAs false items t)
    (rest : Bytes) : Ends (textBytes t ++ ']'.toUInt8 :: rest) := by
  cases h with
  | nil hblank => exact ends_of_blank hblank (Bracket.list.ends_close rest)
  | cons hlead _ _ =>
    rw [textBytes_append, textBytes_append, List.append_assoc, List.append_assoc]
    exact ends_lead hlead _

theorem ends_members {members : List (String × Value)} {t : String}
    (h : Value.MembersSpelledAs false members t) (rest : Bytes) :
    Ends (textBytes t ++ '\x7d'.toUInt8 :: rest) := by
  cases h with
  | nil hblank => exact ends_of_blank hblank (Bracket.object.ends_close rest)
  | cons key hlead _ _ _ _ =>
    simp only [textBytes_append, List.append_assoc]
    exact ends_lead hlead _

/-- The walk goes from before an item to behind it. -/
theorem skipFrom_item {first : Bool} {lead t : String} {v : Value} (hlead : Lead first lead)
    (hvalue : v.SpelledAs t) (hpasses : Passes t) (outer : List Bracket) {rest : Bytes}
    (hrest : Ends rest) :
    skipFrom (phaseOf first, .list :: outer) (textBytes lead ++ (textBytes t ++ rest)) =
      skipFrom (.behind, .list :: outer) rest := by
  obtain ⟨b, bytes, hbytes, hblank, hopening⟩ := exists_cons_of_spelledAs hvalue
  obtain ⟨blanks, hblanks, hentry⟩ :=
    skipFrom_lead hlead .list outer hblank (ne_close_of_opening hopening .list) (bytes ++ rest)
  rw [hbytes, List.cons_append, hentry, ← List.cons_append, ← hbytes]
  exact hpasses (.list :: outer) hblanks hrest

/-- The walk goes from before a member to behind it. -/
theorem skipFrom_member {first : Bool} {lead before after t : String} (key : String)
    (hlead : Lead first lead) (hbefore : Blank before) (hafter : Blank after)
    (hpasses : Passes t) (outer : List Bracket) {rest : Bytes} (hrest : Ends rest) :
    skipFrom (phaseOf first, .object :: outer) (textBytes lead ++ '"'.toUInt8 :: (quotedRest key ++
      (textBytes before ++ ':'.toUInt8 :: (textBytes after ++ (textBytes t ++ rest))))) =
      skipFrom (.behind, .object :: outer) rest := by
  obtain ⟨blanks, hblanks, hentry⟩ := skipFrom_lead hlead .object outer
    (b := '"'.toUInt8) (by decide) (by decide) (quotedRest key ++
      (textBytes before ++ ':'.toUInt8 :: (textBytes after ++ (textBytes t ++ rest))))
  have hkey := run_skipKey key hblanks hbefore (textBytes after ++ (textBytes t ++ rest))
  rw [hentry]
  refine (congrArg resume (run_bind_of_done hkey)).trans ?_
  exact hpasses (.object :: outer) hafter hrest

mutual

/-- The walk goes through any value. -/
theorem passes_of_spelledAs : {v : Value} → {t : String} → v.SpelledAs t → Passes t
  | _, _, .null => by
    refine passes_of_skipStart fun lead rest hlead _ => ?_
    rw [textBytes_null, skipStart, List.cons_append,
      run_bind_of_done (run_takeToken hlead (by decide) _)]
    rfl
  | _, _, .bool true => by
    refine passes_of_skipStart fun lead rest hlead _ => ?_
    rw [if_pos rfl, textBytes_true, skipStart, List.cons_append,
      run_bind_of_done (run_takeToken hlead (by decide) _)]
    rfl
  | _, _, .bool false => by
    refine passes_of_skipStart fun lead rest hlead _ => ?_
    rw [if_neg (by decide), textBytes_false, skipStart, List.cons_append,
      run_bind_of_done (run_takeToken hlead (by decide) _)]
    rfl
  | _, _, .number h => passes_number h
  | _, _, .string s => by
    refine passes_of_skipStart fun lead rest hlead _ => ?_
    rw [textBytes_stringText, skipStart, List.cons_append,
      run_bind_of_done (run_takeToken hlead (by decide) _)]
    exact run_bind_of_done (run_skipString s rest)
  | _, _, .array h => by
    intro lead rest enclosing hlead _
    have hitems := skipFrom_items h enclosing rest
    rw [textBytes_brackets, List.cons_append, List.append_assoc, skipItem, skipStart, bind_assoc,
      run_bind_of_done (run_takeToken hlead (by decide) _)]
    exact hitems
  | _, _, .object h => by
    intro lead rest enclosing hlead _
    have hmembers := skipFrom_members h enclosing rest
    rw [textBytes_braces, List.cons_append, List.append_assoc, skipItem, skipStart, bind_assoc,
      run_bind_of_done (run_takeToken hlead (by decide) _)]
    exact hmembers
termination_by structural _ _ h => h

theorem skipFrom_items : {first : Bool} → {items : List Value} → {t : String} →
    Value.ItemsSpelledAs first items t → (outer : List Bracket) → (rest : Bytes) →
      skipFrom (phaseOf first, .list :: outer) (textBytes t ++ ']'.toUInt8 :: rest) =
        resume (.done (behindValue outer) rest)
  | first, _, _, .nil h, outer, rest => skipFrom_close first .list outer h rest
  | _, _, _, .cons hlead hvalue hlater, outer, rest => by
    have hitem := skipFrom_item hlead hvalue (passes_of_spelledAs hvalue) outer
      (ends_items hlater rest)
    rw [textBytes_append, textBytes_append, List.append_assoc, List.append_assoc, hitem]
    exact skipFrom_items hlater outer rest
termination_by structural _ _ _ h => h

theorem skipFrom_members : {first : Bool} → {members : List (String × Value)} → {t : String} →
    Value.MembersSpelledAs first members t → (outer : List Bracket) → (rest : Bytes) →
      skipFrom (phaseOf first, .object :: outer) (textBytes t ++ '\x7d'.toUInt8 :: rest) =
        resume (.done (behindValue outer) rest)
  | first, _, _, .nil h, outer, rest => skipFrom_close first .object outer h rest
  | _, _, _, .cons key hlead hbefore hafter hvalue hlater, outer, rest => by
    have hmember := skipFrom_member key hlead hbefore hafter (passes_of_spelledAs hvalue) outer
      (ends_members hlater rest)
    rw [textBytes_member, hmember]
    exact skipFrom_members hlater outer rest
termination_by structural _ _ _ h => h

end

/-- A value is skipped, whatever it is and however it is written. -/
theorem run_skipValue {v : Value} {t : String} (h : v.SpelledAs t) {lead : String}
    (hlead : Blank lead) {rest : Bytes} (hrest : Ends rest) :
    skipValue.run (textBytes lead ++ (textBytes t ++ rest)) = .done () rest := by
  have hstart : skipValue.run (textBytes lead ++ (textBytes t ++ rest)) =
      skipFrom (.entry, []) (textBytes lead ++ (textBytes t ++ rest)) := rfl
  rw [hstart, skipFrom_eq_resume]
  exact passes_of_spelledAs h [] hlead hrest

end SelectionModels.Json.Reader
