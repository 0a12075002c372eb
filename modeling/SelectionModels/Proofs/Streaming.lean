import Mathlib.Data.List.TakeWhile
import SelectionModels.Json.Reader.Tagged

/-! # Readers that look one byte ahead

A number is over where its digits are, and this shows only at the byte behind it. No reader needs
to know more than that: what it takes and what it makes of it stay the same when everything behind
the one byte is exchanged.

* `Reader.StreamsOn`, `Reader.Streams`: the result depends on what is taken and on one byte more;
* `Reader.StreamsOn.chain`: one reading after another, from which sequences (`Reader.Streams.bind`)
  and loops are made;
* `Reader.streams_number`, `Reader.streams_stringBody`: numbers and strings.
-/

namespace SelectionModels.Json.Reader

variable {α β : Type}

/-! ## Texts that are gone through -/

/-- At this text the result depends on what is taken and on the one byte behind it. -/
def StreamsOn (run : Bytes → Outcome α) (input : Bytes) : Prop :=
  ∀ ⦃rest : Bytes⦄ ⦃value : α⦄, run input = .done value rest → ∃ front, input = front ++ rest ∧
    ∀ b ∈ rest.head?, ∀ more, run (front ++ b :: more) = .done value (b :: more)

/-- The result depends on what is taken and on the one byte behind it. -/
def Streams (r : Reader α) : Prop :=
  ∀ input, StreamsOn r.run input

/-- Whatever stands behind a byte, the same byte comes first. -/
theorem exists_cons_of_mem_head? {b : UInt8} {rest : Bytes} (h : b ∈ rest.head?) (front : Bytes)
    (more : Bytes) : ∃ c ∈ (front ++ rest).head?, ∃ tail, front ++ b :: more = c :: tail := by
  cases front with
  | nil => exact ⟨b, h, more, rfl⟩
  | cons c front => exact ⟨c, rfl, front ++ b :: more, rfl⟩

/-- What follows on a reading. -/
def chain (run : Bytes → Outcome α) (later : α → Bytes → Outcome β) (input : Bytes) : Outcome β :=
  match run input with
  | .done value rest => later value rest
  | .failed failure rest => .failed failure rest

/-- One reading after another: the byte behind the first one is there whether or not the second one
takes anything. -/
theorem StreamsOn.chain {run : Bytes → Outcome α} {later : α → Bytes → Outcome β} {input : Bytes}
    (h : StreamsOn run input)
    (hlater : ∀ value mid, run input = .done value mid → StreamsOn (later value) mid) :
    StreamsOn (chain run later) input := by
  intro rest result hrun
  unfold Reader.chain at hrun
  cases hfirst : run input with
  | failed failure mid => simp [hfirst] at hrun
  | done value mid =>
    simp only [hfirst] at hrun
    obtain ⟨taken, rfl, hahead⟩ := h hfirst
    obtain ⟨taken', rfl, hahead'⟩ := hlater value mid hfirst hrun
    refine ⟨taken ++ taken', (List.append_assoc ..).symm, ?_⟩
    intro b hb more
    -- the byte behind the first reading is the first of the second one, or else that behind both
    obtain ⟨c, hc, tail, htail⟩ := exists_cons_of_mem_head? hb taken' more
    unfold Reader.chain
    rw [List.append_assoc, htail, hahead c hc tail, ← htail]
    exact hahead' b hb more

/-- At this text nothing is read. -/
theorem streamsOn_of_fails {run : Bytes → Outcome α} {input : Bytes}
    (h : ∀ value rest, run input ≠ .done value rest) : StreamsOn run input :=
  fun rest value hrun => absurd hrun (h value rest)

/-- A loop that goes on with what its round has left. -/
theorem StreamsOn.chain_of_done {run : Bytes → Outcome α} {later : α → Bytes → Outcome β}
    {input mid : Bytes} {value : α} (h : StreamsOn run input) (hrun : run input = .done value mid)
    (hlater : StreamsOn (later value) mid) : StreamsOn (Reader.chain run later) input := by
  refine h.chain fun value' mid' hrun' => ?_
  obtain ⟨rfl, rfl⟩ : value = value' ∧ mid = mid' := by simpa [hrun] using hrun'
  exact hlater

/-- A loop whose round fails. -/
theorem streamsOn_chain_of_failed {run : Bytes → Outcome α} {later : α → Bytes → Outcome β}
    {input rest : Bytes} {failure : Failure} (hrun : run input = .failed failure rest) :
    StreamsOn (chain run later) input :=
  streamsOn_of_fails fun _ _ => by simp [chain, hrun]

/-- What takes nothing looks at nothing. -/
theorem streamsOn_done (value : α) (input : Bytes) : StreamsOn (.done value) input := by
  intro rest value' h
  cases h
  exact ⟨[], rfl, fun _ _ _ => rfl⟩

/-! ## Sequencing -/

theorem streams_pure (value : α) : (pure value : Reader α).Streams :=
  streamsOn_done value

/-- Readers in sequence. -/
theorem Streams.bind {r : Reader α} {f : α → Reader β} (hr : r.Streams)
    (hf : ∀ value, (f value).Streams) : (r >>= f).Streams :=
  fun input => (hr input).chain fun value mid _ => hf value mid

/-- What is made of a value does not depend on the text. -/
theorem Streams.map {r : Reader α} (f : α → β) (hr : r.Streams) : (f <$> r).Streams := by
  rw [map_eq_pure_bind]
  exact hr.bind fun _ => streams_pure _

/-- A reader that never succeeds. -/
theorem streams_of_fails {r : Reader α} (h : ∀ input value rest, r.run input ≠ .done value rest) :
    r.Streams :=
  fun input rest value hrun => absurd hrun (h input value rest)

theorem streams_failUnplaced (fault : Fault) : (failUnplaced fault : Reader α).Streams :=
  streams_of_fails fun _ _ _ => by simp [failUnplaced]

theorem streams_failHere (fault : SyntaxFault) : (failHere fault : Reader α).Streams :=
  streams_of_fails fun _ _ _ => by simp [failHere]

/-- What would follow on a failure does not matter. -/
theorem streams_failHere_bind (fault : SyntaxFault) (f : α → Reader β) :
    (failHere fault >>= f).Streams :=
  streams_of_fails fun _ _ _ => by simp [run_bind, failHere]

theorem streams_failNext (fault : SyntaxFault) : (failNext fault : Reader α).Streams :=
  streams_of_fails fun _ _ _ => by simp [failNext]

/-- Readers that succeed alike. -/
theorem Streams.congr {r r' : Reader α} (h : r'.Streams)
    (hiff : ∀ input value rest, r.run input = .done value rest ↔ r'.run input = .done value rest) :
    r.Streams := by
  intro input rest value hrun
  obtain ⟨front, hfront, hahead⟩ := h input ((hiff _ _ _).mp hrun)
  exact ⟨front, hfront, fun b hb more => (hiff _ _ _).mpr (hahead b hb more)⟩

/-- A sequence succeeds if both of its readers do. -/
theorem run_bind_eq_done_iff {r : Reader α} {f : α → Reader β} {input rest : Bytes} {result : β} :
    (r >>= f).run input = .done result rest ↔
      ∃ value mid, r.run input = .done value mid ∧ (f value).run mid = .done result rest := by
  rw [run_bind]
  constructor
  · intro h
    cases hrun : r.run input with
    | failed failure mid => simp [hrun] at h
    | done value mid => exact ⟨value, mid, rfl, by simpa [hrun] using h⟩
  · rintro ⟨value, mid, hrun, h⟩
    rw [hrun]
    exact h

/-- A value is made of one that was read. -/
theorem run_map_eq_done_iff {f : α → β} {r : Reader α} {input rest : Bytes} {result : β} :
    (f <$> r).run input = .done result rest ↔
      ∃ value, r.run input = .done value rest ∧ f value = result := by
  rw [map_eq_pure_bind, run_bind_eq_done_iff]
  constructor
  · rintro ⟨value, mid, hrun, ⟨⟩⟩
    exact ⟨value, hrun, rfl⟩
  · rintro ⟨value, hrun, rfl⟩
    exact ⟨value, rest, hrun, rfl⟩

/-- A success does not depend on how failures are told. -/
theorem run_mapFailure_eq_done_iff {change : Failure → Bytes → Failure} {r : Reader α}
    {input rest : Bytes} {value : α} :
    (r.mapFailure change).run input = .done value rest ↔ r.run input = .done value rest := by
  unfold mapFailure
  cases h : r.run input <;> simp [h]

/-- How failures are told is of no account, as only successes count. -/
theorem Streams.mapFailure {r : Reader α} (h : r.Streams) (change : Failure → Bytes → Failure) :
    (r.mapFailure change).Streams :=
  h.congr fun _ _ _ => run_mapFailure_eq_done_iff

theorem Streams.under {r : Reader α} (h : r.Streams) (step : Step) : (r.under step).Streams :=
  h.mapFailure _

theorem Streams.placed {r : Reader α} (h : r.Streams) : r.placed.Streams :=
  h.mapFailure _

/-! ## Bytes -/

/-- The one byte ahead is the byte that is looked at. -/
theorem streams_peek : peek.Streams := by
  intro input rest value hrun
  cases hrun
  exact ⟨[], rfl, fun b hb more => by simp [peek, Option.mem_def.mp hb]⟩

/-- A byte is taken whatever follows; the end of the text has nothing behind it to exchange. -/
theorem streams_next : next.Streams := by
  intro input rest value hrun
  cases hrun
  cases input with
  | nil => exact ⟨[], rfl, by simp⟩
  | cons c input => exact ⟨[c], rfl, fun _ _ _ => rfl⟩

theorem streams_skip : skip.Streams := by
  intro input rest value hrun
  cases hrun
  cases input with
  | nil => exact ⟨[], rfl, by simp⟩
  | cons c input => exact ⟨[c], rfl, fun _ _ _ => rfl⟩

/-- A stretch that is over at the first byte behind it. -/
theorem span_stretch {p : UInt8 → Bool} {input : Bytes} {b : UInt8}
    (hb : b ∈ (input.dropWhile p).head?) (more : Bytes) :
    (input.takeWhile p ++ b :: more).takeWhile p = input.takeWhile p ∧
      (input.takeWhile p ++ b :: more).dropWhile p = b :: more := by
  have hpos : ∀ c ∈ input.takeWhile p, p c = true := fun c hc => List.mem_takeWhile_imp hc
  have hneg : p b = false := by
    have hhead := List.head?_dropWhile_not p input
    rw [Option.mem_def.mp hb] at hhead
    simpa using hhead
  rw [List.takeWhile_append_of_pos hpos, List.dropWhile_append_of_pos hpos]
  simp [hneg]

/-- Blanks are over at the first byte that is none. -/
theorem streams_peekToken : peekToken.Streams := by
  intro input rest value hrun
  cases hrun
  refine ⟨input.takeWhile isBlank, List.takeWhile_append_dropWhile.symm, fun b hb more => ?_⟩
  obtain ⟨-, hdrop⟩ := span_stretch hb more
  simp [peekToken, hdrop, Option.mem_def.mp hb]

/-- A token is taken by looking at it first. -/
theorem takeToken_eq : takeToken = peekToken >>= fun b => skip >>= fun _ => pure b := rfl

theorem streams_takeToken : takeToken.Streams := by
  rw [takeToken_eq]
  exact streams_peekToken.bind fun _ => streams_skip.bind fun _ => streams_pure _

/-- A token is taken or left by what it is. -/
theorem streams_takeIf (b : UInt8) : (takeIf b).Streams := by
  refine streams_peekToken.bind fun first => ?_
  cases first with
  | none => exact streams_pure _
  | some c =>
    dsimp only
    split
    · exact streams_skip.bind fun _ => streams_pure _
    · exact streams_pure _

theorem streams_peekOpening : peekOpening.Streams :=
  streams_peekToken.bind fun _ => streams_pure _

/-- A word is taken letter by letter, as far as it is the word that is wanted. -/
theorem streams_word (cs : List Char) : (word cs).Streams := by
  induction cs with
  | nil => exact streams_pure _
  | cons c cs ih =>
    refine streams_next.bind fun first => ?_
    cases first with
    | none => exact streams_failHere _
    | some b =>
      dsimp only
      split
      · exact ih
      · exact streams_failHere _

/-! ## Numbers -/

/-- Whether a digit is next shows at one byte. -/
theorem streams_peekDigit? : peekDigit?.Streams := by
  refine streams_peek.bind fun first => ?_
  cases first with
  | none => exact streams_pure _
  | some b => exact streams_pure _

/-- Digits are over at the first byte that is none. -/
theorem streams_skipDigits : skipDigits.Streams := by
  intro input rest value hrun
  cases hrun
  refine ⟨input.takeWhile isDigit, List.takeWhile_append_dropWhile.symm, fun b hb more => ?_⟩
  obtain ⟨-, hdrop⟩ := span_stretch hb more
  simp [skipDigits, hdrop]

/-- The digits at hand are over at the first byte that is none. -/
theorem streams_digits : digits.Streams := by
  intro input rest value hrun
  cases hrun
  refine ⟨input.takeWhile isDigit, List.takeWhile_append_dropWhile.symm, fun b hb more => ?_⟩
  obtain ⟨htake, hdrop⟩ := span_stretch hb more
  simp [digits, htake, hdrop]

theorem streams_peekIs (test : UInt8 → Bool) : (peekIs test).Streams :=
  streams_peek.bind fun _ => streams_pure _

/-- Digits are taken up to the first byte that is none or does not fit any more, so that byte is the
only one behind them that counts. -/
theorem streams_digitsWithin (limit value : Nat) : (digitsWithin limit value).Streams := by
  have hfrom : ∀ value count input, ∃ front,
      input = front ++ (digitsWithinFrom limit value count input).2.2 ∧
        ∀ b ∈ (digitsWithinFrom limit value count input).2.2.head?, ∀ more,
          digitsWithinFrom limit value count (front ++ b :: more) =
            ((digitsWithinFrom limit value count input).1,
              (digitsWithinFrom limit value count input).2.1, b :: more) := by
    intro value count input
    induction input generalizing value count with
    | nil => exact ⟨[], rfl, by simp [digitsWithinFrom]⟩
    | cons c input ih =>
      rw [digitsWithinFrom]
      split
      · rename_i hfits
        obtain ⟨front, hfront, hahead⟩ := ih (value * 10 + digitValue c) (count + 1)
        refine ⟨c :: front, congrArg _ hfront, fun b hb more => ?_⟩
        rw [List.cons_append, digitsWithinFrom, if_pos hfits, hahead b hb more]
      · rename_i hover
        refine ⟨[], rfl, fun b hb more => ?_⟩
        obtain rfl : c = b := by simpa using hb
        rw [List.nil_append, digitsWithinFrom, if_neg hover]
  intro input rest result hrun
  obtain ⟨front, hfront, hahead⟩ := hfrom value 0 input
  cases hrun
  refine ⟨front, hfront, fun b hb more => ?_⟩
  simp [digitsWithin, hahead b hb more]

theorem streams_makeDouble (negative : Bool) (significand : Nat) (exponent : Int) :
    (makeDouble negative significand exponent).Streams := by
  unfold makeDouble
  split
  · exact streams_pure _
  · exact streams_failHere _

/-- A sign is there or not by the next byte. -/
theorem streams_exponentSign : exponentSign.Streams := by
  refine streams_peek.bind fun first => ?_
  cases first with
  | none => exact streams_pure _
  | some b =>
    dsimp only
    split
    · exact streams_skip.bind fun _ => streams_pure _
    · split
      · exact streams_skip.bind fun _ => streams_pure _
      · exact streams_pure _

/-- From the exponent's mark on, be the exponent within bounds or not. -/
theorem streams_withExponent (negative : Bool) (significand : Nat) (start : Int) :
    (withExponent negative significand start).Streams := by
  refine streams_skip.bind fun _ => streams_exponentSign.bind fun minus =>
    streams_next.bind fun first => ?_
  cases first with
  | none => exact streams_failHere _
  | some b =>
    dsimp only
    split
    · refine (streams_digitsWithin _ _).bind fun size => streams_peekDigit?.bind fun digit => ?_
      cases digit with
      | none => exact streams_makeDouble _ _ _
      | some _ =>
        refine streams_skip.bind fun _ => ?_
        split
        · exact streams_failHere _
        · exact streams_skipDigits.bind fun _ => streams_pure _
    · exact streams_failHere_bind _ _

theorem streams_withoutMoreDigits (negative : Bool) (significand : Nat) (exponent : Int) :
    (withoutMoreDigits negative significand exponent).Streams := by
  refine (streams_peekIs _).bind fun mark => ?_
  split
  · exact streams_withExponent _ _ _
  · exact streams_makeDouble _ _ _

/-- From the point on, whether the digits behind it fit or are dropped. -/
theorem streams_withPoint (negative : Bool) (significand : Nat) (start : Int) :
    (withPoint negative significand start).Streams := by
  refine streams_skip.bind fun _ => (streams_digitsWithin _ _).bind fun taken =>
    streams_peekDigit?.bind fun digit => ?_
  cases digit with
  | some _ => exact streams_skipDigits.bind fun _ => streams_withoutMoreDigits _ _ _
  | none =>
    dsimp only
    split
    · refine streams_peek.bind fun first => ?_
      cases first with
      | some _ => exact (streams_failNext _).bind fun _ => streams_withoutMoreDigits _ _ _
      | none => exact (streams_failNext _).bind fun _ => streams_withoutMoreDigits _ _ _
    · exact streams_withoutMoreDigits _ _ _

/-- After digits that did not fit. -/
theorem streams_withLongWhole (negative : Bool) (significand : Nat) :
    (withLongWhole negative significand).Streams := by
  refine streams_digits.bind fun dropped => (streams_peekIs _).bind fun point => ?_
  split
  · exact streams_withPoint _ _ _
  · exact streams_withoutMoreDigits _ _ _

/-- After digits that all fit. -/
theorem streams_withWhole (negative : Bool) (significand : Nat) :
    (withWhole negative significand).Streams := by
  refine (streams_peekIs _).bind fun point => ?_
  split
  · exact streams_withPoint _ _ _
  · refine (streams_peekIs _).bind fun mark => ?_
    split
    · exact streams_withExponent _ _ _
    · split
      · exact streams_pure _
      · split
        · exact streams_pure _
        · exact streams_pure _

/-- A number without its sign; a zero in front decides at the byte behind it that nothing may
follow. -/
theorem streams_unsignedNumber (negative : Bool) : (unsignedNumber negative).Streams := by
  refine streams_next.bind fun first => ?_
  cases first with
  | none => exact streams_failHere _
  | some b =>
    dsimp only
    split
    · split
      · refine streams_peekDigit?.bind fun digit => ?_
        cases digit with
        | some _ => exact streams_failNext _
        | none => exact streams_withWhole _ _
      · refine (streams_digitsWithin _ _).bind fun taken => streams_peekDigit?.bind fun digit => ?_
        cases digit with
        | some _ => exact streams_withLongWhole _ _
        | none => exact streams_withWhole _ _
    · exact streams_failHere_bind _ _

/-- A number is over at the first byte that cannot go on with it, and no byte behind that one
counts. -/
theorem streams_number : number.Streams := by
  refine (streams_takeIf _).bind fun minus => ?_
  split
  · exact streams_unsignedNumber _
  · exact streams_unsignedNumber _

theorem streams_skipExponent : skipExponent.Streams := by
  refine (streams_peekIs _).bind fun mark => ?_
  split
  · refine streams_skip.bind fun _ => (streams_exponentSign.map _).bind fun _ =>
      streams_next.bind fun first => ?_
    cases first with
    | none => exact streams_failHere_bind _ _
    | some b =>
      dsimp only
      split
      · exact streams_skipDigits
      · exact streams_failHere_bind _ _
  · exact streams_pure _

theorem streams_skipFraction : skipFraction.Streams := by
  refine (streams_peekIs _).bind fun point => ?_
  split
  · refine streams_skip.bind fun _ => streams_peekDigit?.bind fun digit => ?_
    cases digit with
    | some _ => exact streams_skipDigits
    | none => exact streams_failNext _
  · exact streams_pure _

/-- A number that is skipped is over where one that is read would be. -/
theorem streams_skipAfterDigit (first : UInt8) : (skipAfterDigit first).Streams := by
  have hlater : (skipFraction >>= fun _ => skipExponent).Streams :=
    streams_skipFraction.bind fun _ => streams_skipExponent
  unfold skipAfterDigit
  split
  · refine streams_peekDigit?.bind fun digit => ?_
    cases digit with
    | some _ => exact (streams_failNext _).bind fun _ => hlater
    | none => exact hlater
  · exact streams_skipDigits.bind fun _ => hlater

theorem streams_skipUnsigned : skipUnsigned.Streams := by
  refine streams_next.bind fun first => ?_
  cases first with
  | none => exact streams_failHere _
  | some b =>
    dsimp only
    split
    · exact streams_skipAfterDigit b
    · exact streams_failHere _

/-! ## Strings -/

/-- Fewer than four digits are never read. -/
theorem streams_hexUnit : hexUnit.Streams := by
  intro input rest value hrun
  -- the four digits are asked for at once, so the texts that are too short go apart
  rcases input with _ | ⟨a, _ | ⟨b, _ | ⟨c, _ | ⟨d, input⟩⟩⟩⟩
  case cons.cons.cons.cons =>
    cases hunit : fourHex? a b c d with
    | none => simp [hexUnit, run_bind, nextFour, hunit, failHere] at hrun
    | some unit =>
      simp only [hexUnit, run_bind, nextFour, hunit, run_pure, Outcome.done.injEq] at hrun
      obtain ⟨rfl, rfl⟩ := hrun
      refine ⟨[a, b, c, d], rfl, fun e _ more => ?_⟩
      simp [hexUnit, run_bind, nextFour, hunit]
  all_goals simp [hexUnit, run_bind, nextFour, skipAll, failHere] at hrun

/-- The half of a pair has to follow at once. -/
theorem streams_pairByte (c : Char) : (pairByte c).Streams := by
  refine streams_peek.bind fun first => ?_
  cases first with
  | none => exact streams_failHere _
  | some b =>
    refine streams_skip.bind fun _ => ?_
    split
    · exact streams_pure _
    · exact streams_failHere _

/-- One code unit or a pair of them, which is over at its last digit. -/
theorem streams_unicodeEscape : unicodeEscape.Streams := by
  refine streams_hexUnit.bind fun unit => ?_
  split
  · exact streams_failHere _
  · split
    · exact streams_pure _
    · refine (streams_pairByte _).bind fun _ => (streams_pairByte _).bind fun _ =>
        streams_hexUnit.bind fun low => ?_
      split
      · exact streams_failHere _
      · exact streams_pure _

/-- An escape tells its own end. -/
theorem streams_escape : escape.Streams := by
  refine streams_next.bind fun first => ?_
  cases first with
  | none => exact streams_failHere _
  | some b =>
    dsimp only
    split
    · exact streams_unicodeEscape
    · split
      · exact streams_pure _
      · exact streams_failHere _

theorem streams_skipEscape : skipEscape.Streams := by
  refine streams_next.bind fun first => ?_
  cases first with
  | none => exact streams_failHere _
  | some b =>
    dsimp only
    split
    · exact streams_hexUnit.map _
    · split
      · exact streams_pure _
      · exact streams_failHere _

/-- A reading that starts with a byte goes on as it does behind that byte. -/
theorem StreamsOn.cons {run run' : Bytes → Outcome α} {b : UInt8} {input : Bytes}
    (h : StreamsOn run' input) (hrun : ∀ input, run (b :: input) = run' input) :
    StreamsOn run (b :: input) := by
  intro rest value hdone
  rw [hrun] at hdone
  obtain ⟨front, rfl, hahead⟩ := h hdone
  refine ⟨b :: front, rfl, fun c hc more => ?_⟩
  rw [List.cons_append, hrun]
  exact hahead c hc more

/-- A string is over at its closing quote; the text in between is gone through as the loop goes
through it, one byte or one escape at a time. -/
theorem streams_stringBytes : stringBytes.Streams := by
  have hquote : ∀ taken input, stringBytesFrom taken ('"'.toUInt8 :: input) =
      .done taken.reverse input := by
    intro taken input
    rw [stringBytesFrom, if_pos rfl]
  have hslash : ∀ taken input, stringBytesFrom taken ('\\'.toUInt8 :: input) =
      chain escape.run (fun bytes => stringBytesFrom (bytes.reverseAux taken)) input := by
    intro taken input
    rw [stringBytesFrom, if_neg (by decide), if_pos rfl, chain]
    split <;> simp_all
  have hfrom : ∀ taken input, StreamsOn (stringBytesFrom taken) input := by
    intro taken input
    -- one case for each way in which a round of the loop can go
    induction taken, input using stringBytesFrom.induct with
    | case1 taken => exact streamsOn_of_fails (by simp [stringBytesFrom, failHere])
    | case2 taken rest => exact (streamsOn_done _ rest).cons (hquote taken)
    | case3 taken rest bytes rest' hescape _ _ ih =>
      exact ((streams_escape rest).chain_of_done hescape ih).cons (hslash taken)
    | case4 taken rest failure rest' hescape =>
      exact (streamsOn_chain_of_failed hescape).cons (hslash taken)
    | case5 taken b rest hquote hslash hcontrol =>
      exact streamsOn_of_fails (by
        intro value rest'
        rw [stringBytesFrom, if_neg hquote, if_neg hslash, if_pos hcontrol]
        simp [failHere])
    | case6 taken b rest hquote hslash hcontrol ih =>
      refine ih.cons fun input => ?_
      rw [stringBytesFrom, if_neg hquote, if_neg hslash, if_neg hcontrol]
  exact hfrom []

/-- Whether the bytes of a string are a text depends on them alone. -/
theorem streams_stringBody : stringBody.Streams := by
  intro input rest value hrun
  cases hbytes : stringBytes.run input with
  | failed failure rest' => simp [stringBody, hbytes] at hrun
  | done bytes rest' =>
    cases htext : String.fromUTF8? (ByteArray.mk bytes.toArray) with
    | none => simp [stringBody, hbytes, htext] at hrun
    | some s =>
      simp only [stringBody, hbytes, htext, Outcome.done.injEq] at hrun
      obtain ⟨rfl, rfl⟩ := hrun
      obtain ⟨front, hfront, hahead⟩ := streams_stringBytes input hbytes
      refine ⟨front, hfront, fun b hb more => ?_⟩
      simp [stringBody, hahead b hb more, htext]

/-- The closing quote. -/
theorem skipStringFrom_quote (input : Bytes) :
    skipStringFrom ('"'.toUInt8 :: input) = .done () input := by
  rw [skipStringFrom, if_pos rfl]

/-- An escape, and then the rest of the string. -/
theorem skipStringFrom_slash (input : Bytes) : skipStringFrom ('\\'.toUInt8 :: input) =
    chain skipEscape.run (fun _ => skipStringFrom) input := by
  rw [skipStringFrom, if_neg (by decide), if_pos rfl, chain]
  split <;> simp_all

/-- A string that is skipped is over at its closing quote, too, though its bytes need not be a
text. -/
theorem streams_skipString : skipString.Streams := by
  intro input
  change StreamsOn skipStringFrom input
  -- the cases are those of the loop: the end of the text, a quote, an escape, a control, and the
  -- rest
  induction input using skipStringFrom.induct with
  | case1 => exact streamsOn_of_fails (by simp [skipStringFrom, failHere])
  | case2 rest => exact (streamsOn_done _ rest).cons skipStringFrom_quote
  | case3 rest rest' hescape _ _ ih =>
    exact ((streams_skipEscape rest).chain_of_done hescape ih).cons skipStringFrom_slash
  | case4 rest failure rest' hescape =>
    exact (streamsOn_chain_of_failed hescape).cons skipStringFrom_slash
  | case5 b rest hquote hslash hcontrol =>
    exact streamsOn_of_fails (by
      intro value rest'
      rw [skipStringFrom, if_neg hquote, if_neg hslash, if_pos hcontrol]
      simp [failHere])
  | case6 b rest hquote hslash hcontrol ih =>
    refine ih.cons fun input => ?_
    rw [skipStringFrom, if_neg hquote, if_neg hslash, if_neg hcontrol]

end SelectionModels.Json.Reader
