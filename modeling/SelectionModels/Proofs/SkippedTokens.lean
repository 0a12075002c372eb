import SelectionModels.Proofs.Integers
import SelectionModels.Proofs.Streaming
import SelectionModels.Proofs.SyntaxTrees

/-! # Tokens that are read could have been skipped

A number or a string that is skipped is held to less than one that is read: no size is too large for
it, and no escape has to fit to the next. So whatever is read as a number or as a string ends where
it ends when it is skipped.

* `Reader.SkippedBy`: one reader takes what the other one drops;
* `Reader.skippedBy_unsignedNumber`, `Reader.skipString_of_stringBody`: numbers and strings.
-/

namespace SelectionModels.Json.Reader

open Json.Tree

variable {α β : Type}

/-- Whatever the reader takes is skipped by the other one. -/
def SkippedBy (r : Reader α) (s : Reader Unit) : Prop :=
  ∀ ⦃input rest : Bytes⦄ ⦃value : α⦄, r.run input = .done value rest → s.run input = .done () rest

/-! ## Sequencing -/

/-- Readers in sequence are skipped in sequence. -/
theorem SkippedBy.bind {r : Reader α} {s s' : Reader Unit} {f : α → Reader β} (hr : r.SkippedBy s)
    (hf : ∀ a, (f a).SkippedBy s') : (r >>= f).SkippedBy (s >>= fun _ => s') := by
  intro input rest result hrun
  obtain ⟨value, mid, hfirst, hlater⟩ := run_bind_eq_done_iff.mp hrun
  rw [run_bind_of_done (hr hfirst)]
  exact hf value hlater

/-- Both start alike. -/
theorem skippedBy_bind {r : Reader α} {f : α → Reader β} {g : α → Reader Unit}
    (h : ∀ a, (f a).SkippedBy (g a)) : (r >>= f).SkippedBy (r >>= g) := by
  intro input rest result hrun
  obtain ⟨value, mid, hfirst, hlater⟩ := run_bind_eq_done_iff.mp hrun
  rw [run_bind_of_done hfirst]
  exact h value hlater

theorem skippedBy_pure (value : α) : (pure value : Reader α).SkippedBy (pure ()) := by
  rintro input rest _ ⟨⟩
  rfl

/-- What is never read need not be skipped. -/
theorem skippedBy_of_fails {r : Reader α} {s : Reader Unit}
    (h : ∀ input value rest, r.run input ≠ .done value rest) : r.SkippedBy s :=
  fun input rest value hrun => absurd hrun (h input value rest)

theorem skippedBy_failHere (fault : SyntaxFault) (s : Reader Unit) :
    (failHere fault : Reader α).SkippedBy s :=
  skippedBy_of_fails fun _ _ _ => by simp [failHere]

theorem skippedBy_failNext (fault : SyntaxFault) (s : Reader Unit) :
    (failNext fault : Reader α).SkippedBy s :=
  skippedBy_of_fails fun _ _ _ => by simp [failNext]

/-! ## Numbers -/

/-- A double is made of what has been taken already. -/
theorem skippedBy_makeDouble (negative : Bool) (significand : Nat) (exponent : Int) :
    (makeDouble negative significand exponent).SkippedBy (pure ()) := by
  unfold makeDouble
  split
  · exact skippedBy_pure _
  · exact skippedBy_failHere _ _

/-- What comes behind digits that are dropped. -/
theorem run_skipDigits_bind (s : Reader Unit) (input : Bytes) :
    (skipDigits >>= fun _ => s).run input = s.run (input.dropWhile isDigit) := rfl

/-- There are no digits where none comes first. -/
theorem dropWhile_isDigit_of_head {input : Bytes} (h : input.head?.any isDigit = false) :
    input.dropWhile isDigit = input := by
  cases input with
  | nil => rfl
  | cons b input => exact List.dropWhile_cons_of_neg (by simpa using h)

/-- A byte that passes a test is there. -/
theorem exists_cons_of_head {p : UInt8 → Bool} {input : Bytes} (h : input.head?.any p = true) :
    ∃ b tail, input = b :: tail ∧ p b = true := by
  cases input with
  | nil => cases h
  | cons b tail => exact ⟨b, tail, rfl, by simpa using h⟩

/-- Digits that fit, and those that are left, are digits to skip. -/
theorem dropWhile_of_digitsWithin {limit value : Nat} {input rest : Bytes} {result : Nat × Nat}
    (h : (digitsWithin limit value).run input = .done result rest) :
    rest.dropWhile isDigit = input.dropWhile isDigit ∧
      (rest = input ∧ result.2 = 0 ∨ input.head?.any isDigit = true) := by
  have hfrom : ∀ value count input,
      (digitsWithinFrom limit value count input).2.2.dropWhile isDigit = input.dropWhile isDigit ∧
      ((digitsWithinFrom limit value count input).2 = (count, input) ∨
        input.head?.any isDigit = true) := by
    intro value count input
    induction input generalizing value count with
    | nil => exact ⟨rfl, .inl rfl⟩
    | cons b input ih =>
      rw [digitsWithinFrom]
      split
      · rename_i hfits
        have hb : isDigit b = true := by
          rw [Bool.and_eq_true] at hfits
          exact hfits.1
        rw [List.dropWhile_cons_of_pos hb]
        exact ⟨(ih _ _).1, .inr (by simpa using hb)⟩
      · exact ⟨rfl, .inl rfl⟩
  obtain ⟨hdrop, hsame⟩ := hfrom value 0 input
  cases h
  refine ⟨hdrop, hsame.imp_left fun hpair => ?_⟩
  exact ⟨congrArg Prod.snd hpair, congrArg Prod.fst hpair⟩

/-- Digits that fit are digits, and those that do not fit are left for what comes after. -/
theorem skippedBy_digitsWithin {limit value : Nat} {f : Nat × Nat → Reader α} {s : Reader Unit}
    (h : ∀ result, (f result).SkippedBy (skipDigits >>= fun _ => s)) :
    (digitsWithin limit value >>= f).SkippedBy (skipDigits >>= fun _ => s) := by
  intro input rest value' hrun
  obtain ⟨result, mid, hdigits, hlater⟩ := run_bind_eq_done_iff.mp hrun
  have hskip := h result hlater
  rw [run_skipDigits_bind] at hskip ⊢
  rwa [← (dropWhile_of_digitsWithin hdigits).1]

/-- Whether a digit is left decides how to go on. -/
theorem skippedBy_peekDigit? {f : Option Nat → Reader α} {s : Reader Unit}
    (hnone : (f none).SkippedBy s)
    (hsome : ∀ b tail, isDigit b = true → ∀ value rest,
      (f (some (digitValue b))).run (b :: tail) = .done value rest →
        s.run (tail.dropWhile isDigit) = .done () rest) :
    (peekDigit? >>= f).SkippedBy (skipDigits >>= fun _ => s) := by
  intro input rest value hrun
  rw [run_skipDigits_bind]
  cases hhead : input.head?.any isDigit with
  | false =>
    rw [run_bind_of_done (run_peekDigit?_of_ends hhead)] at hrun
    rw [dropWhile_isDigit_of_head hhead]
    exact hnone hrun
  | true =>
    obtain ⟨b, tail, rfl, hb⟩ := exists_cons_of_head hhead
    rw [run_bind_of_done (run_peekDigit?_of_digit hb tail)] at hrun
    rw [List.dropWhile_cons_of_pos hb]
    exact hsome b tail hb _ _ hrun

/-- An exponent has a digit after its sign, however large it is. -/
theorem skippedBy_withExponent (negative : Bool) (significand : Nat) (start : Int) :
    (withExponent negative significand start).SkippedBy (do
      skip
      discard exponentSign
      match ← next with
      | some b => unless isDigit b do failHere .invalidNumber
      | none => failHere .invalidNumber
      skipDigits) := by
  refine skippedBy_bind fun _ => SkippedBy.bind (fun _ _ _ h => by rw [run_discard, h])
    fun minus => skippedBy_bind fun first => ?_
  cases first with
  | none => exact skippedBy_failHere _ _
  | some b =>
    dsimp only
    split
    · -- the digits that fit, and perhaps more
      refine @skippedBy_digitsWithin _ _ _ _ (pure ()) fun size => ?_
      refine skippedBy_peekDigit? (skippedBy_makeDouble _ _ _) ?_
      intro b tail _ value rest hrun
      rw [run_bind_of_done (show skip.run (b :: tail) = .done () tail from rfl)] at hrun
      split at hrun
      · simp [failHere] at hrun
      · cases hrun
        rfl
    · exact skippedBy_of_fails fun _ _ _ => by simp [run_bind, failHere]

/-- There is an exponent, or a number is over. -/
theorem skippedBy_withoutMoreDigits (negative : Bool) (significand : Nat) (exponent : Int) :
    (withoutMoreDigits negative significand exponent).SkippedBy skipExponent := by
  refine skippedBy_bind fun mark => ?_
  cases mark with
  | false => exact skippedBy_makeDouble _ _ _
  | true => exact skippedBy_withExponent _ _ _

/-- The point of a number that is skipped, and the digits behind it. -/
def skipPoint : Reader Unit := do
  skip
  match ← peekDigit? with
  | some _ => skipDigits
  | none => failNext .invalidNumber

/-- At least one digit stands behind the point. -/
theorem skippedBy_withPoint (negative : Bool) (significand : Nat) (start : Int) :
    (withPoint negative significand start).SkippedBy (skipPoint >>= fun _ => skipExponent) := by
  rw [skipPoint, bind_assoc]
  refine skippedBy_bind fun _ => ?_
  intro input rest value hrun
  obtain ⟨result, mid, hdigits, hlater⟩ := run_bind_eq_done_iff.mp hrun
  obtain ⟨hdrop, hdigit⟩ := dropWhile_of_digitsWithin hdigits
  obtain ⟨hskip, hzero⟩ : skipExponent.run (mid.dropWhile isDigit) = .done () rest ∧
      (result.2 = 0 → mid.head?.any isDigit = true) := by
    cases hhead : mid.head?.any isDigit with
    | true =>
      obtain ⟨b, tail, rfl, hb⟩ := exists_cons_of_head hhead
      rw [run_bind_of_done (run_peekDigit?_of_digit hb tail)] at hlater
      exact ⟨skippedBy_withoutMoreDigits _ _ _ hlater, fun _ => rfl⟩
    | false =>
      rw [run_bind_of_done (run_peekDigit?_of_ends hhead)] at hlater
      rw [dropWhile_isDigit_of_head hhead]
      dsimp only at hlater
      split at hlater
      · -- no digit has been taken, and none is left
        cases mid <;> simp [peek, run_bind, failNext] at hlater
      · rename_i hcount
        exact ⟨skippedBy_withoutMoreDigits _ _ _ hlater, fun hzero => absurd hzero hcount⟩
  have hhead : input.head?.any isDigit = true := by
    rcases hdigit with ⟨rfl, hcount⟩ | hhead
    · exact hzero hcount
    · exact hhead
  obtain ⟨b, tail, rfl, hb⟩ := exists_cons_of_head hhead
  rw [bind_assoc, run_bind_of_done (run_peekDigit?_of_digit hb tail)]
  rwa [hdrop] at hskip

/-- What may follow the whole digits. -/
def skipAfterWhole : Reader Unit := do
  skipFraction
  skipExponent

/-- A point is followed by a fraction, and after that as if there were none. -/
theorem skippedBy_pointOrMore {negative : Bool} {significand : Nat} {start : Int}
    {r : Reader Number} (h : r.SkippedBy skipExponent) :
    (do
      if ← peekIs (· == '.'.toUInt8) then withPoint negative significand start
      else r).SkippedBy skipAfterWhole := by
  rw [skipAfterWhole, skipFraction, bind_assoc]
  refine skippedBy_bind fun point => ?_
  cases point with
  | false => exact h
  | true => exact skippedBy_withPoint _ _ _

/-- All that may follow whole digits. -/
theorem skippedBy_withWhole (negative : Bool) (significand : Nat) :
    (withWhole negative significand).SkippedBy skipAfterWhole := by
  refine skippedBy_pointOrMore (skippedBy_bind fun mark => ?_)
  cases mark with
  | true => exact skippedBy_withExponent _ _ _
  | false =>
    simp only [Bool.false_eq_true, if_false]
    split
    · exact skippedBy_pure _
    · split
      · exact skippedBy_pure _
      · exact skippedBy_pure _

/-- A number that is read could have been skipped. -/
theorem skippedBy_unsignedNumber (negative : Bool) :
    (unsignedNumber negative).SkippedBy skipUnsigned := by
  refine skippedBy_bind fun first => ?_
  cases first with
  | none => exact skippedBy_failHere _ _
  | some b =>
    dsimp only
    split
    · unfold skipAfterDigit
      split
      · refine skippedBy_bind fun digit => ?_
        cases digit with
        | some _ => exact skippedBy_failNext _ _
        | none => exact skippedBy_withWhole _ _
      · refine @skippedBy_digitsWithin _ _ _ _ skipAfterWhole fun size => ?_
        refine skippedBy_peekDigit? (skippedBy_withWhole _ _) ?_
        intro b tail hb value rest hrun
        have hdigits : digits.run (b :: tail) =
            .done (((b :: tail).takeWhile isDigit).map digitValue) (tail.dropWhile isDigit) := by
          rw [← List.dropWhile_cons_of_pos hb]
          rfl
        rw [withLongWhole, run_bind_of_done hdigits] at hrun
        exact skippedBy_pointOrMore (skippedBy_withoutMoreDigits _ _ _) hrun
    · exact skippedBy_of_fails fun _ _ _ => by simp [run_bind, failHere]

/-- So a number that is read stands where it is read as a value with nothing to tell. -/
theorem standsAt_of_number {input rest : Bytes} {n : Number}
    (h : number.run input = .done n rest) : Tree.plain.StandsAt input rest := by
  rw [number, run_bind, run_takeIf] at h
  by_cases hminus : (input.dropWhile isBlank).head? = some '-'.toUInt8
  · rw [if_pos hminus] at h
    obtain ⟨tail, htail⟩ := List.head?_eq_some_iff.mp hminus
    rw [htail] at h
    exact .plain htail (skippedBy_unsignedNumber true h)
  · rw [if_neg hminus] at h
    have hskip := skippedBy_unsignedNumber false h
    cases hinput : input.dropWhile isBlank with
    | nil => simp [hinput, skipUnsigned, run_bind, next, failHere] at hskip
    | cons b tail =>
      by_cases hb : isDigit b = true
      · have hnext : next.run (b :: tail) = .done (some b) tail := rfl
        rw [hinput, skipUnsigned, run_bind_of_done hnext] at hskip
        simp only [hb, if_true] at hskip
        refine .plain hinput ?_
        rw [plainEnd, ofByte?_of_isDigit hb]
        exact hskip
      · simp [hinput, skipUnsigned, run_bind, next, failHere, hb] at hskip

/-! ## Strings -/

/-- The byte of a pair is the one that was asked for. -/
theorem eq_of_run_pairByte {c : Char} {input rest : Bytes} {u : Unit}
    (h : (pairByte c).run input = .done u rest) : input = c.toUInt8 :: rest := by
  cases input with
  | nil => simp [pairByte, run_bind, peek, failHere] at h
  | cons b input =>
    by_cases hb : b = c.toUInt8
    · subst hb
      simp [pairByte, run_bind, peek, skip] at h
      rw [h]
    · simp [pairByte, run_bind, peek, skip, hb, failHere] at h

/-- One `\u` escape is skipped, whatever unit it is. -/
theorem skipStringFrom_of_hexUnit {input rest : Bytes} {unit : Nat}
    (h : hexUnit.run input = .done unit rest) :
    skipStringFrom ('\\'.toUInt8 :: 'u'.toUInt8 :: input) = skipStringFrom rest := by
  have hskip : skipEscape.run ('u'.toUInt8 :: input) = .done () rest := by
    rw [skipEscape, run_bind_of_done (show next.run _ = .done (some 'u'.toUInt8) input from rfl)]
    simp [run_discard, h]
  rw [skipStringFrom_slash, chain, hskip]

/-- A pair is skipped as two escapes. -/
theorem skipStringFrom_of_unicodeEscape {input rest bytes : Bytes}
    (h : unicodeEscape.run input = .done bytes rest) :
    skipStringFrom ('\\'.toUInt8 :: 'u'.toUInt8 :: input) = skipStringFrom rest := by
  obtain ⟨unit, mid, hunit, hlater⟩ := run_bind_eq_done_iff.mp h
  rw [skipStringFrom_of_hexUnit hunit]
  split at hlater
  · cases hlater
  · split at hlater
    · cases hlater
      rfl
    · obtain ⟨_, mid', hslash, hsecond⟩ := run_bind_eq_done_iff.mp hlater
      obtain ⟨_, mid'', hu, hthird⟩ := run_bind_eq_done_iff.mp hsecond
      obtain ⟨low, last, hlow, hend⟩ := run_bind_eq_done_iff.mp hthird
      rw [eq_of_run_pairByte hslash, eq_of_run_pairByte hu, skipStringFrom_of_hexUnit hlow]
      split at hend
      · cases hend
      · rw [run_pure, Outcome.done.injEq] at hend
        rw [hend.2]

/-- An escape that is read is skipped by the same bytes. -/
theorem skipStringFrom_of_escape {input rest bytes : Bytes}
    (h : escape.run input = .done bytes rest) :
    skipStringFrom ('\\'.toUInt8 :: input) = skipStringFrom rest := by
  cases input with
  | nil => simp [escape, run_bind, next, failHere] at h
  | cons b input =>
    have hnext : next.run (b :: input) = .done (some b) input := rfl
    rw [escape, run_bind_of_done hnext] at h
    dsimp only at h
    split at h
    · rename_i hu
      subst hu
      exact skipStringFrom_of_unicodeEscape h
    · rename_i hu
      have hskip : skipEscape.run (b :: input) = .done () rest := by
        rw [skipEscape, run_bind_of_done hnext]
        cases hshort : shortEscape? b with
        | none => simp [hshort, failHere] at h
        | some value =>
          simp only [hshort, run_pure, Outcome.done.injEq] at h
          simp [hu, hshort, h]
      rw [skipStringFrom_slash, chain, hskip]

/-- A string that is read ends where it ends when it is skipped, by induction along the loop that
reads it. -/
theorem skipStringFrom_of_stringBytes {input rest taken value : Bytes}
    (h : stringBytesFrom taken input = .done value rest) :
    skipStringFrom input = .done () rest := by
  fun_induction stringBytesFrom taken input with
  | case1 => cases h
  | case2 =>
    cases h
    exact skipStringFrom_quote _
  | case3 taken input bytes mid hescape _ _ ih =>
    rw [skipStringFrom_of_escape hescape]
    exact ih h
  | case4 => cases h
  | case5 => cases h
  | case6 taken b input hquote hslash hcontrol ih =>
    rw [skipStringFrom, if_neg hquote, if_neg hslash, if_neg hcontrol]
    exact ih h

/-- A string that is read is skipped as well. -/
theorem skipString_of_stringBody {input rest : Bytes} {s : String}
    (h : stringBody.run input = .done s rest) :
    skipString.run input = .done () rest ∧ stringText? input = some s := by
  refine ⟨?_, by rw [stringText?, h]⟩
  cases hbytes : stringBytes.run input with
  | failed failure mid => simp [stringBody, hbytes] at h
  | done bytes mid =>
    simp only [stringBody, hbytes] at h
    split at h
    · cases h
      exact skipStringFrom_of_stringBytes hbytes
    · cases h

end SelectionModels.Json.Reader
