import SelectionModels.Proofs.SkippedTokens

/-! # Trees of values that are skipped

Whatever is skipped is well-formed, at any depth. The walk through it has the brackets that are open
in a list, so what it has yet to meet is told by the list: behind each bracket that closes, the rest
of the one around it.

* `Reader.Covers`: what is demanded of a text by the place at which the walk stands;
* `Reader.covers_of_skipStep`: one stretch of the walk;
* `Reader.exists_standsAt_of_skipValue`: a value that is skipped has a tree.
-/

namespace SelectionModels.Json.Reader

open Json.Tree

/-! ## First bytes -/

/-- The one byte that a token of the kind starts with, if there is just one. -/
def Opening.mark? : Opening → Option UInt8
  | .null => 'n'.toUInt8
  | .true => 't'.toUInt8
  | .false => 'f'.toUInt8
  | .minus => '-'.toUInt8
  | .quote => '"'.toUInt8
  | .bracket => '['.toUInt8
  | .brace => '\x7b'.toUInt8
  | .nothing | .digit | .other => none

theorem Opening.eq_of_mark? {first : Option UInt8} {b : UInt8}
    (h : (Opening.ofByte? first).mark? = some b) : first = some b := by
  cases first with
  | none => cases h
  | some c =>
    unfold ofByte? at h
    dsimp only at h
    split_ifs at h <;> simp_all [mark?]

/-! ## Values that are skipped -/

/-- The entries of a bracket from here on, and what is behind it. -/
def InsideAt : Bracket → (first : Bool) → Bytes → Bytes → Prop
  | .list, first, input, rest => ∃ items, ItemsStandAt first items input rest
  | .object, first, input, rest => ∃ members, MembersStandAt first members input rest

/-- An entry of the innermost open bracket, or a value outside of brackets. -/
def EntryAt (enclosing : List Bracket) (input rest : Bytes) : Prop :=
  ∃ after, (if enclosing.head? = some .object then ∃ name, KeyAt name input after
      else after = input) ∧ ∃ t, StandsAt t after rest

theorem EntryAt.of_dropWhile {enclosing : List Bracket} {input rest : Bytes}
    (h : EntryAt enclosing (input.dropWhile isBlank) rest) : EntryAt enclosing input rest := by
  obtain ⟨after, hlabel, t, ht⟩ := h
  by_cases hobject : enclosing.head? = some .object
  · rw [if_pos hobject] at hlabel
    obtain ⟨name, hkey⟩ := hlabel
    exact ⟨after, by rw [if_pos hobject]; exact ⟨name, hkey.of_dropWhile⟩, t, ht⟩
  · rw [if_neg hobject] at hlabel
    subst hlabel
    exact ⟨input, by rw [if_neg hobject], t, ht.of_dropWhile⟩

/-- What the open brackets demand of the text behind an entry. -/
def ClosesAt : List Bracket → Bytes → Bytes → Prop
  | [], input, rest => input = rest
  | bracket :: outer, input, rest =>
    ∃ mid, InsideAt bracket false input mid ∧ ClosesAt outer mid rest

/-- What the walk demands of the text from where it stands. -/
def Covers : SkipState → Bytes → Bytes → Prop
  | (.inside, bracket :: outer), input, rest =>
    ∃ mid, InsideAt bracket true input mid ∧ ClosesAt outer mid rest
  | (.behind, bracket :: outer), input, rest => ClosesAt (bracket :: outer) input rest
  | (_, enclosing), input, rest => ∃ mid, EntryAt enclosing input mid ∧ ClosesAt enclosing mid rest

theorem InsideAt.nil {bracket : Bracket} {first : Bool} {input rest : Bytes}
    (h : input.dropWhile isBlank = bracket.close :: rest) : InsideAt bracket first input rest := by
  cases bracket with
  | list => exact ⟨[], .nil h⟩
  | object => exact ⟨[], .nil h⟩

theorem InsideAt.cons {bracket : Bracket} {outer : List Bracket} {first : Bool}
    {input after mid rest : Bytes} (hlead : Separated first input after)
    (hentry : EntryAt (bracket :: outer) after mid) (hlater : InsideAt bracket false mid rest) :
    InsideAt bracket first input rest := by
  obtain ⟨behind, hlabel, t, ht⟩ := hentry
  cases bracket with
  | list =>
    obtain rfl : behind = after := by simpa using hlabel
    obtain ⟨items, hitems⟩ := hlater
    exact ⟨t :: items, .cons hlead ht hitems⟩
  | object =>
    obtain ⟨name, hkey⟩ : ∃ name, KeyAt name after behind := by simpa using hlabel
    obtain ⟨members, hmembers⟩ := hlater
    exact ⟨(name, t) :: members, .cons hlead hkey ht hmembers⟩

/-- How the walk goes on, or that it is over. -/
inductive GoesOn : Option SkipState → Bytes → Bytes → Prop where
  | over {input : Bytes} : GoesOn none input input
  | on {state : SkipState} {input rest : Bytes} (h : Covers state input rest) :
    GoesOn (some state) input rest

theorem closesAt_of_goesOn {enclosing : List Bracket} {input rest : Bytes}
    (h : GoesOn (behindValue enclosing) input rest) : ClosesAt enclosing input rest := by
  cases enclosing with
  | nil =>
    cases h
    rfl
  | cons bracket outer =>
    cases h with
    | on h => exact h

/-- A value that opens no bracket, or one whose bracket is open. -/
inductive StartsAt : Option Bracket → Bytes → Bytes → Prop where
  | whole {t : Tree} {input mid : Bytes} (h : t.StandsAt input mid) : StartsAt none input mid
  | opened {bracket : Bracket} {input mid : Bytes}
    (h : ∀ rest, InsideAt bracket true mid rest → ∃ t, StandsAt t input rest) :
    StartsAt (some bracket) input mid

theorem startsAt_of_skipStart {opened : Option Bracket} {input mid : Bytes}
    (h : skipStart.run input = .done opened mid) : StartsAt opened input mid := by
  rw [skipStart, run_bind] at h
  simp only [takeToken] at h
  cases hinput : input.dropWhile isBlank with
  | nil => simp [hinput, failNext] at h
  | cons b after =>
    simp only [hinput, List.head?_cons, List.tail_cons] at h
    have hmark : ∀ c, (Opening.ofByte? (some b)).mark? = some c →
        input.dropWhile isBlank = c :: after := by
      intro c hc
      rw [hinput, Option.some.inj (Opening.eq_of_mark? hc)]
    -- words and numbers only differ in how their end is found
    have hplain : ∀ {r : Reader Unit}, plainEnd b = r →
        (r >>= fun _ => pure none).run after = .done opened mid →
          opened = none ∧ StandsAt .plain input mid := by
      intro r hr hrun
      obtain ⟨_, _, hend, ⟨⟩⟩ := run_bind_eq_done_iff.mp hrun
      exact ⟨rfl, .plain hinput (hr ▸ hend)⟩
    cases hopening : Opening.ofByte? (some b) with
    | null | «true» | «false» | minus | digit =>
      rw [hopening] at h
      obtain ⟨rfl, ht⟩ := hplain (by rw [plainEnd, hopening]) h
      exact .whole ht
    | quote =>
      rw [hopening] at h
      obtain ⟨_, _, hskip, ⟨⟩⟩ := run_bind_eq_done_iff.mp h
      exact .whole (.text (hmark _ (by rw [hopening]; rfl)) hskip)
    | bracket =>
      rw [hopening] at h
      cases h
      refine .opened fun rest hinside => ?_
      obtain ⟨items, hitems⟩ := hinside
      exact ⟨_, .list (hmark _ (by rw [hopening]; rfl)) hitems⟩
    | brace =>
      rw [hopening] at h
      cases h
      refine .opened fun rest hinside => ?_
      obtain ⟨members, hmembers⟩ := hinside
      exact ⟨_, .object (hmark _ (by rw [hopening]; rfl)) hmembers⟩
    | nothing | other => simp [hopening, failHere] at h

theorem run_takeToken_eq (input : Bytes) : takeToken.run input =
    .done (input.dropWhile isBlank).head? (input.dropWhile isBlank).tail := rfl

/-- A colon is taken. -/
theorem dropWhile_of_colon {input rest : Bytes} (h : colon.run input = .done () rest) :
    input.dropWhile isBlank = ':'.toUInt8 :: rest := by
  rw [colon, run_bind, run_takeToken_eq] at h
  cases hinput : input.dropWhile isBlank with
  | nil => simp [hinput, failNext] at h
  | cons b after =>
    simp only [hinput, List.head?_cons, List.tail_cons] at h
    split at h
    · rename_i hb
      cases h
      rw [hb]
    · simp [failHere] at h

theorem exists_keyAt_of_skipKey {input rest : Bytes} (h : skipKey.run input = .done () rest) :
    ∃ name, KeyAt name input rest := by
  rw [skipKey, run_bind, run_takeToken_eq] at h
  cases hinput : input.dropWhile isBlank with
  | nil => simp [hinput, failNext] at h
  | cons b after =>
    simp only [hinput, List.head?_cons, List.tail_cons] at h
    split at h
    · rename_i hb
      subst hb
      obtain ⟨_, behind, hskip, hcolon⟩ := run_bind_eq_done_iff.mp h
      exact ⟨_, .mk hinput hskip (dropWhile_of_colon hcolon)⟩
    · simp [run_bind, failHere] at h

theorem exists_entryAt_of_skipEntry {enclosing : List Bracket} {next : Option SkipState}
    {input mid rest : Bytes} (h : (skipEntry enclosing).run input = .done next mid)
    (hnext : GoesOn next mid rest) :
    ∃ behind, EntryAt enclosing input behind ∧ ClosesAt enclosing behind rest := by
  obtain ⟨_, after, hlabel, hlater⟩ := run_bind_eq_done_iff.mp h
  obtain ⟨opened, behind, hstart, hlater⟩ := run_bind_eq_done_iff.mp hlater
  have hkey : if enclosing.head? = some .object then ∃ name, KeyAt name input after
      else after = input := by
    unfold skipLabel at hlabel
    split
    · rename_i hobject
      rw [if_pos hobject] at hlabel
      exact exists_keyAt_of_skipKey hlabel
    · rename_i hother
      rw [if_neg hother] at hlabel
      cases hlabel
      rfl
  cases startsAt_of_skipStart hstart with
  | whole ht =>
    cases hlater
    exact ⟨mid, ⟨after, hkey, _, ht⟩, closesAt_of_goesOn hnext⟩
  | opened hopened =>
    cases hlater
    cases hnext with
    | on hcovers =>
      obtain ⟨last, hinside, hcloses⟩ := hcovers
      exact ⟨last, ⟨after, hkey, hopened last hinside⟩, hcloses⟩

theorem covers_of_skipStep_inside {bracket : Bracket} {outer : List Bracket}
    {next : Option SkipState} {input mid rest : Bytes}
    (h : (skipStep (.inside, bracket :: outer)).run input = .done next mid)
    (hnext : GoesOn next mid rest) : Covers (.inside, bracket :: outer) input rest := by
  rw [skipStep, run_bind, run_takeIf] at h
  by_cases hclose : (input.dropWhile isBlank).head? = some bracket.close
  · rw [if_pos hclose] at h
    obtain ⟨tail, htail⟩ := List.head?_eq_some_iff.mp hclose
    rw [htail] at h
    cases h
    exact ⟨tail, .nil htail, closesAt_of_goesOn hnext⟩
  · rw [if_neg hclose] at h
    simp only [Bool.false_eq_true, if_false, run_bind, peekToken] at h
    cases hhead : ((input.dropWhile isBlank).dropWhile isBlank).head? with
    | none => simp [hhead, failNext] at h
    | some b =>
      simp only [hhead] at h
      rw [List.dropWhile_idempotent] at h
      obtain ⟨behind, hentry, last, hinside, hcloses⟩ := exists_entryAt_of_skipEntry h hnext
      exact ⟨last, .cons rfl hentry.of_dropWhile hinside, hcloses⟩

theorem covers_of_skipStep_behind {bracket : Bracket} {outer : List Bracket}
    {next : Option SkipState} {input mid rest : Bytes}
    (h : (skipStep (.behind, bracket :: outer)).run input = .done next mid)
    (hnext : GoesOn next mid rest) : Covers (.behind, bracket :: outer) input rest := by
  rw [skipStep, run_bind, run_takeToken_eq] at h
  cases hinput : input.dropWhile isBlank with
  | nil => simp [hinput, failNext] at h
  | cons b after =>
    simp only [hinput, List.head?_cons, List.tail_cons] at h
    split at h
    · rename_i hb
      subst hb
      cases h
      cases hnext with
      | on hcovers =>
        obtain ⟨behind, hentry, last, hinside, hcloses⟩ := hcovers
        exact ⟨last, .cons hinput hentry hinside, hcloses⟩
    · split at h
      · rename_i hb
        subst hb
        cases h
        exact ⟨mid, .nil hinput, closesAt_of_goesOn hnext⟩
      · simp [failHere] at h

/-- The text that the walk goes through is as the state that it starts from demands. -/
theorem covers_of_skipStep {state : SkipState} {next : Option SkipState} {input mid rest : Bytes}
    (h : (skipStep state).run input = .done next mid) (hnext : GoesOn next mid rest) :
    Covers state input rest := by
  obtain ⟨phase, enclosing⟩ := state
  cases phase with
  | entry => exact exists_entryAt_of_skipEntry h hnext
  | inside =>
    cases enclosing with
    | nil => exact exists_entryAt_of_skipEntry h hnext
    | cons bracket outer => exact covers_of_skipStep_inside h hnext
  | behind =>
    cases enclosing with
    | nil => exact exists_entryAt_of_skipEntry h hnext
    | cons bracket outer => exact covers_of_skipStep_behind h hnext

/-- What is skipped has a tree. -/
theorem exists_standsAt_of_skipValue {input rest : Bytes}
    (h : skipValue.run input = .done () rest) : ∃ t, StandsAt t input rest := by
  have hcovers : ∀ state input, skipFrom state input = .done () rest → Covers state input rest := by
    intro state input hrun
    -- by induction on the stretches that are left: what the next state demands is known
    fun_induction skipFrom state input with
    | case1 => cases hrun
    | case2 state input mid hstep =>
      cases hrun
      exact covers_of_skipStep hstep .over
    | case3 state input state' mid hstep _ ih => exact covers_of_skipStep hstep (.on (ih hrun))
  obtain ⟨mid, ⟨after, hlabel, t, ht⟩, rfl⟩ := hcovers _ _ h
  obtain rfl : after = input := by simpa using hlabel
  exact ⟨t, ht⟩

end SelectionModels.Json.Reader
