import SelectionModels.Json.Fault

/-! # Readers

A reader takes a value off the front of a text and leaves the rest. It may fail, and then it tells
where it stopped: what stands at that place decides where the failure is pointed at. The text is a
list of bytes.

* `Reader.length_le`: what a successful reader leaves is never longer than what it was given, so
  that a loop which takes at least one byte per round ends;
* readers form a monad (`Reader.run_pure`, `Reader.run_bind`);
* `failHere`, `failNext`, `failUnplaced`: a fault points at the byte just taken, at the byte that
  comes next, or at nothing yet. `placed` points what is not yet pointed at the place where the
  reading ended.
-/

namespace SelectionModels.Json

abbrev Bytes := List UInt8

/-- What became of a reading, and what it has left. -/
inductive Outcome (α : Type) where
  | done (value : α) (rest : Bytes)
  | failed (failure : Failure) (rest : Bytes)

namespace Outcome

/-- What is left of the text, one way or the other. -/
def rest {α : Type} : Outcome α → Bytes
  | .done _ rest => rest
  | .failed _ rest => rest

end Outcome

structure Reader (α : Type) where
  run : Bytes → Outcome α
  length_le : ∀ {input rest : Bytes} {value : α},
    run input = .done value rest → rest.length ≤ input.length

namespace Reader

variable {α β : Type}

/-! ## Sequencing -/

/-- Takes nothing. -/
def succeed (value : α) : Reader α where
  run input := .done value input
  length_le h := by cases h; exact Nat.le_refl _

/-- One reader, then the one that its value asks for. -/
def andThen (r : Reader α) (f : α → Reader β) : Reader β where
  run input :=
    match r.run input with
    | .done value rest => (f value).run rest
    | .failed failure rest => .failed failure rest
  length_le := by
    intro input rest value h
    split at h
    · rename_i v rest' h'
      exact Nat.le_trans ((f v).length_le h) (r.length_le h')
    · cases h

instance : Monad Reader where
  pure := succeed
  bind := andThen

@[simp] theorem run_pure (value : α) (input : Bytes) :
    (pure value : Reader α).run input = .done value input := rfl

theorem run_bind (r : Reader α) (f : α → Reader β) (input : Bytes) :
    (r >>= f).run input =
      match r.run input with
      | .done value rest => (f value).run rest
      | .failed failure rest => .failed failure rest := rfl

theorem run_bind_of_done {r : Reader α} {f : α → Reader β} {input rest : Bytes} {value : α}
    (h : r.run input = .done value rest) : (r >>= f).run input = (f value).run rest := by
  rw [run_bind, h]

theorem ext_run {r s : Reader α} (h : ∀ input, r.run input = s.run input) : r = s := by
  cases r; cases s
  congr
  exact funext h

instance : LawfulMonad Reader := LawfulMonad.mk' Reader
  (fun r => ext_run fun input => by
    show (r >>= fun a => pure (id a)).run input = r.run input
    rw [run_bind]; cases r.run input <;> rfl)
  (fun _ _ => rfl)
  (fun r f g => ext_run fun input => by
    simp only [run_bind]; cases r.run input <;> rfl)

/-- A reader that is made only when it is used. Readers of nested values have to wait: made at once,
one for every level that might come, they would be too many. -/
def delay (r : Unit → Reader α) : Reader α where
  run input := (r ()).run input
  length_le := (r ()).length_le

@[simp] theorem delay_eq (r : Unit → Reader α) : delay r = r () := rfl

/-! ## Failing -/

/-- A fault in the data, not yet pointed at any place. -/
def failUnplaced (fault : Fault) : Reader α where
  run input := .failed ⟨[], fault, none⟩ input
  length_le h := by cases h

/-- A fault in the text, pointed at the last byte taken. -/
def failHere (fault : SyntaxFault) : Reader α where
  run input := .failed ⟨[], .malformed fault, some input.length⟩ input
  length_le h := by cases h

/-- A fault in the text, pointed at the next byte, or at the end if there is none. -/
def failNext (fault : SyntaxFault) : Reader α where
  run input := .failed ⟨[], .malformed fault, some (input.length - 1)⟩ input
  length_le h := by cases h

/-- The reader with its failures changed in the light of what is left. -/
def mapFailure (change : Failure → Bytes → Failure) (r : Reader α) : Reader α where
  run input :=
    match r.run input with
    | .done value rest => .done value rest
    | .failed failure rest => .failed (change failure rest) rest
  length_le := by
    intro input rest value h
    split at h
    · rename_i h'
      cases h
      exact r.length_le h'
    · cases h

/-- What goes wrong goes wrong one step further in. -/
def under (step : Step) (r : Reader α) : Reader α :=
  r.mapFailure fun failure _ => failure.under step

/-- What is not yet pointed at a place is pointed at the place where the reading ended. -/
def placed (r : Reader α) : Reader α :=
  r.mapFailure fun failure rest => failure.placedAt rest.length

/-- A body and then its end. After a failure in the body the end is still looked for, which may take
a closing bracket; the failure stays the body's. -/
def closedBy (body : Reader α) (ending : Reader Unit) : Reader α where
  run input :=
    match body.run input with
    | .done value rest =>
      match ending.run rest with
      | .done () rest' => .done value rest'
      | .failed failure rest' => .failed failure rest'
    | .failed failure rest => .failed failure (ending.run rest).rest
  length_le := by
    intro input rest value h
    split at h
    · rename_i h'
      split at h
      · rename_i h''
        cases h
        exact Nat.le_trans (ending.length_le h'') (body.length_le h')
      · cases h
    · cases h

/-! ## Bytes -/

/-- The next byte, which is left where it is. -/
def peek : Reader (Option UInt8) where
  run input := .done input.head? input
  length_le h := by cases h; exact Nat.le_refl _

/-- Takes the next byte, if there is one. -/
def next : Reader (Option UInt8) where
  run input := .done input.head? input.tail
  length_le h := by cases h; simp

/-- Drops the next byte. -/
def skip : Reader Unit where
  run input := .done () input.tail
  length_le h := by cases h; simp

/-- Space, tab, line feed and carriage return may stand between tokens. -/
def isBlank (b : UInt8) : Bool :=
  b == ' '.toUInt8 || b == '\t'.toUInt8 || b == '\n'.toUInt8 || b == '\r'.toUInt8

/-- The first byte of the next token. -/
def peekToken : Reader (Option UInt8) where
  run input := .done (input.dropWhile isBlank).head? (input.dropWhile isBlank)
  length_le h := by
    cases h
    exact (List.dropWhile_suffix _).length_le

/-- Takes the first byte of the next token. -/
def takeToken : Reader (Option UInt8) where
  run input := .done (input.dropWhile isBlank).head? (input.dropWhile isBlank).tail
  length_le h := by
    cases h
    exact Nat.le_trans (by simp) (List.dropWhile_suffix isBlank).length_le

/-- Takes the next token if it is the given byte. -/
def takeIf (b : UInt8) : Reader Bool := do
  match ← peekToken with
  | none => return false
  | some c =>
    if c = b then do
      skip
      return true
    else return false

/-! ## Tokens -/

/-- What the first byte of a token announces. -/
inductive Opening where
  | nothing
  | null
  | true
  | false
  | minus
  | digit
  | quote
  | bracket
  | brace
  | other
deriving DecidableEq, Repr

/-- An ASCII digit. -/
def isDigit (b : UInt8) : Bool :=
  '0'.toUInt8 ≤ b && b ≤ '9'.toUInt8

/-- The value of an ASCII digit. -/
def digitValue (b : UInt8) : Nat :=
  b.toNat - '0'.toNat

def Opening.ofByte? : Option UInt8 → Opening
  | none => .nothing
  | some b =>
    if b = 'n'.toUInt8 then .null
    else if b = 't'.toUInt8 then .true
    else if b = 'f'.toUInt8 then .false
    else if b = '-'.toUInt8 then .minus
    else if isDigit b then .digit
    else if b = '"'.toUInt8 then .quote
    else if b = '['.toUInt8 then .bracket
    else if b = '\x7b'.toUInt8 then .brace
    else .other

/-- What the next token is. -/
def peekOpening : Reader Opening := do
  return .ofByte? (← peekToken)

/-- The remaining letters of a word. -/
def word : List Char → Reader Unit
  | [] => pure ()
  | c :: cs => do
    match ← next with
    | none => failHere .eofInValue
    | some b => if b = c.toUInt8 then word cs else failHere .expectedWord

/-- The word `null` after its first letter. -/
def nullWord : Reader Unit := word ['u', 'l', 'l']

/-- The word `true` after its first letter. -/
def trueWord : Reader Unit := word ['r', 'u', 'e']

/-- The word `false` after its first letter. -/
def falseWord : Reader Unit := word ['a', 'l', 's', 'e']

/-! ## Readers that take something -/

/-- A reader that takes at least one byte whenever it succeeds. -/
def Takes (r : Reader α) : Prop :=
  ∀ ⦃input rest : Bytes⦄ ⦃value : α⦄,
    r.run input = .done value rest → rest.length < input.length

theorem takes_failNext (fault : SyntaxFault) : (failNext fault : Reader α).Takes :=
  fun _ _ _ h => by cases h

theorem Takes.bind_of_left {r : Reader α} (hr : r.Takes) (f : α → Reader β) :
    (r >>= f).Takes := by
  intro input rest value h
  rw [run_bind] at h
  split at h
  · rename_i v rest' h'
    exact Nat.lt_of_le_of_lt ((f v).length_le h) (hr h')
  · cases h

theorem Takes.bind_of_right {f : α → Reader β} (hf : ∀ value, (f value).Takes) (r : Reader α) :
    (r >>= f).Takes := by
  intro input rest value h
  rw [run_bind] at h
  split at h
  · rename_i v rest' h'
    exact Nat.lt_of_lt_of_le (hf v h) (r.length_le h')
  · cases h

theorem takeToken_length_lt {input rest : Bytes} {b : UInt8}
    (h : takeToken.run input = .done (some b) rest) : rest.length < input.length := by
  have hle := (List.dropWhile_suffix isBlank (l := input)).length_le
  simp only [takeToken, Outcome.done.injEq] at h
  obtain ⟨hhead, rfl⟩ := h
  cases hd : input.dropWhile isBlank with
  | nil => simp [hd] at hhead
  | cons c cs => simp only [hd, List.tail_cons, List.length_cons] at hle ⊢; omega

/-- What takes a token, and otherwise takes something, takes something. -/
theorem takes_takeToken_bind {f : Option UInt8 → Reader β} (hf : (f none).Takes) :
    (takeToken >>= f).Takes := by
  intro input rest value h
  rw [run_bind] at h
  split at h
  · rename_i v rest' h'
    cases v with
    | none => exact Nat.lt_of_lt_of_le (hf h) (takeToken.length_le h')
    | some b => exact Nat.lt_of_le_of_lt ((f (some b)).length_le h) (takeToken_length_lt h')
  · cases h

theorem takeIf_length_lt {input rest : Bytes} {b : UInt8}
    (h : (takeIf b).run input = .done true rest) : rest.length < input.length := by
  have hle := (List.dropWhile_suffix isBlank (l := input)).length_le
  simp only [takeIf, run_bind, peekToken] at h
  cases hd : input.dropWhile isBlank with
  | nil => simp [hd] at h
  | cons c cs =>
    simp only [hd, List.head?_cons] at h hle
    split at h
    · simp only [run_bind, skip, run_pure, List.tail_cons, Outcome.done.injEq] at h
      rw [← h.2]
      exact Nat.lt_of_succ_le hle
    · simp at h

/-- What takes a given token, and otherwise takes something, takes something. -/
theorem takes_takeIf_bind {f : Bool → Reader β} {b : UInt8} (hf : (f false).Takes) :
    (takeIf b >>= f).Takes := by
  intro input rest value h
  rw [run_bind] at h
  split at h
  · rename_i v rest' h'
    cases v with
    | false => exact Nat.lt_of_lt_of_le (hf h) ((takeIf b).length_le h')
    | true => exact Nat.lt_of_le_of_lt ((f true).length_le h) (takeIf_length_lt h')
  · cases h

end Reader

end SelectionModels.Json
