import SelectionModels.Json.Reader.Skip

/-! # Reading lists and objects

The inside of a list or an object, one item or member after the other, as a fold over a state: a
step reads what it is given to read and says what is known then.

* `nextItem`, `nextKey`: whether something follows, after the comma that has to stand before it;
* `items`, `members`: the folds, which end because every round takes something;
* `endList`, `endObject`: the closing brackets;
* `inList`, `inObject`: a bracket with its inside and its end, one level of nesting.
-/

namespace SelectionModels.Json.Reader

variable {σ α : Type}

/-! ## What follows -/

/-- Another item follows. The first one needs no comma. -/
def nextItem (first : Bool) : Reader Bool := do
  match ← peekToken with
  | none => failNext .eofInList
  | some b =>
    if b = ']'.toUInt8 then return false
    else if first then return true
    else if ← takeIf ','.toUInt8 then
      match ← peekToken with
      | none => failNext .eofInValue
      | some b => if b = ']'.toUInt8 then failNext .trailingComma else return true
    else failNext .expectedListCommaOrEnd

/-- The key of a member, whose quote comes next. -/
def key : Reader (Option String) := do
  match ← takeToken with
  | none => failNext .eofInObject
  | some b => if b = '"'.toUInt8 then return some (← stringBody) else failHere .keyMustBeString

/-- The key of the next member, if another one follows. The first one needs no comma. -/
def nextKey (first : Bool) : Reader (Option String) := do
  match ← peekToken with
  | none => failNext .eofInObject
  | some b =>
    if b = '\x7d'.toUInt8 then return none
    else if first then key
    else if ← takeIf ','.toUInt8 then
      match ← peekToken with
      | none => failNext .eofInValue
      | some b => if b = '\x7d'.toUInt8 then failNext .trailingComma else key
    else failNext .expectedObjectCommaOrEnd

/-! ## The folds -/

theorem nextItem_length_lt {input rest : Bytes}
    (h : (nextItem false).run input = .done true rest) : rest.length < input.length := by
  simp only [nextItem, run_bind, Bool.false_eq_true, if_false] at h
  split at h
  · rename_i v rest' hp
    have hle := peekToken.length_le hp
    split at h
    · cases h
    · split at h
      · cases h
      · rw [run_bind] at h
        split at h
        · rename_i taken rest'' ht
          cases taken with
          | false => simp [failNext] at h
          | true =>
            exact Nat.lt_of_le_of_lt (Reader.length_le _ h)
              (Nat.lt_of_lt_of_le (takeIf_length_lt ht) hle)
        · cases h
  · cases h

theorem key_length_lt {input rest : Bytes} {value : Option String}
    (h : key.run input = .done value rest) : rest.length < input.length :=
  takes_takeToken_bind (takes_failNext _) h

theorem nextKey_length_lt {first : Bool} {input rest : Bytes} {name : String}
    (h : (nextKey first).run input = .done (some name) rest) : rest.length < input.length := by
  simp only [nextKey, run_bind] at h
  split at h
  · rename_i v rest' hp
    have hle := peekToken.length_le hp
    split at h
    · cases h
    · split at h
      · cases h
      · split at h
        · exact Nat.lt_of_lt_of_le (key_length_lt h) hle
        · rw [run_bind] at h
          split at h
          · rename_i taken rest'' ht
            cases taken with
            | false => simp [failNext] at h
            | true =>
              exact Nat.lt_of_le_of_lt (Reader.length_le _ h)
                (Nat.lt_of_lt_of_le (takeIf_length_lt ht) hle)
          · cases h
  · cases h

/-- The items from the given position on. -/
def itemsFrom (step : σ → Nat → Reader σ) (state : σ) (index : Nat) (first : Bool)
    (input : Bytes) : Outcome σ :=
  match _h : (nextItem first).run input with
  | .failed failure rest => .failed failure rest
  | .done false rest => .done state rest
  | .done true rest =>
    match _h' : (step state index).run rest with
    | .failed failure rest' => .failed failure rest'
    | .done state' rest' => itemsFrom step state' (index + 1) false rest'
termination_by 2 * input.length + first.toNat
decreasing_by
  have := (step state index).length_le _h'
  cases first with
  | false => have := nextItem_length_lt _h; simp only [Bool.toNat_false]; omega
  | true =>
    have := (nextItem true).length_le _h
    simp only [Bool.toNat_false, Bool.toNat_true]
    omega

theorem itemsFrom_length_le {step : σ → Nat → Reader σ} {state value : σ} {index : Nat}
    {first : Bool} {input rest : Bytes}
    (h : itemsFrom step state index first input = .done value rest) :
    rest.length ≤ input.length := by
  fun_induction itemsFrom step state index first input with
  | case1 => cases h
  | case2 _ _ _ _ _ h' => cases h; exact (nextItem _).length_le h'
  | case3 => cases h
  | case4 _ _ _ _ _ h₁ _ _ h₂ ih =>
    exact Nat.le_trans (ih h) (Nat.le_trans ((step _ _).length_le h₂) ((nextItem _).length_le h₁))

/-- All items up to the closing bracket, which is left. -/
def items (step : σ → Nat → Reader σ) (start : σ) : Reader σ where
  run := itemsFrom step start 0 true
  length_le := itemsFrom_length_le

/-- The key of the next member. A key that cannot be read has no name. -/
def memberKey (first : Bool) : Reader (Option String) :=
  (nextKey first).under .unknown

theorem memberKey_length_lt {first : Bool} {input rest : Bytes} {name : String}
    (h : (memberKey first).run input = .done (some name) rest) : rest.length < input.length := by
  simp only [memberKey, under, mapFailure] at h
  split at h
  · rename_i h'
    cases h
    exact nextKey_length_lt h'
  · cases h

/-- The members that are left. -/
def membersFrom (step : σ → String → Reader σ) (state : σ) (first : Bool) (input : Bytes) :
    Outcome σ :=
  match _h : (memberKey first).run input with
  | .failed failure rest => .failed failure rest
  | .done none rest => .done state rest
  | .done (some name) rest =>
    match _h' : (step state name).run rest with
    | .failed failure rest' => .failed failure rest'
    | .done state' rest' => membersFrom step state' false rest'
termination_by input.length
decreasing_by
  have := (step state name).length_le _h'
  have := memberKey_length_lt _h
  omega

theorem membersFrom_length_le {step : σ → String → Reader σ} {state value : σ} {first : Bool}
    {input rest : Bytes} (h : membersFrom step state first input = .done value rest) :
    rest.length ≤ input.length := by
  fun_induction membersFrom step state first input with
  | case1 => cases h
  | case2 _ _ _ _ h' => cases h; exact (memberKey _).length_le h'
  | case3 => cases h
  | case4 _ _ _ _ _ h₁ _ _ h₂ ih =>
    exact Nat.le_trans (ih h) (Nat.le_trans ((step _ _).length_le h₂) ((memberKey _).length_le h₁))

/-- All members up to the closing bracket, which is left. A step is given the key and reads from the
colon on. -/
def members (step : σ → String → Reader σ) (start : σ) : Reader σ where
  run := membersFrom step start true
  length_le := membersFrom_length_le

/-! ## Ends -/

/-- The end of a list. -/
def endList : Reader Unit := do
  if ← takeIf ']'.toUInt8 then return ()
  else if ← takeIf ','.toUInt8 then
    match ← peekToken with
    | some b => if b = ']'.toUInt8 then failNext .trailingComma else failNext .trailingCharacters
    | none => failNext .trailingCharacters
  else match ← peekToken with
    | some _ => failNext .trailingCharacters
    | none => failNext .eofInList

/-- The end of an object. -/
def endObject : Reader Unit := do
  if ← takeIf '\x7d'.toUInt8 then return ()
  else match ← peekToken with
    | some b => if b = ','.toUInt8 then failNext .trailingComma else failNext .trailingCharacters
    | none => failNext .eofInObject

/-- A list with the given inside; none if no bracket may be opened any more. -/
def inList (inside : Option (Reader α)) : Reader α :=
  match inside with
  | none => failNext .nestingLimit
  | some body => do
    skip
    body.closedBy endList

/-- An object with the given inside; none if no bracket may be opened any more. -/
def inObject (inside : Option (Reader α)) : Reader α :=
  match inside with
  | none => failNext .nestingLimit
  | some body => do
    skip
    body.closedBy endObject

end SelectionModels.Json.Reader
