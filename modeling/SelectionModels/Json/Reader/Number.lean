import SelectionModels.Json.Reader

/-! # Reading numbers

A number is held exactly as long as its digits fit into 64 bits; after that, and as soon as it has a
point or an exponent, it is held as a double: the leading digits that fit, scaled by a power of ten.
A number that is only skipped is looked at for its shape alone.

* `number`: the number at hand, or the reason why it cannot be held;
* `skipUnsigned`, `skipAfterDigit`: the shape of a number, whatever its size.
-/

namespace SelectionModels.Json.Reader

/-! ## Digits -/

/-- The next byte is a digit. -/
def peekDigit? : Reader (Option Nat) := do
  match ← peek with
  | some b => return if isDigit b then some (digitValue b) else none
  | none => return none

/-- Drops all digits. -/
def skipDigits : Reader Unit where
  run input := .done () (input.dropWhile isDigit)
  length_le h := by
    cases h
    exact (List.dropWhile_suffix _).length_le

/-- The digits at hand. -/
def digits : Reader (List Nat) where
  run input := .done ((input.takeWhile isDigit).map digitValue) (input.dropWhile isDigit)
  length_le h := by
    cases h
    exact (List.dropWhile_suffix _).length_le

/-- The byte is a letter that starts an exponent. -/
def isExponentMark (b : UInt8) : Bool :=
  b == 'e'.toUInt8 || b == 'E'.toUInt8

/-- The next byte is the given one. -/
def peekIs (test : UInt8 → Bool) : Reader Bool := do
  return (← peek).any test

/-! ## Sizes -/

/-- The largest number of 64 bits. -/
def maxUnsigned : Nat := 0xffffffffffffffff

/-- The largest exponent that is told exactly. -/
def maxExponent : Nat := 0x7fffffff

/-- Takes digits as long as the number stays within `limit`. What does not fit is left. -/
def digitsWithinFrom (limit value count : Nat) : Bytes → Nat × Nat × Bytes
  | [] => (value, count, [])
  | b :: rest =>
    if isDigit b && value * 10 + digitValue b ≤ limit then
      digitsWithinFrom limit (value * 10 + digitValue b) (count + 1) rest
    else (value, count, b :: rest)

theorem digitsWithinFrom_length_le (limit value count : Nat) (input : Bytes) :
    (digitsWithinFrom limit value count input).2.2.length ≤ input.length := by
  induction input generalizing value count with
  | nil => exact Nat.le_refl _
  | cons b rest ih =>
    simp only [digitsWithinFrom]
    split
    · exact Nat.le_trans (ih _ _) (Nat.le_succ _)
    · exact Nat.le_refl _

/-- The number that the digits at hand add to `value`, and how many they are. -/
def digitsWithin (limit value : Nat) : Reader (Nat × Nat) where
  run input :=
    let (value, count, rest) := digitsWithinFrom limit value 0 input
    .done (value, count) rest
  length_le h := by
    simp only [Outcome.done.injEq] at h
    rw [← h.2]
    exact digitsWithinFrom_length_le _ _ _ _

/-! ## Doubles -/

/-- The largest power of ten that a double can be scaled by at once. -/
def maxScale : Nat := 308

/-- A power of ten as a double. -/
def powerOfTen (n : Nat) : Float :=
  Float.ofScientific 1 false n

/-- Divides by a power of ten, in steps, until nothing is left to divide. -/
def scaleDown (x : Float) (n : Nat) : Float :=
  if n ≤ maxScale then x / powerOfTen n
  else if x == 0 then x
  else scaleDown (x / powerOfTen maxScale) (n - maxScale)
termination_by n
decreasing_by simp only [maxScale] at *; omega

/-- The double `±significand * 10 ^ exponent`, if it is finite. -/
def double? (negative : Bool) (significand : Nat) (exponent : Int) : Option Float :=
  let x := (UInt64.ofNat significand).toFloat
  let size := exponent.natAbs
  let magnitude :=
    if exponent < 0 then some (scaleDown x size)
    else if size ≤ maxScale then
      let y := x * powerOfTen size
      if y.isInf then none else some y
    else if x == 0 then some x
    else none
  magnitude.map fun y => if negative then -y else y

/-- The double made from the parts that have been read. -/
def makeDouble (negative : Bool) (significand : Nat) (exponent : Int) : Reader Number := do
  match double? negative significand exponent with
  | some x => return .float x
  | none => failHere .numberOutOfRange

/-- The sign of an exponent: `true` for a minus, which a plus or nothing is not. -/
def exponentSign : Reader Bool := do
  match ← peek with
  | some b =>
    if b = '+'.toUInt8 then do skip; return false
    else if b = '-'.toUInt8 then do skip; return true
    else return false
  | none => return false

/-- From the exponent's mark on. -/
def withExponent (negative : Bool) (significand : Nat) (start : Int) : Reader Number := do
  skip
  let minus ← exponentSign
  match ← next with
  | none => failHere .eofInValue
  | some b =>
    unless isDigit b do failHere .invalidNumber
    let (size, _) ← digitsWithin maxExponent (digitValue b)
    match ← peekDigit? with
    | none => makeDouble negative significand (if minus then start - size else start + size)
    | some _ =>
      skip
      if significand ≠ 0 && !minus then failHere .numberOutOfRange
      else
        skipDigits
        return .float (if negative then -0.0 else 0.0)

/-- After the last digit that counts: perhaps an exponent. -/
def withoutMoreDigits (negative : Bool) (significand : Nat) (exponent : Int) : Reader Number := do
  if ← peekIs isExponentMark then withExponent negative significand exponent
  else makeDouble negative significand exponent

/-- From the point on. Digits that no longer fit are dropped. -/
def withPoint (negative : Bool) (significand : Nat) (start : Int) : Reader Number := do
  skip
  let (significand, count) ← digitsWithin maxUnsigned significand
  match ← peekDigit? with
  | some _ => skipDigits
  | none =>
    if count = 0 then
      match ← peek with
      | some _ => failNext .invalidNumber
      | none => failNext .eofInValue
  withoutMoreDigits negative significand (start - count)

/-- After whole digits of which the last ones did not fit. -/
def withLongWhole (negative : Bool) (significand : Nat) : Reader Number := do
  let dropped ← digits
  if ← peekIs (· == '.'.toUInt8) then withPoint negative significand dropped.length
  else withoutMoreDigits negative significand dropped.length

/-- After whole digits that all fit. -/
def withWhole (negative : Bool) (significand : Nat) : Reader Number := do
  if ← peekIs (· == '.'.toUInt8) then withPoint negative significand 0
  else if ← peekIs isExponentMark then withExponent negative significand 0
  else if !negative then return .natural significand
  else if 0 < significand && significand ≤ 0x8000000000000000 then return .negative significand
  else return .float (-(UInt64.ofNat significand).toFloat)

/-- A number after its sign. -/
def unsignedNumber (negative : Bool) : Reader Number := do
  match ← next with
  | none => failHere .eofInValue
  | some b =>
    unless isDigit b do failHere .invalidNumber
    if digitValue b = 0 then
      match ← peekDigit? with
      | some _ => failNext .invalidNumber
      | none => withWhole negative 0
    else
      let (significand, _) ← digitsWithin maxUnsigned (digitValue b)
      match ← peekDigit? with
      | some _ => withLongWhole negative significand
      | none => withWhole negative significand

/-- A number. -/
def number : Reader Number := do
  if ← takeIf '-'.toUInt8 then unsignedNumber true else unsignedNumber false

/-! ## Skipped numbers -/

/-- The exponent of a number that is skipped, if there is one. -/
def skipExponent : Reader Unit := do
  if ← peekIs isExponentMark then
    skip
    discard exponentSign
    match ← next with
    | some b => unless isDigit b do failHere .invalidNumber
    | none => failHere .invalidNumber
    skipDigits

/-- The fraction of a number that is skipped, if there is one. -/
def skipFraction : Reader Unit := do
  if ← peekIs (· == '.'.toUInt8) then
    skip
    match ← peekDigit? with
    | some _ => skipDigits
    | none => failNext .invalidNumber

/-- A number that is skipped, after its first digit. -/
def skipAfterDigit (first : UInt8) : Reader Unit := do
  if digitValue first = 0 then
    match ← peekDigit? with
    | some _ => failNext .invalidNumber
    | none => pure ()
  else skipDigits
  skipFraction
  skipExponent

/-- A number that is skipped, after its sign. -/
def skipUnsigned : Reader Unit := do
  match ← next with
  | some b => if isDigit b then skipAfterDigit b else failHere .invalidNumber
  | none => failHere .invalidNumber

end SelectionModels.Json.Reader
