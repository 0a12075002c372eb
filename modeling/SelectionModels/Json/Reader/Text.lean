import SelectionModels.Json.Reader

/-! # Reading strings

The inside of a JSON string, after its opening quote. A string that is read has its escapes resolved
and must be valid UTF-8 as a whole; surrogates must come in pairs. A string that is only skipped is
held to less: its escapes need the right shape, and no more.

* `escape`: the bytes that an escape stands for;
* `stringBody`: the text up to the closing quote;
* `skipString`: the same text dropped.
-/

namespace SelectionModels.Json.Reader

/-! ## Escapes -/

/-- The value of a hexadecimal digit of either case. -/
def hexValue? (b : UInt8) : Option Nat :=
  if isDigit b then some (digitValue b)
  else if 'a'.toUInt8 ≤ b && b ≤ 'f'.toUInt8 then some (b.toNat - 'a'.toNat + 10)
  else if 'A'.toUInt8 ≤ b && b ≤ 'F'.toUInt8 then some (b.toNat - 'A'.toNat + 10)
  else none

/-- The number that four hexadecimal digits spell. -/
def fourHex? (a b c d : UInt8) : Option Nat := do
  return (((← hexValue? a) * 16 + (← hexValue? b)) * 16 + (← hexValue? c)) * 16 + (← hexValue? d)

/-- Drops the whole rest of the text. -/
def skipAll : Reader Unit where
  run _ := .done () []
  length_le h := by cases h; simp

/-- Takes four bytes if there are as many. -/
def nextFour : Reader (Option (UInt8 × UInt8 × UInt8 × UInt8)) where
  run
    | a :: b :: c :: d :: rest => .done (some (a, b, c, d)) rest
    | input => .done none input
  length_le := by
    intro input rest value h
    split at h <;> cases h
    · simp; omega
    · exact Nat.le_refl _

/-- The four digits of a `\u` escape. -/
def hexUnit : Reader Nat := do
  match ← nextFour with
  | none =>
    skipAll
    failHere .eofInString
  | some (a, b, c, d) =>
    match fourHex? a b c d with
    | some unit => return unit
    | none => failHere .invalidEscape

/-- The bytes of a character. -/
def charBytes (code : Nat) : Bytes :=
  String.utf8EncodeChar (Char.ofNat code)

/-- Takes the given byte, which the second half of a pair must show here. -/
def pairByte (c : Char) : Reader Unit := do
  match ← peek with
  | none => failHere .eofInString
  | some b =>
    skip
    unless b = c.toUInt8 do failHere .unexpectedEndOfHexEscape

/-- What follows `\u`: one unit, or two that form a pair. -/
def unicodeEscape : Reader Bytes := do
  let unit ← hexUnit
  if 0xDC00 ≤ unit && unit ≤ 0xDFFF then failHere .loneSurrogate
  else if unit < 0xD800 || 0xDBFF < unit then return charBytes unit
  else
    pairByte '\\'
    pairByte 'u'
    let low ← hexUnit
    if low < 0xDC00 || 0xDFFF < low then failHere .loneSurrogate
    else return charBytes (0x10000 + (unit - 0xD800) * 0x400 + (low - 0xDC00))

/-- The byte that a one-letter escape stands for. -/
def shortEscape? (b : UInt8) : Option UInt8 :=
  if b = '"'.toUInt8 then some '"'.toUInt8
  else if b = '\\'.toUInt8 then some '\\'.toUInt8
  else if b = '/'.toUInt8 then some '/'.toUInt8
  else if b = 'b'.toUInt8 then some 0x08
  else if b = 'f'.toUInt8 then some 0x0c
  else if b = 'n'.toUInt8 then some '\n'.toUInt8
  else if b = 'r'.toUInt8 then some '\r'.toUInt8
  else if b = 't'.toUInt8 then some '\t'.toUInt8
  else none

/-- What follows a backslash. -/
def escape : Reader Bytes := do
  match ← next with
  | none => failHere .eofInString
  | some b =>
    if b = 'u'.toUInt8 then unicodeEscape
    else match shortEscape? b with
      | some value => return [value]
      | none => failHere .invalidEscape

/-- What follows a backslash in a string that is skipped. -/
def skipEscape : Reader Unit := do
  match ← next with
  | none => failHere .eofInString
  | some b =>
    if b = 'u'.toUInt8 then discard hexUnit
    else if (shortEscape? b).isSome then return ()
    else failHere .invalidEscape

/-! ## Strings -/

/-- A byte below the space, which a string must not hold. -/
def isControl (b : UInt8) : Bool :=
  b < 0x20

/-- The bytes up to the closing quote, with escapes resolved; `taken` are those already read, the
last one first. -/
def stringBytesFrom (taken : Bytes) (input : Bytes) : Outcome Bytes :=
  match input with
  | [] => (failHere .eofInString).run []
  | b :: rest =>
    if b = '"'.toUInt8 then .done taken.reverse rest
    else if b = '\\'.toUInt8 then
      match h : escape.run rest with
      | .done bytes rest' =>
        have := escape.length_le h
        stringBytesFrom (bytes.reverseAux taken) rest'
      | .failed failure rest' => .failed failure rest'
    else if isControl b then (failHere .controlCharacter).run rest
    else stringBytesFrom (b :: taken) rest
termination_by input.length
decreasing_by all_goals (simp only [List.length_cons]; omega)

theorem stringBytesFrom_length_le {taken input rest value : Bytes}
    (h : stringBytesFrom taken input = .done value rest) : rest.length ≤ input.length := by
  fun_induction stringBytesFrom taken input with
  | case1 => cases h
  | case2 => cases h; simp
  | case3 =>
    rename_i ih
    have := ih h
    simp only [List.length_cons]
    omega
  | case4 => cases h
  | case5 => cases h
  | case6 =>
    rename_i ih
    have := ih h
    simp only [List.length_cons]
    omega

/-- The bytes of a string after its opening quote. -/
def stringBytes : Reader Bytes where
  run := stringBytesFrom []
  length_le := stringBytesFrom_length_le

/-- A byte between two others. -/
def isWithin (low high b : UInt8) : Bool :=
  low ≤ b && b ≤ high

/-- A byte that continues a character. -/
def isContinuation (b : UInt8) : Bool :=
  isWithin 0x80 0xBF b

/-- A byte that may come second in a character with the given first byte: characters that have a
shorter form, surrogates and what lies beyond the last character are ruled out. -/
def isSecond (first : UInt8) : UInt8 → Bool :=
  if first = 0xE0 then isWithin 0xA0 0xBF
  else if first = 0xED then isWithin 0x80 0x9F
  else if first = 0xF0 then isWithin 0x90 0xBF
  else if first = 0xF4 then isWithin 0x80 0x8F
  else isContinuation

/-- How many bytes a character takes, by its first byte; zero if no character starts so. -/
def encodedLength (first : UInt8) : Nat :=
  if first < 0x80 then 1
  else if isWithin 0xC2 0xDF first then 2
  else if isWithin 0xE0 0xEF first then 3
  else if isWithin 0xF0 0xF4 first then 4
  else 0

/-- The bytes behind the first character, if a character stands at the front. -/
def dropCharacter? : Bytes → Option Bytes
  | [] => none
  | first :: rest =>
    match encodedLength first, rest with
    | 1, _ => some rest
    | 2, b :: rest => if isSecond first b then some rest else none
    | 3, b :: c :: rest => if isSecond first b && isContinuation c then some rest else none
    | 4, b :: c :: d :: rest =>
      if isSecond first b && isContinuation c && isContinuation d then some rest else none
    | _, _ => none

theorem dropCharacter?_length_lt {input rest : Bytes} (h : dropCharacter? input = some rest) :
    rest.length < input.length := by
  unfold dropCharacter? at h
  split at h
  · cases h
  · split at h
    · cases h
      simp
    all_goals grind

/-- What is left from the first place on where no character stands. -/
def dropCharacters (input : Bytes) : Bytes :=
  match h : dropCharacter? input with
  | none => input
  | some rest =>
    have := dropCharacter?_length_lt h
    dropCharacters rest
termination_by input.length

/-- The text of a string after its opening quote. When its bytes are no text, the failure lies
before the end of the string by as many bytes as there are from the first one on that belongs to
no character, escapes counted as the bytes that they stand for. -/
def stringBody : Reader String where
  run input :=
    match stringBytes.run input with
    | .failed failure rest => .failed failure rest
    | .done bytes rest =>
      match String.fromUTF8? (ByteArray.mk bytes.toArray) with
      | some s => .done s rest
      | none =>
        let place := rest.length + (dropCharacters bytes).length
        .failed ⟨[], .malformed .invalidCodePoint, some place⟩ rest
  length_le := by
    intro input rest value h
    split at h
    · cases h
    · rename_i h'
      split at h
      · cases h
        exact stringBytes.length_le h'
      · cases h

/-- Drops what is up to the closing quote. -/
def skipStringFrom (input : Bytes) : Outcome Unit :=
  match input with
  | [] => (failHere .eofInString).run []
  | b :: rest =>
    if b = '"'.toUInt8 then .done () rest
    else if b = '\\'.toUInt8 then
      match h : skipEscape.run rest with
      | .done () rest' =>
        have := skipEscape.length_le h
        skipStringFrom rest'
      | .failed failure rest' => .failed failure rest'
    else if isControl b then (failHere .controlCharacter).run input
    else skipStringFrom rest
termination_by input.length
decreasing_by all_goals (simp only [List.length_cons]; omega)

theorem skipStringFrom_length_le {input rest : Bytes} {value : Unit}
    (h : skipStringFrom input = .done value rest) : rest.length ≤ input.length := by
  fun_induction skipStringFrom input with
  | case1 => cases h
  | case2 => cases h; simp
  | case3 =>
    rename_i ih
    have := ih h
    simp only [List.length_cons]
    omega
  | case4 => cases h
  | case5 => cases h
  | case6 =>
    rename_i ih
    have := ih h
    simp only [List.length_cons]
    omega

/-- A string that is skipped, after its opening quote. -/
def skipString : Reader Unit where
  run := skipStringFrom
  length_le := skipStringFrom_length_le

end SelectionModels.Json.Reader
