import SelectionModels.Decimal
import SelectionModels.Text.Quoted

/-! # Faults

Why a JSON text cannot be read. Either the text is malformed, or it is well-formed so far but does
not hold the data that is asked for.

* `Location.display`: keys joined by dots, positions in brackets, a lone dot for the root;
* `Fault.message`: the one text of every fault;
* `Failure`: a fault with its location, and with its place in the text if it has one.
-/

namespace SelectionModels.Json

/-! ## Places in a text

Where in a value something happened, as the steps that lead there from the root, and where in the
text, as a line and a column counted in bytes. -/

/-- One step down into a value. -/
inductive Step where
  | key (name : String)
  | index (n : Nat)
  /-- A member whose key could not be read. -/
  | unknown
deriving DecidableEq, Repr

/-- The steps from the root, outermost first. -/
abbrev Location := List Step

namespace Step

/-- A step as it is written behind another one. -/
def suffix : Step → String
  | .key name => "." ++ name
  | .index n => "[" ++ toString n ++ "]"
  | .unknown => ".?"

/-- A step as it is written at the front. -/
def front : Step → String
  | .key name => name
  | .index n => "[" ++ toString n ++ "]"
  | .unknown => "?"

end Step

def Location.display : Location → String
  | [] => "."
  | step :: steps => step.front ++ String.join (steps.map Step.suffix)

example : Location.display [.key "fields", .index 0, .key "type"] = "fields[0].type" := by
  decide +kernel

/-- A line and a column, both as a reader counts them: lines from one, columns in bytes. -/
structure TextPosition where
  line : Nat
  column : Nat
deriving DecidableEq, Repr

/-- The position after the given bytes. -/
def TextPosition.after (consumed : List UInt8) : TextPosition :=
  let lineFeed := '\n'.toUInt8
  ⟨1 + consumed.count lineFeed, (consumed.reverse.takeWhile (· ≠ lineFeed)).length⟩

/-! ## What is wrong there -/

/-- What is wrong with the text as JSON. -/
inductive SyntaxFault where
  | eofInList
  | eofInObject
  | eofInString
  | eofInValue
  | expectedColon
  | expectedListCommaOrEnd
  | expectedObjectCommaOrEnd
  | expectedWord
  | expectedValue
  | invalidEscape
  | invalidNumber
  | numberOutOfRange
  | invalidCodePoint
  | controlCharacter
  | keyMustBeString
  | loneSurrogate
  | trailingComma
  | trailingCharacters
  | unexpectedEndOfHexEscape
  | nestingLimit
deriving DecidableEq, Repr

def SyntaxFault.message : SyntaxFault → String
  | .eofInList => "EOF while parsing a list"
  | .eofInObject => "EOF while parsing an object"
  | .eofInString => "EOF while parsing a string"
  | .eofInValue => "EOF while parsing a value"
  | .expectedColon => "expected `:`"
  | .expectedListCommaOrEnd => "expected `,` or `]`"
  | .expectedObjectCommaOrEnd => "expected `,` or `\x7d`"
  | .expectedWord => "expected ident"
  | .expectedValue => "expected value"
  | .invalidEscape => "invalid escape"
  | .invalidNumber => "invalid number"
  | .numberOutOfRange => "number out of range"
  | .invalidCodePoint => "invalid unicode code point"
  | .controlCharacter => "control character (\\u0000-\\u001F) found while parsing a string"
  | .keyMustBeString => "key must be a string"
  | .loneSurrogate => "lone leading surrogate in hex escape"
  | .trailingComma => "trailing comma"
  | .trailingCharacters => "trailing characters"
  | .unexpectedEndOfHexEscape => "unexpected end of hex escape"
  | .nestingLimit => "recursion limit exceeded"

/-- A number as it is held: whole numbers of 64 bits exactly, all others as doubles. -/
inductive Number where
  | natural (n : Nat)
  /-- The number `-n`. -/
  | negative (n : Nat)
  | float (x : Float)

/-- What was found where something else was expected. -/
inductive Found where
  | null
  | bool (b : Bool)
  | number (n : Number)
  | text (s : String)
  | list
  | object
  /-- A bare name where a name with a value is needed. -/
  | bareName

def Found.message : Found → String
  | .null => "null"
  | .bool b => "boolean `" ++ (if b then "true" else "false") ++ "`"
  | .number (.natural n) => "integer `" ++ toString n ++ "`"
  | .number (.negative n) => "integer `-" ++ toString n ++ "`"
  | .number (.float x) => "floating point `" ++ Decimal.floatText x ++ "`"
  | .text s => "string " ++ Text.quoted s
  | .list => "sequence"
  | .object => "map"
  | .bareName => "unit variant"

/-- Names in backticks, as a choice is listed. -/
def choiceText (names : List String) : String :=
  ", ".intercalate (names.map fun name => "`" ++ name ++ "`")

/-- A number of elements, as a message counts them. -/
def elementsText (n : Nat) : String :=
  toString n ++ if n = 1 then " element" else " elements"

inductive Fault where
  | malformed (fault : SyntaxFault)
  | wrongKind (found : Found) (expected : String)
  | wrongLength (found : Nat) (expected : String)
  | missingMember (name : String)
  | duplicateMember (name : String)
  | unknownChoice (name : String) (choices : List String)
  | emptyModelPath

def Fault.message : Fault → String
  | .malformed fault => fault.message
  | .wrongKind found expected => "invalid type: " ++ found.message ++ ", expected " ++ expected
  | .wrongLength found expected => "invalid length " ++ toString found ++ ", expected " ++ expected
  | .missingMember name => "missing field `" ++ name ++ "`"
  | .duplicateMember name => "duplicate field `" ++ name ++ "`"
  | .unknownChoice name choices =>
    "unknown variant `" ++ name ++ "`, expected one of " ++ choiceText choices
  | .emptyModelPath => "model path must have at least one segment"

/-- A fault, the location of the value that could not be read, and how many bytes of the text were
left at the place that is pointed at. -/
structure Failure where
  location : Location
  fault : Fault
  remaining : Option Nat

namespace Failure

/-- The same failure seen from one level further out. -/
def under (step : Step) (f : Failure) : Failure :=
  { f with location := step :: f.location }

/-- A failure without a place is pointed at the given one. -/
def placedAt (remaining : Nat) (f : Failure) : Failure :=
  match f.remaining with
  | some _ => f
  | none => { f with remaining := some remaining }

/-- The text of a failure in reading `input`. -/
def message (input : List UInt8) (f : Failure) : String :=
  match f.remaining with
  | none => f.fault.message
  | some remaining =>
    let position := TextPosition.after (input.take (input.length - remaining))
    f.fault.message ++ s!" at line {position.line} column {position.column}"

end Failure

end SelectionModels.Json
