/-! # JSON values and their text

A JSON value, with the members of an object in the order in which they are written, and its text in
either of two layouts: on one line, or indented by two spaces a level. In both layouts an empty
array is `[]` and an empty object `{}`.

* `escapeChar`: what a JSON string must not hold as it is, written as an escape;
* `Value.render`: the text of a value, in one definition for both layouts.
-/

namespace SelectionModels.Json

/-- A number as it is written. -/
structure Numeral where
  negative : Bool
  whole : Nat
  /-- The digits after the point; none means that there is no point. -/
  fraction : List (Fin 10)
  /-- The sign (`true` is minus) and the size of the power of ten. -/
  exponent : Option (Bool × Nat)
deriving DecidableEq, Repr

/-- A natural number. -/
def Numeral.ofNat (n : Nat) : Numeral :=
  ⟨false, n, [], none⟩

/-- The digits of a natural number. -/
def natText (n : Nat) : String :=
  String.ofList (Nat.toDigits 10 n)

def Numeral.text (n : Numeral) : String :=
  (if n.negative then "-" else "") ++ natText n.whole ++
    (if n.fraction.isEmpty then ""
      else "." ++ String.ofList (n.fraction.map fun d => d.val.digitChar)) ++
    (match n.exponent with
    | none => ""
    | some (minus, size) => "e" ++ (if minus then "-" else "+") ++ natText size)

inductive Value where
  | null
  | bool (b : Bool)
  | number (n : Numeral)
  | string (s : String)
  | array (items : List Value)
  | object (members : List (String × Value))
deriving Repr

namespace Value

/-- A text that may be missing. -/
def optional : Option String → Value
  | none => .null
  | some s => .string s

/-- A list of texts. -/
def strings (names : List String) : Value :=
  .array (names.map .string)

def nat (n : Nat) : Value :=
  .number (.ofNat n)

end Value

/-! ## Texts -/

/-- One character inside a JSON string. -/
def escapeChar (c : Char) : String :=
  match c with
  | '"' => "\\\""
  | '\\' => "\\\\"
  | '\x08' => "\\b"
  | '\x0c' => "\\f"
  | '\n' => "\\n"
  | '\r' => "\\r"
  | '\t' => "\\t"
  | _ =>
    if c.toNat < 0x20 then
      "\\u00" ++ String.ofList [(c.toNat / 16).digitChar, (c.toNat % 16).digitChar]
    else c.toString

/-- A text as a JSON string. -/
def stringText (s : String) : String :=
  "\"" ++ String.join (s.toList.map escapeChar) ++ "\""

/-! ## Layouts -/

/-- How a value is laid out. -/
inductive Layout where
  /-- On one line, without blanks. -/
  | compact
  /-- One item or member a line, indented by two spaces a level. -/
  | pretty
deriving DecidableEq, Repr

/-- What stands before an item, a member or a closing bracket at a depth. -/
def Layout.lineStart : Layout → (depth : Nat) → String
  | .compact, _ => ""
  | .pretty, depth => "\n" ++ String.ofList (List.replicate (2 * depth) ' ')

/-- What stands between a key and its value. -/
def Layout.colon : Layout → String
  | .compact => ":"
  | .pretty => ": "

namespace Value

mutual

/-- The text of a value whose line is indented to `depth`. -/
def renderAt (layout : Layout) (depth : Nat) : Value → String
  | .null => "null"
  | .bool b => if b then "true" else "false"
  | .number n => n.text
  | .string s => stringText s
  | .array [] => "[]"
  | .array (v :: vs) =>
    "[" ++ layout.lineStart (depth + 1) ++ renderAt layout (depth + 1) v ++
      renderItems layout (depth + 1) vs ++ layout.lineStart depth ++ "]"
  | .object [] => "\x7b\x7d"
  | .object ((key, v) :: members) =>
    "\x7b" ++ layout.lineStart (depth + 1) ++ stringText key ++ layout.colon ++
      renderAt layout (depth + 1) v ++ renderMembers layout (depth + 1) members ++
      layout.lineStart depth ++ "\x7d"
termination_by structural v => v

/-- The items after the first. -/
def renderItems (layout : Layout) (depth : Nat) : List Value → String
  | [] => ""
  | v :: vs =>
    "," ++ layout.lineStart depth ++ renderAt layout depth v ++ renderItems layout depth vs
termination_by structural vs => vs

/-- The members after the first. -/
def renderMembers (layout : Layout) (depth : Nat) : List (String × Value) → String
  | [] => ""
  | (key, v) :: members =>
    "," ++ layout.lineStart depth ++ stringText key ++ layout.colon ++ renderAt layout depth v ++
      renderMembers layout depth members
termination_by structural members => members

end

/-- The text of a value. -/
def render (layout : Layout) (v : Value) : String :=
  v.renderAt layout 0

example : (object [("a", array [nat 1, null]), ("b", array [])]).render .compact =
    "\x7b\"a\":[1,null],\"b\":[]\x7d" := by decide +kernel

example : (array [string "x\ny", object []]).render .pretty =
    "[\n  \"x\\ny\",\n  \x7b\x7d\n]" := by decide +kernel

end Value

end SelectionModels.Json
