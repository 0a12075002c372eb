import SelectionModels.Json.Reader.Number
import SelectionModels.Json.Reader.Text

/-! # Skipping values

A value that nobody asks for is dropped. It has to be well-formed JSON, but it may nest as deeply as
it likes: the brackets that are open are kept in a list, so that skipping goes through the text once
from left to right.

* `skipStep`: one stretch of the walk, which always takes something (`takes_skipStep`);
* `skipValue`: a whole value.
-/

namespace SelectionModels.Json.Reader

/-- The two kinds of bracket. -/
inductive Bracket where
  | list
  | object
deriving DecidableEq, Repr

namespace Bracket

/-- The byte that closes a bracket. -/
def close : Bracket → UInt8
  | .list => ']'.toUInt8
  | .object => '\x7d'.toUInt8

/-- The text ends inside a bracket. -/
def eof : Bracket → SyntaxFault
  | .list => .eofInList
  | .object => .eofInObject

/-- Something else stands where a bracket goes on or ends. -/
def expectedCommaOrEnd : Bracket → SyntaxFault
  | .list => .expectedListCommaOrEnd
  | .object => .expectedObjectCommaOrEnd

end Bracket

/-- The colon after a key. -/
def colon : Reader Unit := do
  match ← takeToken with
  | none => failNext .eofInObject
  | some b => unless b = ':'.toUInt8 do failHere .expectedColon

/-- The key of a member that is skipped, and its colon. -/
def skipKey : Reader Unit := do
  match ← takeToken with
  | none => failNext .eofInObject
  | some b =>
    unless b = '"'.toUInt8 do failHere .keyMustBeString
    skipString
    colon

/-- A value up to its end or up to the inside of the bracket that it opens. -/
def skipStart : Reader (Option Bracket) := do
  match ← takeToken with
  | none => failNext .eofInValue
  | some b =>
    match Opening.ofByte? (some b) with
    | .null => nullWord; return none
    | .true => trueWord; return none
    | .false => falseWord; return none
    | .minus => skipUnsigned; return none
    | .digit => skipAfterDigit b; return none
    | .quote => skipString; return none
    | .bracket => return some .list
    | .brace => return some .object
    | .nothing | .other => failHere .expectedValue

/-- Where the walk stands. -/
inductive SkipPhase where
  /-- Just inside a bracket. -/
  | inside
  /-- Before an item or a member. -/
  | entry
  /-- Behind an item or a member. -/
  | behind
deriving DecidableEq, Repr

/-- Where the walk stands, and the brackets that are open, the innermost first. -/
abbrev SkipState := SkipPhase × List Bracket

/-- Behind a value the walk goes on in what encloses it, if anything does. -/
def behindValue (enclosing : List Bracket) : Option SkipState :=
  if enclosing.isEmpty then none else some (.behind, enclosing)

/-- What stands before a value: a key inside an object, and nothing elsewhere. -/
def skipLabel (enclosing : List Bracket) : Reader Unit :=
  if enclosing.head? = some .object then skipKey else pure ()

/-- An item or a member, or the value itself when nothing is open. -/
def skipEntry (enclosing : List Bracket) : Reader (Option SkipState) := do
  skipLabel enclosing
  match ← skipStart with
  | some bracket => return some (.inside, bracket :: enclosing)
  | none => return behindValue enclosing

/-- One stretch of the walk: where it stands then, unless it is over. -/
def skipStep : SkipState → Reader (Option SkipState)
  | (.inside, bracket :: outer) => do
    if ← takeIf bracket.close then return behindValue outer
    else match ← peekToken with
      | none => failNext bracket.eof
      | some _ => skipEntry (bracket :: outer)
  | (.behind, bracket :: outer) => do
    match ← takeToken with
    | none => failNext bracket.eof
    | some b =>
      if b = ','.toUInt8 then return some (.entry, bracket :: outer)
      else if b = bracket.close then return behindValue outer
      else failHere bracket.expectedCommaOrEnd
  | (_, enclosing) => skipEntry enclosing

theorem takes_skipStart : skipStart.Takes :=
  takes_takeToken_bind (takes_failNext _)

theorem takes_skipEntry (enclosing : List Bracket) : (skipEntry enclosing).Takes :=
  .bind_of_right (fun _ => .bind_of_left takes_skipStart _) _

theorem takes_skipStep (state : SkipState) : (skipStep state).Takes := by
  unfold skipStep
  split
  · refine takes_takeIf_bind (.bind_of_right (fun next => ?_) _)
    cases next with
    | none => exact takes_failNext _
    | some _ => exact takes_skipEntry _
  · exact takes_takeToken_bind (takes_failNext _)
  · exact takes_skipEntry _

/-- The walk to its end. -/
def skipFrom (state : SkipState) (input : Bytes) : Outcome Unit :=
  match h : (skipStep state).run input with
  | .failed failure rest => .failed failure rest
  | .done none rest => .done () rest
  | .done (some state') rest =>
    have := takes_skipStep state h
    skipFrom state' rest
termination_by input.length

theorem skipFrom_length_le {state : SkipState} {input rest : Bytes} {value : Unit}
    (h : skipFrom state input = .done value rest) : rest.length ≤ input.length := by
  fun_induction skipFrom state input with
  | case1 => cases h
  | case2 _ _ _ h' => cases h; exact (skipStep _).length_le h'
  | case3 _ _ _ _ _ hlt ih => exact Nat.le_trans (ih h) (Nat.le_of_lt hlt)

/-- A value that is skipped. -/
def skipValue : Reader Unit where
  run := skipFrom (.entry, [])
  length_le := skipFrom_length_le

end SelectionModels.Json.Reader
