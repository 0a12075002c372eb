import Mathlib.Data.List.DropRight
import SelectionModels.Json.Reader.Tagged

/-! # Syntax trees

What a JSON text says before anybody asks what it is for: brackets with what is inside them, keys in
the order in which they are written, however often, and strings. The other values are told apart by
nobody here. Strings and numbers are held to no more than where they end, so every value has a tree
that any reader can go through, also one that is only skipped.

* `Tree.StandsAt`: the grammar, as a relation between a text, the tree at its front and what is
  behind it;
* `Tree.StandsAt.unique`: a text has one tree.
-/

namespace SelectionModels.Json

/-- A value as it is written. A key or a string whose bytes are no text has none. -/
inductive Tree where
  /-- `null`, a flag or a number. -/
  | plain
  | text (s : Option String)
  | list (items : List Tree)
  | object (members : List (Option String × Tree))

namespace Tree

open Reader

/-! ## The grammar -/

/-- A value without a bracket or a quote, after its first byte. -/
def plainEnd (b : UInt8) : Reader Unit :=
  match Opening.ofByte? (some b) with
  | .null => nullWord
  | .true => trueWord
  | .false => falseWord
  | .minus => skipUnsigned
  | .digit => skipAfterDigit b
  | _ => failHere .expectedValue

/-- What a string is read as, after its opening quote. -/
def stringText? (input : Bytes) : Option String :=
  match stringBody.run input with
  | .done s _ => some s
  | .failed _ _ => none

/-- What stands between the entries of a bracket: a comma before every one but the first. -/
def Separated (first : Bool) (input after : Bytes) : Prop :=
  if first then after = input else input.dropWhile isBlank = ','.toUInt8 :: after

/-- A key with its colon. -/
inductive KeyAt : Option String → Bytes → Bytes → Prop where
  | mk {input after behind rest : Bytes} (hquote : input.dropWhile isBlank = '"'.toUInt8 :: after)
    (hskip : skipString.run after = .done () behind)
    (hcolon : behind.dropWhile isBlank = ':'.toUInt8 :: rest) : KeyAt (stringText? after) input rest

mutual

/-- The tree at the front of a text, and what is behind it. -/
inductive StandsAt : Tree → Bytes → Bytes → Prop where
  | plain {input after rest : Bytes} {b : UInt8} (hstart : input.dropWhile isBlank = b :: after)
    (hend : (plainEnd b).run after = .done () rest) : StandsAt .plain input rest
  | text {input after rest : Bytes} (hstart : input.dropWhile isBlank = '"'.toUInt8 :: after)
    (hskip : skipString.run after = .done () rest) :
    StandsAt (.text (stringText? after)) input rest
  | list {items : List Tree} {input after rest : Bytes}
    (hstart : input.dropWhile isBlank = '['.toUInt8 :: after)
    (hitems : ItemsStandAt true items after rest) : StandsAt (.list items) input rest
  | object {members : List (Option String × Tree)} {input after rest : Bytes}
    (hstart : input.dropWhile isBlank = '\x7b'.toUInt8 :: after)
    (hmembers : MembersStandAt true members after rest) : StandsAt (.object members) input rest

/-- The items from here on, and what is behind their bracket. -/
inductive ItemsStandAt : (first : Bool) → List Tree → Bytes → Bytes → Prop where
  | nil {first : Bool} {input rest : Bytes} (hend : input.dropWhile isBlank = ']'.toUInt8 :: rest) :
    ItemsStandAt first [] input rest
  | cons {first : Bool} {t : Tree} {items : List Tree} {input after mid rest : Bytes}
    (hlead : Separated first input after) (hitem : StandsAt t after mid)
    (hlater : ItemsStandAt false items mid rest) : ItemsStandAt first (t :: items) input rest

/-- The members from here on, and what is behind their brace. -/
inductive MembersStandAt : (first : Bool) → List (Option String × Tree) → Bytes → Bytes → Prop where
  | nil {first : Bool} {input rest : Bytes}
    (hend : input.dropWhile isBlank = '\x7d'.toUInt8 :: rest) : MembersStandAt first [] input rest
  | cons {first : Bool} {name : Option String} {t : Tree} {members : List (Option String × Tree)}
    {input after behind mid rest : Bytes} (hlead : Separated first input after)
    (hkey : KeyAt name after behind) (hvalue : StandsAt t behind mid)
    (hlater : MembersStandAt false members mid rest) :
    MembersStandAt first ((name, t) :: members) input rest

end

/-- Blanks may be left out before a key. -/
theorem KeyAt.of_dropWhile {name : Option String} {input rest : Bytes}
    (h : KeyAt name (input.dropWhile isBlank) rest) : KeyAt name input rest := by
  obtain ⟨hquote, hskip, hcolon⟩ := h
  rw [List.dropWhile_idempotent] at hquote
  exact .mk hquote hskip hcolon

/-- Blanks may be left out before a value. -/
theorem StandsAt.of_dropWhile {t : Tree} {input rest : Bytes}
    (h : t.StandsAt (input.dropWhile isBlank) rest) : t.StandsAt input rest := by
  cases h with
  | plain hstart hend => exact .plain (by rwa [List.dropWhile_idempotent] at hstart) hend
  | text hstart hskip => exact .text (by rwa [List.dropWhile_idempotent] at hstart) hskip
  | list hstart hitems => exact .list (by rwa [List.dropWhile_idempotent] at hstart) hitems
  | object hstart hmembers =>
    exact .object (by rwa [List.dropWhile_idempotent] at hstart) hmembers

/-! ## One text, one tree -/

/-- A text that starts so may have the tree. -/
def mayOpen : Tree → Opening → Bool
  | .plain, .null | .plain, .true | .plain, .false | .plain, .minus | .plain, .digit => true
  | .text _, .quote => true
  | .list _, .bracket => true
  | .object _, .brace => true
  | _, _ => false

theorem StandsAt.mayOpen {t : Tree} {input rest : Bytes} (h : t.StandsAt input rest) :
    t.mayOpen (.ofByte? (input.dropWhile isBlank).head?) := by
  cases h with
  | @plain _ _ _ b hstart hend =>
    rw [hstart, List.head?_cons]
    unfold plainEnd at hend
    -- no other byte has an end to be read
    cases hopening : Opening.ofByte? (some b) <;> first | rfl | simp [hopening, failHere] at hend
  | text hstart => rw [hstart]; rfl
  | list hstart => rw [hstart]; rfl
  | object hstart => rw [hstart]; rfl

theorem Separated.unique {first : Bool} {input after after' : Bytes}
    (h : Separated first input after) (h' : Separated first input after') : after = after' := by
  cases first with
  | true => exact h.trans h'.symm
  | false => exact (List.cons.inj (h.symm.trans h')).2

theorem KeyAt.unique {name name' : Option String} {input rest rest' : Bytes}
    (h : KeyAt name input rest) (h' : KeyAt name' input rest') : name = name' ∧ rest = rest' := by
  obtain ⟨hquote, hskip, hcolon⟩ := h
  obtain ⟨hquote', hskip', hcolon'⟩ := h'
  obtain ⟨-, rfl⟩ := List.cons.inj (hquote.symm.trans hquote')
  obtain ⟨-, rfl⟩ := Outcome.done.inj (hskip.symm.trans hskip')
  obtain ⟨-, rfl⟩ := List.cons.inj (hcolon.symm.trans hcolon')
  exact ⟨rfl, rfl⟩

/-- Where a list ends, no item follows. -/
theorem Separated.not_standsAt {first : Bool} {t : Tree} {input after rest mid : Bytes}
    (h : Separated first input after) (hend : input.dropWhile isBlank = ']'.toUInt8 :: rest) :
    ¬t.StandsAt after mid := by
  intro hitem
  cases first with
  | true =>
    obtain rfl : after = input := h
    have hopens := hitem.mayOpen
    rw [hend] at hopens
    cases t <;> cases hopens
  | false => cases hend.symm.trans h

/-- Where an object ends, no key follows. -/
theorem Separated.not_keyAt {first : Bool} {name : Option String} {input after rest mid : Bytes}
    (h : Separated first input after) (hend : input.dropWhile isBlank = '\x7d'.toUInt8 :: rest) :
    ¬KeyAt name after mid := by
  rintro ⟨hquote, -, -⟩
  cases first with
  | true =>
    obtain rfl : after = input := h
    cases hend.symm.trans hquote
  | false => cases hend.symm.trans h

mutual

/-- A text has one tree, which ends at one place. -/
theorem StandsAt.unique : {t t' : Tree} → {input rest rest' : Bytes} → t.StandsAt input rest →
    t'.StandsAt input rest' → t = t' ∧ rest = rest'
  | _, _, _, _, _, .plain hstart hend, h' => by
    -- here and below the first byte tells what kind of tree stands there
    have hopens' := (StandsAt.plain hstart hend).mayOpen
    cases h' with
    | plain hstart' hend' =>
      obtain ⟨rfl, rfl⟩ := List.cons.inj (hstart.symm.trans hstart')
      obtain ⟨-, rfl⟩ := Outcome.done.inj (hend.symm.trans hend')
      exact ⟨rfl, rfl⟩
    | text hstart' => rw [hstart'] at hopens'; cases hopens'
    | list hstart' => rw [hstart'] at hopens'; cases hopens'
    | object hstart' => rw [hstart'] at hopens'; cases hopens'
  | _, _, _, _, _, .text hstart hskip, h' => by
    have hopens := h'.mayOpen
    rw [hstart] at hopens
    cases h' with
    | text hstart' hskip' =>
      obtain ⟨-, rfl⟩ := List.cons.inj (hstart.symm.trans hstart')
      obtain ⟨-, rfl⟩ := Outcome.done.inj (hskip.symm.trans hskip')
      exact ⟨rfl, rfl⟩
    | plain => cases hopens
    | list => cases hopens
    | object => cases hopens
  | _, _, _, _, _, .list hstart hitems, h' => by
    have hopens := h'.mayOpen
    rw [hstart] at hopens
    cases h' with
    | list hstart' hitems' =>
      obtain ⟨-, rfl⟩ := List.cons.inj (hstart.symm.trans hstart')
      obtain ⟨rfl, rfl⟩ := hitems.unique hitems'
      exact ⟨rfl, rfl⟩
    | plain => cases hopens
    | text => cases hopens
    | object => cases hopens
  | _, _, _, _, _, .object hstart hmembers, h' => by
    have hopens := h'.mayOpen
    rw [hstart] at hopens
    cases h' with
    | object hstart' hmembers' =>
      obtain ⟨-, rfl⟩ := List.cons.inj (hstart.symm.trans hstart')
      obtain ⟨rfl, rfl⟩ := hmembers.unique hmembers'
      exact ⟨rfl, rfl⟩
    | plain => cases hopens
    | text => cases hopens
    | list => cases hopens
termination_by structural _ _ _ _ _ h => h

theorem ItemsStandAt.unique : {first : Bool} → {items items' : List Tree} →
    {input rest rest' : Bytes} → ItemsStandAt first items input rest →
    ItemsStandAt first items' input rest' → items = items' ∧ rest = rest'
  | _, _, _, _, _, _, .nil hend, h' => by
    cases h' with
    | nil hend' =>
      obtain ⟨-, rfl⟩ := List.cons.inj (hend.symm.trans hend')
      exact ⟨rfl, rfl⟩
    | cons hlead hitem => exact absurd hitem (hlead.not_standsAt hend)
  | _, _, _, _, _, _, .cons hlead hitem hlater, h' => by
    cases h' with
    | nil hend => exact absurd hitem (hlead.not_standsAt hend)
    | cons hlead' hitem' hlater' =>
      obtain rfl := hlead.unique hlead'
      obtain ⟨rfl, rfl⟩ := hitem.unique hitem'
      obtain ⟨rfl, rfl⟩ := hlater.unique hlater'
      exact ⟨rfl, rfl⟩
termination_by structural _ _ _ _ _ _ h => h

theorem MembersStandAt.unique : {first : Bool} → {members members' : List (Option String × Tree)} →
    {input rest rest' : Bytes} → MembersStandAt first members input rest →
    MembersStandAt first members' input rest' → members = members' ∧ rest = rest'
  | _, _, _, _, _, _, .nil hend, h' => by
    cases h' with
    | nil hend' =>
      obtain ⟨-, rfl⟩ := List.cons.inj (hend.symm.trans hend')
      exact ⟨rfl, rfl⟩
    | cons hlead hkey => exact absurd hkey (hlead.not_keyAt hend)
  | _, _, _, _, _, _, .cons hlead hkey hvalue hlater, h' => by
    cases h' with
    | nil hend => exact absurd hkey (hlead.not_keyAt hend)
    | cons hlead' hkey' hvalue' hlater' =>
      obtain rfl := hlead.unique hlead'
      obtain ⟨rfl, rfl⟩ := hkey.unique hkey'
      obtain ⟨rfl, rfl⟩ := hvalue.unique hvalue'
      obtain ⟨rfl, rfl⟩ := hlater.unique hlater'
      exact ⟨rfl, rfl⟩
termination_by structural _ _ _ _ _ _ h => h

end

end Tree

end SelectionModels.Json
