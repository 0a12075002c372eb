/-! # Glob patterns

A pattern for one name or for a whole path: `?` stands for one character, `*` for any number of
them, `[…]` for one of some characters and `[!…]` for one of all others; every other character
stands for itself. Two stars are a component of their own, which stands for any number of
directories.

* `Pattern.parse`: the tokens of a pattern, or what is wrong with it and where;
* `Pattern.admitsChars`: whether tokens fit a name, said token by token;
* `Pattern.admits`: the same by a table; `Pattern.admits_eq_admitsChars` says that it is the same.
-/

namespace SelectionModels.Glob

/-- What stands between the brackets of a class: a character or a range. -/
inductive ClassItem where
  | single (c : Char)
  | range (first last : Char)
deriving DecidableEq, Repr

def ClassItem.admits (c : Char) : ClassItem → Bool
  | .single d => c = d
  | .range first last => first ≤ c && c ≤ last

inductive Token where
  | char (c : Char)
  | anyChar
  | anyName
  | anyDirectories
  | oneOf (items : List ClassItem)
  | noneOf (items : List ClassItem)
deriving DecidableEq, Repr

abbrev Pattern := List Token

/-- What is wrong with a pattern. -/
inductive PatternFault where
  | manyStars
  | starsInName
  | badClass
deriving DecidableEq, Repr

def PatternFault.message : PatternFault → String
  | .manyStars => "wildcards are either regular `*` or recursive `**`"
  | .starsInName => "recursive wildcards must form a single path component"
  | .badClass => "invalid range pattern"

/-- A fault and the character that it is found at, counted from zero. -/
structure PatternError where
  position : Nat
  fault : PatternFault
deriving DecidableEq, Repr

def PatternError.message (e : PatternError) : String :=
  s!"Pattern syntax error near position {e.position}: " ++ e.fault.message

namespace Pattern

/-! ## Parsing -/

/-- The items of a class. A minus between two characters makes a range of the three. -/
def classItems : List Char → List ClassItem
  | a :: '-' :: b :: rest => .range a b :: classItems rest
  | a :: rest => .single a :: classItems rest
  | [] => []

/-- Cuts after the first character and then at the first closing bracket, which may not be that
first character: what is inside, and what follows the bracket. -/
def cutClass? : List Char → Option (List Char × List Char)
  | [] => none
  | first :: rest =>
    match rest.span (· ≠ ']') with
    | (inside, _ :: after) => some (first :: inside, after)
    | (_, []) => none

/-- A class after its opening bracket: its token, and what follows it. -/
def parseClass? : List Char → Option (Token × List Char)
  | '!' :: rest => (cutClass? rest).map fun (inside, after) => (.noneOf (classItems inside), after)
  | rest => (cutClass? rest).map fun (inside, after) => (.oneOf (classItems inside), after)

/-- The tokens from a position on. `before` is the character before it, and every round takes at
least one of the characters that are counted by `fuel`. -/
def parseFrom (fuel : Nat) (position : Nat) (before : Option Char) (cs : List Char) :
    Except PatternError Pattern :=
  match fuel, cs with
  | _, [] => .ok []
  | 0, _ => .ok []
  | fuel + 1, '?' :: rest => do
    return .anyChar :: (← parseFrom fuel (position + 1) (some '?') rest)
  | fuel + 1, '*' :: rest => do
    let stars := 1 + (rest.takeWhile (· = '*')).length
    let after := rest.dropWhile (· = '*')
    if stars = 1 then
      return .anyName :: (← parseFrom fuel (position + 1) (some '*') after)
    else if 2 < stars then throw ⟨position + 2, .manyStars⟩
    else if before ≠ none ∧ before ≠ some '/' then throw ⟨position - 1, .starsInName⟩
    else match after with
      | [] => return [.anyDirectories]
      | '/' :: deeper =>
        return .anyDirectories :: (← parseFrom fuel (position + 3) (some '/') deeper)
      | _ => throw ⟨position + 2, .starsInName⟩
  | fuel + 1, '[' :: rest => do
    match parseClass? rest with
    | none => throw ⟨position, .badClass⟩
    | some (token, after) =>
      let taken := 1 + (rest.length - after.length)
      return token :: (← parseFrom fuel (position + taken) (some ']') after)
  | fuel + 1, c :: rest => do
    return .char c :: (← parseFrom fuel (position + 1) (some c) rest)

/-- The tokens of a pattern. -/
def parse (pattern : String) : Except PatternError Pattern :=
  parseFrom pattern.length 0 none pattern.toList

/-! ## Matching -/

/-- The token is one that stands for a single character, and fits it. -/
def tokenAdmits (c : Char) : Token → Bool
  | .char d => c = d
  | .anyChar => true
  | .oneOf items => items.any (·.admits c)
  | .noneOf items => !items.any (·.admits c)
  | .anyName | .anyDirectories => false

/-- A star followed by what `rest` tests: some suffix of the name fits. -/
def anySuffix (rest : List Char → Bool) : List Char → Bool
  | [] => rest []
  | c :: cs => rest (c :: cs) || anySuffix rest cs

/-- The tokens fit the characters of a name. -/
def admitsChars : Pattern → List Char → Bool
  | [], cs => cs.isEmpty
  | .anyName :: ts, cs => anySuffix (admitsChars ts) cs
  | .anyDirectories :: ts, cs => anySuffix (admitsChars ts) cs
  | t :: ts, c :: cs => tokenAdmits c t && admitsChars ts cs
  | _ :: _, [] => false

/-! ## Matching in bounded time

Trying every suffix at every star takes time without a reasonable bound, so a name is matched by a
table: for each suffix of the pattern, the shortest first, one answer for each suffix of the name.
-/

/-- The answer for the longest of the suffixes that a row is about. -/
def longest (row : List Bool) : Bool :=
  row.headD false

/-- The row of a star: some suffix from here on is fitted by what follows the star. -/
def starRow : List Bool → List Bool
  | [] => []
  | b :: row =>
    let later := starRow row
    (b || longest later) :: later

/-- The row of a token for a single character: the first character fits the token, and the rest is
fitted by what follows it. -/
def characterRow (t : Token) : List Char → List Bool → List Bool
  | c :: cs, _ :: row => (tokenAdmits c t && longest row) :: characterRow t cs row
  | _, _ => [false]

/-- For each suffix of a name, the longest first, whether the tokens fit it. -/
def suffixRow : Pattern → List Char → List Bool
  | [], cs => List.replicate cs.length false ++ [true]
  | .anyName :: ts, cs => starRow (suffixRow ts cs)
  | .anyDirectories :: ts, cs => starRow (suffixRow ts cs)
  | t :: ts, cs => characterRow t cs (suffixRow ts cs)

theorem longest_starRow {ts : Pattern} (nil : suffixRow ts [] = [admitsChars ts []])
    (cons : ∀ c cs, suffixRow ts (c :: cs) = admitsChars ts (c :: cs) :: suffixRow ts cs)
    (cs : List Char) :
    longest (starRow (suffixRow ts cs)) = anySuffix (admitsChars ts) cs := by
  induction cs with
  | nil => simp [nil, starRow, longest, anySuffix]
  | cons c cs ih => simp [cons, starRow, anySuffix, ← ih, longest]

theorem suffixRow_nil (p : Pattern) : suffixRow p [] = [admitsChars p []] := by
  induction p with
  | nil => simp [suffixRow, admitsChars]
  | cons t ts ih =>
    cases t <;> simp [suffixRow, admitsChars, anySuffix, characterRow, starRow, longest, ih]

theorem suffixRow_cons (p : Pattern) (c : Char) (cs : List Char) :
    suffixRow p (c :: cs) = admitsChars p (c :: cs) :: suffixRow p cs := by
  induction p generalizing c cs with
  | nil => simp [suffixRow, admitsChars, List.replicate_succ]
  | cons t ts ih =>
    have star := longest_starRow (suffixRow_nil ts) ih cs
    have row : longest (suffixRow ts cs) = admitsChars ts cs := by
      cases cs with
      | nil => simp [suffixRow_nil, longest]
      | cons d ds => simp [ih, longest]
    cases t <;>
      simp [suffixRow, admitsChars, anySuffix, characterRow, starRow, ih, star, row]

/-- The pattern fits the name. -/
def admits (p : Pattern) (name : String) : Bool :=
  longest (suffixRow p name.toList)

theorem admits_eq_admitsChars (p : Pattern) (name : String) :
    p.admits name = admitsChars p name.toList := by
  unfold admits
  cases name.toList with
  | nil => simp [suffixRow_nil, longest]
  | cons c cs => simp [suffixRow_cons, longest]

/-- The name that a pattern without wildcards stands for. -/
def literal? (p : Pattern) : Option String :=
  String.ofList <$> p.mapM fun
    | .char c => some c
    | _ => none

/-- The component that stands for any number of directories. -/
def isAnyDirectories (p : Pattern) : Bool :=
  p.contains .anyDirectories

end Pattern

/-- The text is meant as a pattern, not as the path of a file. -/
def isPattern (text : String) : Bool :=
  text.toList.any fun c => c = '*' || c = '?' || c = '[' || c = '\x7b'

end SelectionModels.Glob
