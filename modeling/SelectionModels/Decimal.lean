/-! # Decimals of floating-point numbers

Among the decimals that read back as a given binary floating-point number, the one with the fewest
digits, and of those the nearest. The number is given exactly, as a significand times a power of
two; everything is computed in natural numbers.

* `Binary.readsBack`: whether a decimal reads back;
* `Binary.shortest`: the search over one, two, … digits, each time among the two neighbours of the
  number on the grid of that many digits;
* `Decimal.floatText`: the number as it is written, positionally or with an exponent.
-/

namespace SelectionModels

/-! ## The shortest decimal -/

/-- A positive decimal: `digits` times ten to the power `exponent`. -/
structure Decimal where
  digits : Nat
  exponent : Int
deriving DecidableEq, Repr

namespace Decimal

/-- A positive binary floating-point number `significand * 2 ^ exponent`. Its lower neighbour is
half a step nearer when the significand is the least of its binade. -/
structure Binary where
  significand : Nat
  exponent : Int
  narrowBelow : Bool
deriving DecidableEq, Repr

/-- The parts of a finite positive double. -/
def Binary.ofBits (bits : UInt64) : Binary :=
  let hidden := 0x10000000000000
  let fraction := bits.toNat % hidden
  let biased : Nat := bits.toNat / hidden % 0x800
  if biased = 0 then ⟨fraction, -1074, false⟩
  else ⟨hidden + fraction, (biased : Int) - 1075, fraction = 0 ∧ 1 < biased⟩

/-- A fraction of natural numbers. -/
structure Ratio where
  num : Nat
  den : Nat

def Ratio.le (a b : Ratio) : Bool := a.num * b.den ≤ b.num * a.den
def Ratio.lt (a b : Ratio) : Bool := a.num * b.den < b.num * a.den

/-- The number `n * base ^ e`. -/
def Ratio.scaled (n base : Nat) (e : Int) : Ratio :=
  if 0 ≤ e then ⟨n * base.pow e.toNat, 1⟩ else ⟨n, base.pow (-e).toNat⟩

def Binary.ratio (b : Binary) : Ratio := .scaled b.significand 2 b.exponent

/-- The decimals that round to a number lie between these two, which belong to them when the
significand is even. -/
def Binary.lower (b : Binary) : Ratio :=
  if b.narrowBelow then .scaled (4 * b.significand - 1) 2 (b.exponent - 2)
  else .scaled (2 * b.significand - 1) 2 (b.exponent - 1)

def Binary.upper (b : Binary) : Ratio :=
  .scaled (2 * b.significand + 1) 2 (b.exponent - 1)

/-- The decimal reads back as the number. -/
def Binary.readsBack (b : Binary) (d : Decimal) : Bool :=
  let r := Ratio.scaled d.digits 10 d.exponent
  if b.significand % 2 = 0 then b.lower.le r && r.le b.upper
  else b.lower.lt r && r.lt b.upper

/-- The neighbour below the number on the grid of multiples of ten to the power `e`. -/
def Binary.floorOn (b : Binary) (e : Int) : Nat :=
  let r := b.ratio
  if 0 ≤ e then r.num / (r.den * Nat.pow 10 e.toNat) else r.num * Nat.pow 10 (-e).toNat / r.den

/-- The power of ten at or just below the number, found from the lengths of its parts. -/
def Binary.leadingExponent (b : Binary) : Int :=
  let r := b.ratio
  let guess : Int := (Nat.toDigits 10 r.num).length - (Nat.toDigits 10 r.den).length
  if (Ratio.scaled 1 10 guess).le r then guess else guess - 1

/-- Of two neighbours on a grid the one that is nearer to the number; of two that are equally near
the even one. -/
def Binary.nearer (b : Binary) (below : Nat) (e : Int) : Nat :=
  let middle := Ratio.scaled (2 * below + 1) 10 e
  let doubled : Ratio := ⟨2 * b.ratio.num, b.ratio.den⟩
  if doubled.lt middle then below
  else if middle.lt doubled then below + 1
  else if below % 2 = 0 then below else below + 1

/-- The decimal of a grid that reads back, if there is one. -/
def Binary.onGrid? (b : Binary) (e : Int) : Option Decimal :=
  let below := b.floorOn e
  match b.readsBack ⟨below, e⟩ && 0 < below, b.readsBack ⟨below + 1, e⟩ with
  | true, true => some ⟨b.nearer below e, e⟩
  | true, false => some ⟨below, e⟩
  | false, true => some ⟨below + 1, e⟩
  | false, false => none

/-- The first grid with a hit, from coarse to fine. -/
def Binary.shortestFrom (b : Binary) : List Int → Decimal
  | [] => ⟨b.floorOn 0, 0⟩
  | e :: finer => (b.onGrid? e).getD (b.shortestFrom finer)

/-- The shortest decimal of a positive number: seventeen digits always suffice. -/
def Binary.shortest (b : Binary) : Decimal :=
  let lead := b.leadingExponent
  b.shortestFrom ((List.range 18).map fun (n : Nat) => lead + 1 - Int.ofNat n)

end Decimal

/-! ## Notation

From `10⁻⁵` up to `10¹⁶` a number is written positionally and always with a point; smaller and
larger numbers take a signed exponent after their digits. -/

namespace Decimal

/-- The digits of a decimal without the zeros at their end, and the power of ten of the first. -/
def normal (d : Decimal) : List Char × Int :=
  let digits := Nat.toDigits 10 d.digits
  let kept := (digits.reverse.dropWhile (· = '0')).reverse
  (kept, d.exponent + digits.length - 1)

/-- Digits with the point after the digit of the units, filled up with zeros. -/
def positional (digits : List Char) (lead : Int) : List Char :=
  if lead < 0 then
    ['0', '.'] ++ List.replicate (-lead - 1).toNat '0' ++ digits
  else
    let whole := lead.toNat + 1
    let fraction := digits.drop whole
    digits.take whole ++ List.replicate (whole - digits.length) '0' ++ ['.'] ++
      (if fraction.isEmpty then ['0'] else fraction)

/-- Digits with the point after the first, and a signed exponent. -/
def scientific (digits : List Char) (lead : Int) : List Char :=
  let mantissa := match digits with
    | first :: second :: rest => first :: '.' :: second :: rest
    | short => short
  mantissa ++ ['e', if lead < 0 then '-' else '+'] ++ Nat.toDigits 10 lead.natAbs

/-- The leading powers of ten that are written positionally. -/
def isPositional (lead : Int) : Bool :=
  -5 ≤ lead && lead ≤ 15

/-- The text of a finite double. -/
def floatText (x : Float) : String :=
  let bits := x.toBits
  let signBit : UInt64 := 0x8000000000000000
  let sign := if signBit ≤ bits then "-" else ""
  let magnitude := bits % signBit
  if magnitude = 0 then sign ++ "0.0"
  else
    let (digits, lead) := (Binary.ofBits magnitude).shortest.normal
    let form := if isPositional lead then positional else scientific
    sign ++ String.ofList (form digits lead)

end Decimal

end SelectionModels
