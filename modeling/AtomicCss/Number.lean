/-!
# Binary64 numbers and their text

A number is its 64 bits. It is made by rounding a quotient (`Number.ofRatio`) and written by its
shortest decimal in a layout (`Layout.render`).
-/

namespace AtomicCss

/-! ## Binary64 numbers

A number is its 64 bits. The magnitude of a finite number is a whole multiple of `2 ^ (-1074)`, the
least positive magnitude, and `units` is that multiple. Two equalities are kept apart: equality of
bits, which is equality of numbers as data, and `sameValue`, which knows no NaN and one zero.
-/

/- Powers are those of core, whatever other instances are in scope. -/
attribute [local instance (high)] instPowNat

/-- An IEEE 754 binary64 number, given by its bits. -/
structure Number where
  bits : UInt64
deriving DecidableEq

namespace Number

/-- The bits below the sign. -/
def magnitudeBits : Nat := 63

/-- The bits below the exponent. -/
def fractionBits : Nat := 52

/-- The exponent, all ones, of the infinities and NaNs. -/
def specialExponent : Nat := 2047

/-- The least positive magnitude is `2 ^ (-unitPlaces)`. -/
def unitPlaces : Nat := 1074

def isNegative (x : Number) : Bool := 2 ^ magnitudeBits ≤ x.bits.toNat

/-- The eleven bits of the exponent. -/
def exponentField (x : Number) : Nat :=
  x.bits.toNat / 2 ^ fractionBits % (specialExponent + 1)

/-- The fifty-two bits of the fraction. -/
def fractionField (x : Number) : Nat := x.bits.toNat % 2 ^ fractionBits

/-- Whether the number is neither infinite nor a NaN. -/
def isFinite (x : Number) : Bool := x.exponentField ≠ specialExponent

def isNaN (x : Number) : Bool := x.exponentField = specialExponent ∧ x.fractionField ≠ 0

def isZero (x : Number) : Bool := x.exponentField = 0 ∧ x.fractionField = 0

/-- The significand of a finite number, with its leading bit unless it is subnormal. -/
def significand (x : Number) : Nat :=
  if x.exponentField = 0 then x.fractionField else 2 ^ fractionBits + x.fractionField

/-- The binary places between the significand and the least unit. -/
def shift (x : Number) : Nat := x.exponentField - 1

/-- The magnitude of a finite number in units of `2 ^ (-unitPlaces)`. -/
def units (x : Number) : Nat := x.significand * 2 ^ x.shift

/-- Equality of values: a NaN equals nothing, and the two zeros are equal. -/
def sameValue (x y : Number) : Bool :=
  !x.isNaN && !y.isNaN && (x == y || x.isZero && y.isZero)

/-- The number with a sign and the other 63 bits. -/
def ofSignAndRest (negative : Bool) (rest : Nat) : Number :=
  ⟨UInt64.ofNat (if negative then 2 ^ magnitudeBits + rest else rest)⟩

def infinity (negative : Bool) : Number :=
  ofSignAndRest negative (specialExponent * 2 ^ fractionBits)

/-- The NaN with only the first bit of its fraction set. -/
def nan : Number :=
  ofSignAndRest false (specialExponent * 2 ^ fractionBits + 2 ^ (fractionBits - 1))

def zero (negative : Bool) : Number := ofSignAndRest negative 0

end Number

/-! ## Rounding to binary64

`Number.ofRatio` is the binary64 number nearest to a quotient of natural numbers, a tie going to the
even significand, infinite from the overflow threshold on. Conversions and the two arithmetic
operations that reading decimals needs are stated through it.
-/

/-- The whole number nearest to `num / den`; a half goes to the even neighbour. -/
def roundQuotient (num den : Nat) : Nat :=
  let floor := num / den
  let rest := 2 * (num % den)
  if rest > den ∨ (rest = den ∧ floor % 2 = 1) then floor + 1 else floor

namespace Number

/-- The binary64 number nearest to `num / den`. The quotient in least units is cut to 53 binary
places; adding the cut significand to the exponent field carries into the next exponent by
itself. -/
def ofRatio (negative : Bool) (num den : Nat) : Number :=
  let scaled := num * 2 ^ unitPlaces
  let shift := Nat.log2 (scaled / den) - fractionBits
  let rest := shift * 2 ^ fractionBits + roundQuotient scaled (den * 2 ^ shift)
  if rest < specialExponent * 2 ^ fractionBits then ofSignAndRest negative rest
  else infinity negative

def ofNat (n : Nat) : Number := ofRatio false n 1

/-- The number nearest to an integer; zero is positive. -/
def ofInt (n : Int) : Number := ofRatio (n < 0) n.natAbs 1

/-- The bits below the sign of a binary32 number. -/
def singleMagnitudeBits : Nat := 31

/-- The bits below the exponent of a binary32 number. -/
def singleFractionBits : Nat := 23

/-- The least positive magnitude of binary32 is `2 ^ (-singleUnitPlaces)`. -/
def singleUnitPlaces : Nat := 149

/-- The number of a binary32 bit pattern. -/
def ofSingle (bits : UInt32) : Number :=
  let negative : Bool := 2 ^ singleMagnitudeBits ≤ bits.toNat
  let exponent := bits.toNat / 2 ^ singleFractionBits % 256
  let fraction := bits.toNat % 2 ^ singleFractionBits
  if exponent = 255 then if fraction = 0 then infinity negative else nan
  else
    let units :=
      if exponent = 0 then fraction else (2 ^ singleFractionBits + fraction) * 2 ^ (exponent - 1)
    ofRatio negative units (2 ^ singleUnitPlaces)

/-- The rounded product of two finite numbers. -/
def mul (x y : Number) : Number :=
  ofRatio (x.isNegative != y.isNegative) (x.units * y.units)
    (2 ^ (2 * unitPlaces))

/-- The rounded quotient of two finite numbers, the second not zero. -/
def div (x y : Number) : Number :=
  ofRatio (x.isNegative != y.isNegative) x.units y.units

def neg (x : Number) : Number := ofSignAndRest (!x.isNegative) (x.bits.toNat % 2 ^ magnitudeBits)

end Number

/-! ## Shortest decimals

The shortest decimal of a binary64 number is the decimal with the fewest digits that lies in the
interval of reals rounding to the number, and of several such the one nearest to it. Decimal grids
are tried from coarse to fine; on each only the two grid points around the number can be the answer.
-/

/-- The decimal `significand * 10 ^ exponent`. -/
structure Decimal where
  significand : Nat
  exponent : Int
deriving DecidableEq

/-- Which of two equally near decimals is taken. -/
inductive Tie
  | up
  | even
deriving DecidableEq

/-- Whether the upper of two grid points is taken, when the doubled distance to the lower one is
`twice` and the points are `step` apart. -/
def Tie.takesUpper (tie : Tie) (low twice step : Nat) : Bool :=
  match tie with
  | .up => step ≤ twice
  | .even => step < twice ∨ (step = twice ∧ low % 2 = 1)

/-- The reals that round to a positive number, as fractions over one denominator. -/
structure RoundingInterval where
  least : Nat
  exact : Nat
  most : Nat
  /-- Whether the ends belong to the interval. -/
  closed : Bool
deriving DecidableEq

namespace RoundingInterval

/-- The interval of a finite positive number over the denominator below: half a unit of its
significand to each side, but a quarter below a power of two. An even significand takes the ends. -/
def ofNumber (x : Number) : RoundingInterval where
  least := 4 * x.units -
    if x.significand = 2 ^ Number.fractionBits ∧ 0 < x.shift then 2 ^ x.shift else 2 * 2 ^ x.shift
  exact := 4 * x.units
  most := 4 * x.units + 2 * 2 ^ x.shift
  closed := x.significand % 2 = 0

/-- The denominator of the fractions: quarters of the least unit are whole. -/
def denominator : Nat := 2 ^ (Number.unitPlaces + 2)

/-- The decimals tried are multiples of `10 ^ (-places)`. -/
def places : Nat := 324

def contains (i : RoundingInterval) (multiple : Nat) : Bool :=
  let point := multiple * denominator
  let least := i.least * 10 ^ places
  let most := i.most * 10 ^ places
  if i.closed then least ≤ point ∧ point ≤ most else least < point ∧ point < most

/-- The best point of the grid of step `10 ^ grid` (in multiples of `10 ^ (-places)`), if one of the
two around the exact value lies in the interval. -/
def gridPoint? (i : RoundingInterval) (tie : Tie) (grid : Nat) : Option Nat :=
  let scaled := i.exact * 10 ^ places
  let step := 10 ^ grid * denominator
  let low := scaled / step
  match i.contains (low * 10 ^ grid), i.contains ((low + 1) * 10 ^ grid) with
  | false, false => none
  | true, false => some low
  | false, true => some (low + 1)
  | true, true =>
    some (if tie.takesUpper low (2 * (scaled % step)) step then low + 1 else low)

/-- The first grid with a point in the interval, from `grid` down. -/
def search (i : RoundingInterval) (tie : Tie) : (grid : Nat) → Decimal
  | 0 => ⟨(i.gridPoint? tie 0).getD 0, -(places : Int)⟩
  | grid + 1 =>
    match i.gridPoint? tie (grid + 1) with
    | some point => ⟨point, (grid : Int) + 1 - places⟩
    | none => i.search tie grid

end RoundingInterval

/-- The shortest decimal of the magnitude of a finite number. -/
def Number.shortest (x : Number) (tie : Tie) : Decimal :=
  if x.isZero then ⟨0, 0⟩
  else
    let i := RoundingInterval.ofNumber x
    let whole := i.exact * 10 ^ RoundingInterval.places / RoundingInterval.denominator
    i.search tie (Nat.toDigits 10 whole).length

/-! ## Number text

How the shortest decimal of a number is laid out: positionally or with an exponent. A layout holds
the decisions; the two in use are `Layout.style` for style sheets and `Layout.data` for JSON texts.
-/

/-- The decisions of a number format. -/
structure Layout where
  tie : Tie
  /-- Whether a number with this many digits before the point is written positionally. -/
  positional : Int → Bool
  /-- What follows a positional number without decimals. -/
  wholeMark : String
  /-- What precedes an exponent that is not negative. -/
  exponentPlus : String

namespace Layout

/-- Style sheets write all digits of numbers below `10 ^ 21` and nothing but digits, sign and point;
of two equally near decimals they take the larger. -/
def style : Layout where
  tie := .up
  positional := fun before => before ≤ 21
  wholeMark := ""
  exponentPlus := ""

/-- JSON texts write numbers from `10 ^ (-5)` to below `10 ^ 16` positionally, mark whole numbers as
numbers with decimals, and sign every exponent. -/
def data : Layout where
  tie := .even
  positional := fun before => -5 < before ∧ before ≤ 16
  wholeMark := ".0"
  exponentPlus := "+"

private def zeros (n : Nat) : List Char := List.replicate n '0'

/-- Digits with the decimal point behind the first `before` places. -/
def positionalText (l : Layout) (digits : List Char) (before : Int) : String :=
  if before ≤ 0 then
    String.ofList ('0' :: '.' :: zeros (-before).toNat ++ digits)
  else if digits.length ≤ before.toNat then
    String.ofList (digits ++ zeros (before.toNat - digits.length)) ++ l.wholeMark
  else
    String.ofList (digits.take before.toNat ++ '.' :: digits.drop before.toNat)

/-- One digit, the others behind the point, and an exponent. -/
def exponentText (l : Layout) (digits : List Char) (before : Int) : String :=
  let mantissa := match digits with
    | d :: rest@(_ :: _) => d :: '.' :: rest
    | short => short
  let exponent := before - 1
  let sign := if exponent < 0 then "-" else l.exponentPlus
  String.ofList mantissa ++ "e" ++ sign ++ toString exponent.natAbs

def magnitude (l : Layout) (x : Number) : String :=
  let d := x.shortest l.tie
  let digits := Nat.toDigits 10 d.significand
  let before := (digits.length : Int) + d.exponent
  if l.positional before then l.positionalText digits before else l.exponentText digits before

def render (l : Layout) (x : Number) : String :=
  if x.isNaN then "NaN"
  else
    let sign := if x.isNegative then "-" else ""
    sign ++ if x.isFinite then l.magnitude x else "inf"

end Layout

end AtomicCss
