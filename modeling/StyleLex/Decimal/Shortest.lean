/-
# The fewest digits that identify a number

A finite binary number is the only one of its format within an interval of reals: the reals
between the two midpoints to its neighbours.  The ends belong to the interval exactly when the
number's significand is even, for a midpoint reads back as the even one of its neighbours.

`Interval.shortest` walks the decimal grids from coarse to fine and takes the first that has a
point in the interval; of two such points the nearer one, and `Tie` says which of two equally
near ones.  All arithmetic is on natural numbers: the number and both ends are fractions over one
denominator.
-/

namespace StyleLex
namespace Decimal

/-- Two to the power `n`. -/
def twoTo (n : Nat) : Nat := Nat.pow 2 n

/-- Ten to the power `n`. -/
def tenTo (n : Nat) : Nat := Nat.pow 10 n

/-! ## 1. The interval of a number -/

/-- Which of two equally near decimals is taken. -/
inductive Tie where
  | toEven
  | up
  deriving DecidableEq, Repr

/-- A positive number `value / denominator`, and the ends of the interval of reals that read back
as it. -/
structure Interval where
  value : Nat
  low : Nat
  high : Nat
  denominator : Nat
  /-- Do the ends read back as the number? -/
  closed : Bool
  deriving DecidableEq, Repr

/-- The digits of a decimal and the power of ten that they count. -/
structure Digits where
  coefficient : Nat
  exponent : Int
  deriving DecidableEq, Repr

/-- The exponent and fraction fields of a binary64 pattern; the sign is left out. -/
def fields (bits : UInt64) : Nat × Nat :=
  (((bits >>> 52) &&& 0x7FF).toNat, (bits &&& 0xFFFFFFFFFFFFF).toNat)

/-- Significand and binary exponent of a finite pattern. -/
def significand (bits : UInt64) : Nat × Int :=
  match fields bits with
  | (0, fraction) => (fraction, -1074)
  | (exponent, fraction) => (twoTo 52 + fraction, (exponent : Int) - 1075)

/-- The interval of a finite, nonzero pattern.  At a power of two the neighbour below is half as
far away as the one above, unless both are subnormal. -/
def Interval.ofBits (bits : UInt64) : Interval :=
  let (m, q) := significand bits
  let (exponent, fraction) := fields bits
  let below := if fraction = 0 ∧ 1 < exponent then 1 else 2
  let scale := twoTo (q - 2).toNat
  { value := 4 * m * scale
    low := (4 * m - below) * scale
    high := (4 * m + 2) * scale
    denominator := twoTo (2 - q).toNat
    closed := m % 2 = 0 }

/-! ## 2. Decimal grids -/

namespace Interval

/-- The interval in units of ten to the exponent. -/
def inUnits (x : Interval) (exponent : Int) : Interval :=
  let finer := tenTo (-exponent).toNat
  { x with
    value := x.value * finer
    low := x.low * finer
    high := x.high * finer
    denominator := x.denominator * tenTo exponent.toNat }

/-- Does the integer lie in the interval? -/
def holds (x : Interval) (n : Nat) : Bool :=
  let point := n * x.denominator
  if x.closed then x.low ≤ point && point ≤ x.high else x.low < point && point < x.high

/-- The integer of the interval nearest to the number, if one of the two around it lies there. -/
def nearest? (x : Interval) (tie : Tie) : Option Nat :=
  let below := x.value / x.denominator
  match x.holds below, x.holds (below + 1) with
  | false, false => none
  | true, false => some below
  | false, true => some (below + 1)
  | true, true =>
    match compare (2 * x.value) ((2 * below + 1) * x.denominator), tie with
    | .lt, _ => some below
    | .gt, _ => some (below + 1)
    | .eq, .up => some (below + 1)
    | .eq, .toEven => some (if below % 2 = 0 then below else below + 1)

/-- Is the number below ten to the power? -/
def belowPower (x : Interval) (power : Int) : Bool :=
  x.value * tenTo (-power).toNat < x.denominator * tenTo power.toNat

/-- The least power at or above `power` whose power of ten exceeds the number; at most `tries`
steps are taken. -/
def raisePower (x : Interval) : Nat → Int → Int
  | 0, power => power
  | tries + 1, power => if x.belowPower power then power else raisePower x tries (power + 1)

/-- The least power of ten above the number.  The estimate from the binary logarithm is never too
large. -/
def power (x : Interval) : Int :=
  let log := (x.value.log2 : Int) - x.denominator.log2 - 1
  raisePower x 3 (log * 30102 / 100000)

/-- Drops the zeros at the end of the coefficient. -/
def dropZeros : Nat → Digits → Digits
  | 0, digits => digits
  | n + 1, digits =>
    if digits.coefficient ≠ 0 ∧ digits.coefficient % 10 = 0 then
      dropZeros n ⟨digits.coefficient / 10, digits.exponent + 1⟩
    else digits

/-- Tries the grids of `count` digits and more. -/
def search (x : Interval) (tie : Tie) (power : Int) : Nat → Nat → Option Digits
  | 0, _ => none
  | tries + 1, count =>
    let exponent := power - count
    match (x.inUnits exponent).nearest? tie with
    | some n => some ⟨n, exponent⟩
    | none => search x tie power tries (count + 1)

/-- The shortest decimal in the interval.  Seventeen digits always suffice. -/
def shortest (x : Interval) (tie : Tie) : Digits :=
  match search x tie x.power 17 1 with
  | some digits => dropZeros 20 digits
  | none => ⟨0, 0⟩

end Interval
end Decimal
end StyleLex
