/-
# How numbers are written

`Layout` holds the decisions of a number format; two formats are in use, one for people and one
for JSON.  Both write the fewest digits that identify the number.  `fixed` writes a set number of
places, rounded once from the exact value.
-/
import StyleLex.Decimal.Shortest

namespace StyleLex
namespace Decimal

/-! ## 1. Formats -/

structure Layout where
  /-- The decimal exponents of the leading digit that are written without an exponent: from the
  first up to, and not including, the second.  Absent: all of them. -/
  plain : Option (Int × Int)
  /-- Is a whole number written with `.0`? -/
  pointZero : Bool
  tie : Tie
  /-- The text of a number that is not finite; absent for the sign and the word. -/
  nonFinite : Option String
  deriving Repr

/-- The format for people: no exponent, no needless point, a half goes up. -/
def shown : Layout := ⟨none, false, .up, none⟩

/-- The format of JSON numbers: an exponent outside 1e-5 … 1e16, `null` for what is no number. -/
def json : Layout := ⟨some (-5, 16), true, .toEven, some "null"⟩

/-! ## 2. Writing digits -/

def zeros (n : Nat) : List Char := List.replicate n '0'

/-- The digits of a natural number, the most significant first. -/
def digitChars (n : Nat) : List Char := Nat.toDigits 10 n

/-- Digits with the point after the first `whole` of them, and zeros where there is no digit. -/
def placePoint (digits : List Char) (whole : Int) (pointZero : Bool) : List Char :=
  if whole ≤ 0 then '0' :: '.' :: (zeros (-whole).toNat ++ digits)
  else
    let n := whole.toNat
    if digits.length ≤ n then
      digits ++ zeros (n - digits.length) ++ (if pointZero then ['.', '0'] else [])
    else digits.take n ++ '.' :: digits.drop n

/-- One digit, the rest after a point, and a signed exponent. -/
def withExponent (digits : List Char) (leading : Int) : List Char :=
  digits.take 1 ++ (if digits.length ≤ 1 then [] else '.' :: digits.drop 1) ++
  'e' :: (if leading < 0 then '-' else '+') :: digitChars leading.natAbs

/-- A positive decimal in a layout. -/
def layOut (layout : Layout) (digits : Digits) : List Char :=
  let chars := digitChars digits.coefficient
  let whole := (chars.length : Int) + digits.exponent
  match layout.plain with
  | none => placePoint chars whole layout.pointZero
  | some (least, bound) =>
    if least ≤ whole - 1 ∧ whole - 1 < bound then placePoint chars whole layout.pointZero
    else withExponent chars (whole - 1)

/-! ## 3. Writing numbers -/

def isNegative (bits : UInt64) : Bool := bits >>> 63 == 1

/-- A number in a layout. -/
def write (layout : Layout) (x : Float) : String :=
  let bits := x.toBits
  let magnitude := bits &&& 0x7FFFFFFFFFFFFFFF
  let sign := if isNegative bits then "-" else ""
  if x.isNaN then layout.nonFinite.getD "NaN"
  else if x.isInf then layout.nonFinite.getD (sign ++ "inf")
  else if magnitude == 0 then sign ++ (if layout.pointZero then "0.0" else "0")
  else
    sign ++ String.ofList (layOut layout ((Interval.ofBits magnitude).shortest layout.tie))

/-- The quotient rounded to the nearest integer, a half to the even one. -/
def roundQuotient (numerator denominator : Nat) : Nat :=
  let quotient := numerator / denominator
  match compare (2 * (numerator % denominator)) denominator with
  | .lt => quotient
  | .gt => quotient + 1
  | .eq => if quotient % 2 = 0 then quotient else quotient + 1

/-- The number with a set count of places after the point, rounded once from its exact value. -/
def fixed (places : Nat) (x : Float) : String :=
  let bits := x.toBits
  let sign := if isNegative bits then "-" else ""
  if x.isNaN then "NaN"
  else if x.isInf then sign ++ "inf"
  else
    let (m, q) := significand bits
    let scaled := roundQuotient (m * twoTo q.toNat * tenTo places) (twoTo (-q).toNat)
    let digits := digitChars scaled
    let padded := zeros (places + 1 - digits.length) ++ digits
    let whole := padded.length - places
    sign ++ String.ofList
      (if places = 0 then padded else padded.take whole ++ '.' :: padded.drop whole)

end Decimal
end StyleLex
