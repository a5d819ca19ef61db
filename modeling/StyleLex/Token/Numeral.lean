/-
# Numerals

A numeral keeps its digits by part, as values, and says in which base they are.  It is read from
the front of a byte list; with extensions switched on, single `_` may stand between digits, a
number may be written in base 2, 8 or 16, the fraction after a dot may be empty, and one or two
`_` at the end are swallowed.

    decimal   = [sign] (digits ["." digits] | "." digits) [("e"|"E") [sign] digits]
    prefixed  = [sign] "0" ("b"|"o"|"x") digits

`Numeral.read?` takes the longest such text.
-/
import StyleLex.Byte

namespace StyleLex

/-! ## 1. The number -/

structure Numeral where
  /-- 2, 8, 10 or 16. -/
  base : Nat
  negative : Bool := false
  exponentNegative : Bool := false
  /-- Digit values, the most significant first; likewise below. -/
  integer : List UInt8 := []
  fraction : List UInt8 := []
  exponent : List UInt8 := []
  deriving DecidableEq, Repr

namespace Numeral

/-- The integer that digits spell, the most significant first. -/
def horner (base : Float) (digits : List UInt8) : Float :=
  digits.foldl (fun value digit => value * base + digit.toFloat) 0.0

/-- The fraction that digits spell, worked from the last digit. -/
def hornerBelow (base : Float) (digits : List UInt8) : Float :=
  digits.reverse.foldl (fun value digit => (value + digit.toFloat) / base) 0.0

/-- The value: integer and fraction, times the base to the exponent. -/
def value (numeral : Numeral) : Float :=
  let base := Float.ofNat numeral.base
  let integer := horner base numeral.integer
  let fraction := hornerBelow base numeral.fraction
  let exponent := horner base numeral.exponent
  let mantissa :=
    if numeral.negative then (-integer) + (-fraction) else integer + fraction
  mantissa * base.pow (if numeral.exponentNegative then -exponent else exponent)

/-! ## 2. Runs of digits -/

/-- Does a byte list begin with a byte of a class? -/
def beginsWith (isMember : UInt8 → Bool) (bytes : List UInt8) : Bool := bytes.head?.any isMember

/-- Adds the digits at the front of `bytes` to `digits`, and their bytes to `length`.  A
separator counts if separators are allowed and a digit follows it. -/
def digitsOnto (isDigit : UInt8 → Bool) (separated : Bool) (digits : Array UInt8) (length : Nat) :
    List UInt8 → Array UInt8 × Nat
  | [] => (digits, length)
  | b :: rest =>
    if isDigit b then
      digitsOnto isDigit separated (digits.push (Byte.digitValue b)) (length + 1) rest
    else if separated && b == Byte.underscore && beginsWith isDigit rest then
      digitsOnto isDigit separated digits (length + 1) rest
    else (digits, length)

/-- The digits at the front of a byte list, and how many bytes they take. -/
def digitRun (isDigit : UInt8 → Bool) (separated : Bool) (bytes : List UInt8) :
    List UInt8 × Nat :=
  let run := digitsOnto isDigit separated #[] 0 bytes
  (run.1.toList, run.2)

/-- One or two separators that a numeral swallows at its end. -/
def trailingLength (extended : Bool) : List UInt8 → Nat
  | b :: rest =>
    if extended && b == Byte.underscore then
      if rest.head? == some Byte.underscore then 2 else 1
    else 0
  | [] => 0

/-! ## 3. Reading -/

/-- The length of a sign at the front, and whether it is a minus. -/
def readSign : List UInt8 → Nat × Bool
  | b :: _ => if Byte.isSign b then (1, b == Byte.hyphen) else (0, false)
  | [] => (0, false)

/-- The digits of a base after `0` and the letter of the base. -/
def readPrefixed? (base : Nat) (letter : UInt8) (bytes : List UInt8) : Option (Numeral × Nat) :=
  let sign := readSign bytes
  match bytes.drop sign.1 with
  | lead :: mark :: rest =>
    if lead == Byte.zero && Byte.isLetterOf letter mark && beginsWith (Byte.isDigitOf base) rest
    then
      let run := digitRun (Byte.isDigitOf base) true rest
      let length := sign.1 + 2 + run.2
      some ({ base := base, negative := sign.2, integer := run.1 },
        length + trailingLength true (bytes.drop length))
    else none
  | _ => none

/-- The part after a dot: its digits, and the bytes of dot and digits.  A dot with no digit after
it belongs to the number in extended dialects only. -/
def readFraction (extended : Bool) : List UInt8 → List UInt8 × Nat
  | b :: rest =>
    if b == Byte.dot && (extended || beginsWith Byte.isDecimal rest) then
      let run := digitRun Byte.isDecimal extended rest
      (run.1, run.2 + 1)
    else ([], 0)
  | [] => ([], 0)

/-- The exponent: its digits, its sign, and the bytes of mark, sign and digits. -/
def readExponent (extended : Bool) : List UInt8 → List UInt8 × Bool × Nat
  | mark :: rest =>
    let sign := readSign rest
    let digits := rest.drop sign.1
    if Byte.isLetterOf 0x65 mark && beginsWith Byte.isDecimal digits then
      let run := digitRun Byte.isDecimal extended digits
      (run.1, sign.2, 1 + sign.1 + run.2)
    else ([], false, 0)
  | [] => ([], false, 0)

/-- A decimal number: it begins with a digit, or with a dot and a digit, after at most a sign. -/
def readDecimal? (extended : Bool) (bytes : List UInt8) : Option (Numeral × Nat) :=
  let sign := readSign bytes
  let unsigned := bytes.drop sign.1
  if beginsWith Byte.isDecimal unsigned ||
      (unsigned.head? == some Byte.dot && beginsWith Byte.isDecimal unsigned.tail) then
    let integer := digitRun Byte.isDecimal extended unsigned
    let fraction := readFraction extended (unsigned.drop integer.2)
    let exponent := readExponent extended (unsigned.drop (integer.2 + fraction.2))
    let length := sign.1 + integer.2 + fraction.2 + exponent.2.2
    some
      ({ base := 10
         negative := sign.2
         exponentNegative := exponent.2.1
         integer := integer.1
         fraction := fraction.1
         exponent := exponent.1 },
        length + trailingLength extended (bytes.drop length))
  else none

/-- The numeral at the front of a byte list, and its length; a prefixed number comes before the
zero that it begins with. -/
def read? (extended : Bool) (bytes : List UInt8) : Option (Numeral × Nat) :=
  if extended then
    readPrefixed? 2 0x62 bytes <|> readPrefixed? 8 0x6F bytes <|> readPrefixed? 16 0x78 bytes <|>
      readDecimal? extended bytes
  else readDecimal? extended bytes

end Numeral
end StyleLex
