/-
# Values of TOML

A value is a text, a number, a truth value, a date or a time, or holds other values.  Dates and
times are checked and kept as they were written.
-/
import StyleLex.Toml.Text

namespace StyleLex
namespace Toml

inductive Value where
  | string (text : String)
  | integer (value : Int)
  | float (value : Float)
  | boolean (value : Bool)
  /-- A date, a time, or both. -/
  | time (text : String)
  | array (items : List Value)
  | table (fields : List (String × Value))

/-! ## 1. Digits -/

/-- Digits of a class at the front, single `_` standing between them; the digits without them. -/
def readDigitsOnto (isDigit : Char → Bool) (taken : List Char) : List Char → List Char × List Char
  | c :: rest =>
    if isDigit c then readDigitsOnto isDigit (c :: taken) rest
    else if c == '_' && !taken.isEmpty && rest.head?.any isDigit then
      readDigitsOnto isDigit taken rest
    else (taken.reverse, c :: rest)
  | [] => (taken.reverse, [])

/-- Digits, at least one; no `_` may follow them. -/
def readDigits (isDigit : Char → Bool) : Read (List Char) := fun text =>
  match readDigitsOnto isDigit [] text with
  | ([], _) => none
  | (_, '_' :: _) => none
  | (digits, rest) => some (digits, rest)

/-- A sign, if there is one: is it a minus? -/
def readSign : List Char → Bool × List Char
  | '-' :: rest => (true, rest)
  | '+' :: rest => (false, rest)
  | text => (false, text)

/-- Digits of a number that has no needless zero in front. -/
def readWhole : Read (List Char)
  | '0' :: rest => some (['0'], rest)
  | text => readDigits Char.isDigit text

/-! ## 2. Numbers -/

/-- The integers that fit in 64 bits with a sign. -/
def integer? (value : Int) : Option Value :=
  if -0x8000000000000000 ≤ value ∧ value < 0x8000000000000000 then some (.integer value) else none

/-- An integer in base 2, 8 or 16, after its two marks. -/
def readPrefixed (base : Nat) : Read Value := fun text => do
  let isDigit (c : Char) : Bool := (hexValue? c).any (· < base)
  let (digits, rest) ← readDigits isDigit text
  let value ← digitsValue? base digits
  let integer ← integer? value
  some (integer, rest)

/-- A part of a number that may be missing, with its mark. -/
def readPart (isMark : Char → Bool) (signed : Bool) : Read (Option (Bool × List Char))
  | c :: rest =>
    if isMark c then do
      let (negative, unsigned) := if signed then readSign rest else (false, rest)
      let (digits, after) ← readDigits Char.isDigit unsigned
      some (some (negative, digits), after)
    else some (none, c :: rest)
  | [] => some (none, [])

/-- The value of a decimal number; a number that is too large is refused. -/
def float? (negative : Bool) (whole fraction : List Char) (exponent : Bool × List Char) :
    Option Value := do
  let mantissa ← digitsValue? 10 (whole ++ fraction)
  let size ← digitsValue? 10 exponent.2
  let places : Int := (if exponent.1 then -(size : Int) else size) - fraction.length
  let magnitude :=
    if mantissa = 0 then 0.0
    else if 400 + (whole.length + fraction.length : Int) < places.natAbs then
      if places < 0 then 0.0 else 1.0 / 0.0
    else Float.ofScientific mantissa (places < 0) places.natAbs
  if magnitude.isInf && !negative then none
  else some (.float (if negative then -magnitude else magnitude))

/-- A decimal number: an integer, or with a fraction or an exponent a float. -/
def readDecimal : Read Value := fun text => do
  let (negative, unsigned) := readSign text
  let (whole, afterWhole) ← readWhole unsigned
  let (fraction, afterFraction) ← readPart (· == '.') false afterWhole
  let (exponent, rest) ← readPart (fun c => c == 'e' || c == 'E') true afterFraction
  if fraction.isNone && exponent.isNone then do
    let magnitude ← digitsValue? 10 whole
    let integer ← integer? (if negative then -(magnitude : Int) else magnitude)
    some (integer, rest)
  else do
    let float ← float? negative whole ((fraction.map Prod.snd).getD [])
      (exponent.getD (false, []))
    some (float, rest)

/-- The words for what is no finite number. -/
def readWord : Read Value := fun text =>
  let (negative, unsigned) := readSign text
  let sign := if negative then -1.0 else 1.0
  match unsigned with
  | 'i' :: 'n' :: 'f' :: rest => some (.float (sign / 0.0), rest)
  | 'n' :: 'a' :: 'n' :: rest => some (.float (0.0 / 0.0), rest)
  | _ => none

/-- Any number. -/
def readNumber : Read Value
  | '0' :: 'x' :: rest => readPrefixed 16 rest
  | '0' :: 'o' :: rest => readPrefixed 8 rest
  | '0' :: 'b' :: rest => readPrefixed 2 rest
  | text => readWord text <|> readDecimal text

/-! ## 3. Dates and times -/

/-- A number of exactly `count` digits between two limits. -/
def readField (count least most : Nat) : Read Nat := fun text => do
  let digits := text.take count
  let value ← digitsValue? 10 digits
  if digits.length = count ∧ least ≤ value ∧ value ≤ most then some (value, text.drop count)
  else none

def readChar (isMark : Char → Bool) : Read Char
  | c :: rest => if isMark c then some (c, rest) else none
  | [] => none

def isLeapYear (year : Nat) : Bool := year % 4 == 0 && (year % 100 != 0 || year % 400 == 0)

def daysOfMonth (year month : Nat) : Nat :=
  if month = 2 then (if isLeapYear year then 29 else 28)
  else if month = 4 ∨ month = 6 ∨ month = 9 ∨ month = 11 then 30
  else 31

/-- The text after a date. -/
def date? (text : List Char) : Option (List Char) := do
  let (year, rest) ← readField 4 0 9999 text
  let (_, rest) ← readChar (· == '-') rest
  let (month, rest) ← readField 2 1 12 rest
  let (_, rest) ← readChar (· == '-') rest
  let (_, rest) ← readField 2 1 (daysOfMonth year month) rest
  some rest

/-- The text after a time of day, which may have a fraction of a second. -/
def timeOfDay? (text : List Char) : Option (List Char) := do
  let (_, rest) ← readField 2 0 23 text
  let (_, rest) ← readChar (· == ':') rest
  let (_, rest) ← readField 2 0 59 rest
  let (_, rest) ← readChar (· == ':') rest
  let (_, rest) ← readField 2 0 60 rest
  match rest with
  | '.' :: c :: more => if c.isDigit then some (more.dropWhile Char.isDigit) else some rest
  | _ => some rest

/-- The text after an offset from UTC. -/
def offset? (text : List Char) : Option (List Char) :=
  match text with
  | 'Z' :: rest | 'z' :: rest => some rest
  | _ => do
    let (_, rest) ← readChar (fun c => c == '+' || c == '-') text
    let (_, rest) ← readField 2 0 23 rest
    let (_, rest) ← readChar (· == ':') rest
    let (_, rest) ← readField 2 0 59 rest
    some rest

/-- The text after a date, a time, or a date and a time. -/
def moment? (text : List Char) : Option (List Char) :=
  match date? text with
  | none => timeOfDay? text
  | some afterDate =>
    let afterTime := do
      let (_, rest) ← readChar (fun c => c == 'T' || c == 't' || c == ' ') afterDate
      timeOfDay? rest
    match afterTime with
    | none => some afterDate
    | some rest => some ((offset? rest).getD rest)

def readMoment : Read Value := fun text => do
  let rest ← moment? text
  some (.time (String.ofList (text.take (text.length - rest.length))), rest)

/-! ## 4. Any value that holds no others -/

def readScalar : Read Value := fun text =>
  match text with
  | '"' :: _ | '\'' :: _ => (readString text).map fun (text, rest) => (.string text, rest)
  | 't' :: 'r' :: 'u' :: 'e' :: rest => some (.boolean true, rest)
  | 'f' :: 'a' :: 'l' :: 's' :: 'e' :: rest => some (.boolean false, rest)
  | _ => readMoment text <|> readNumber text

end Toml
end StyleLex
