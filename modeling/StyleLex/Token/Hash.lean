/-
# Hashes

A hash is a name or a color.  Its color digits are gathered while its text is read, and its color
is settled when it closes, by the number of digits.  Digits are kept as the bytes that were
written, and they are dropped once the text can be no color.
-/
import StyleLex.Token.Escape

namespace StyleLex

inductive ColorState where
  | unchecked
  | valid
  | invalid
  deriving DecidableEq, Repr

structure Hash where
  /-- Does the text after `#` qualify as a name? -/
  isName : Bool := false
  color : ColorState := .unchecked
  /-- The hexadecimal digits seen so far. -/
  digits : Array UInt8 := #[]
  /-- The text after `#`, once evaluated. -/
  value : String := ""
  deriving DecidableEq, Repr

namespace Hash

/-- The digit counts of a color. -/
def colorDigitCounts : List Nat := [3, 4, 6, 8]

/-- No color any more. -/
def invalidate (hash : Hash) : Hash := { hash with color := .invalid, digits := #[] }

/-- Takes one more byte: a digit is kept, anything else rules a color out for good. -/
def accumulate (hash : Hash) (b : UInt8) : Hash :=
  if hash.color = .invalid then hash
  else if Byte.isHexadecimal b then { hash with digits := hash.digits.push b }
  else hash.invalidate

/-- Takes the code point of an escape: one that is no byte rules a color out. -/
def accumulateCodepoint (hash : Hash) (codepoint : Nat) : Hash :=
  if codepoint < 256 then hash.accumulate (UInt8.ofNat codepoint) else hash.invalidate

/-- Settles the color by the number of digits. -/
def settle (hash : Hash) : Hash :=
  if hash.color ≠ .invalid ∧ hash.digits.size ∈ colorDigitCounts then
    { hash with color := .valid }
  else hash.invalidate

/-- A hash is well formed as a name or as a color. -/
def isValid (hash : Hash) : Bool := hash.isName || hash.color == .valid

/-- The hash that begins at the front of a byte list, before any of its text is read.  After `#`
comes a byte of a name or an escape. -/
def begin? : List UInt8 → Option Hash
  | [] => none
  | b :: rest =>
    if b == Byte.hash then
      match rest.head? with
      | some next =>
        if Byte.isName next then
          some { isName := Byte.isNameStart next
                 color := if Byte.isHexadecimal next then .unchecked else .invalid }
        else if Escape.begins rest then some { isName := true }
        else none
      | none => none
    else none

end Hash
end StyleLex
