/-
# Escapes

An escape is a backslash and what it stands before.  A backslash before a line break, or at the
end of the input, continues the line and stands for nothing; any other escape stands for one code
point and is read in one of three ways, tried in this order:

* extended: `\n` and its kind, `\xHH`, `\uHHHH`, `\dD`, and `\u` with digits in braces;
* standard: one to six hexadecimal digits, and one blank that ends them;
* literal: the code point after the backslash, for itself.
-/
import StyleLex.Dialect
import StyleLex.Utf8

namespace StyleLex

/-! ## 1. What an escape stands for -/

structure Escape where
  /-- Absent for a line continuation. -/
  codepoint : Option Nat
  deriving DecidableEq, Repr

namespace Escape

/-- The character of a code point; U+FFFD for one that is no scalar value. -/
def charOf (codepoint : Nat) : Char :=
  if codepoint.isValidChar then Char.ofNat codepoint else Utf8.replacement

/-- The text that an escape stands for. -/
def text (escape : Escape) : String :=
  match escape.codepoint with
  | some codepoint => (charOf codepoint).toString
  | none => ""

/-! ## 2. Reading -/

/-- The largest code point that digits in braces can reach; larger ones stay there. -/
def largest : Nat := 0xFFFFFFFF

/-- An escape as it was read: `length` bytes, the backslash included, and whether braces that it
opened were closed. -/
structure Reading where
  codepoint : Option Nat
  length : Nat
  closed : Bool := true
  deriving DecidableEq, Repr

/-- The length of the line break at the front, if there is one. -/
def newlineLength? : List UInt8 → Option Nat
  | b :: rest =>
    if b == Byte.carriageReturn && rest.head? == some Byte.lineFeed then some 2
    else if Byte.isNewline b then some 1
    else none
  | [] => none

/-- The code point of an escape named by one letter. -/
def named? (b : UInt8) : Option Nat :=
  if b == 0x30 then some 0
  else if b == 0x61 then some Byte.bell.toNat
  else if b == 0x62 then some Byte.backspace.toNat
  else if b == 0x65 then some Byte.escapeCharacter.toNat
  else if b == 0x66 then some Byte.formFeed.toNat
  else if b == 0x6E then some Byte.lineFeed.toNat
  else if b == 0x72 then some Byte.carriageReturn.toNat
  else if b == 0x74 then some Byte.tab.toNat
  else if b == 0x76 then some Byte.verticalTab.toNat
  else none

/-- The number that hexadecimal digits spell. -/
def hexValue (digits : List UInt8) : Nat :=
  digits.foldl (fun value b => value * 16 + (Byte.digitValue b).toNat) 0

/-- The number that hexadecimal digits spell, kept at `largest`. -/
def hexValueCapped (digits : List UInt8) : Nat :=
  digits.foldl (fun value b => min (value * 16 + (Byte.digitValue b).toNat) largest) 0

/-- The value of exactly `count` hexadecimal digits. -/
def fixedHex? (count : Nat) (bytes : List UInt8) : Option Nat :=
  let digits := bytes.take count
  if digits.length == count && digits.all Byte.isHexadecimal then some (hexValue digits) else none

/-- Digits after an opening brace, up to the closing one.  Without it the escape ends where the
digits do. -/
def readBraced (bytes : List UInt8) : Reading :=
  let digits := bytes.takeWhile Byte.isHexadecimal
  let closed := (bytes.drop digits.length).head? == some Byte.rightBrace
  { codepoint := some (hexValueCapped digits)
    length := 3 + digits.length + (if closed then 1 else 0)
    closed := closed }

/-- The extended escape whose bytes after the backslash are given. -/
def readExtended? : List UInt8 → Option Reading
  | [] => none
  | b :: rest =>
    match named? b with
    | some codepoint => some ⟨some codepoint, 2, true⟩
    | none =>
      if b == 0x78 then (fixedHex? 2 rest).map fun codepoint => ⟨some codepoint, 4, true⟩
      else if b == 0x75 then
        match fixedHex? 4 rest with
        | some codepoint => some ⟨some codepoint, 6, true⟩
        | none =>
          match rest with
          | brace :: digits =>
            if brace == Byte.leftBrace && digits.head? != some Byte.rightBrace then
              some (readBraced digits)
            else none
          | [] => none
      else if b == 0x64 then
        match rest with
        | digit :: _ => if Byte.isDecimal digit then some ⟨some digit.toNat, 3, true⟩ else none
        | [] => none
      else none

/-- The bytes that end the digits of a standard escape and belong to it. -/
def terminatorLength : List UInt8 → Nat
  | b :: rest =>
    if b == Byte.carriageReturn && rest.head? == some Byte.lineFeed then 2
    else if Byte.isWhitespace b then 1
    else 0
  | [] => 0

/-- The standard escape whose bytes after the backslash are given. -/
def readStandard? (bytes : List UInt8) : Option Reading :=
  match (bytes.take 6).takeWhile Byte.isHexadecimal with
  | [] => none
  | digits =>
    some ⟨some (hexValue digits),
      1 + digits.length + terminatorLength (bytes.drop digits.length), true⟩

/-- The literal escape whose bytes after the backslash are given. -/
def readLiteral? : List UInt8 → Option Reading
  | [] => none
  | b :: rest =>
    if Byte.isNewline b then none
    else some ⟨some (Utf8.scalarAt (b :: rest)), Utf8.sequenceLength b + 1, true⟩

/-- The escape at the front of a byte list, if one begins there. -/
def read? (dialect : Dialect) : List UInt8 → Option Reading
  | [] => none
  | b :: rest =>
    if b == Byte.backslash then
      (if dialect.extendedEscapes then readExtended? rest else none) <|>
      (if dialect.standardEscapes then readStandard? rest else none) <|>
      readLiteral? rest
    else none

/-- The length of the line continuation at the front, if one begins there. -/
def continuationLength? : List UInt8 → Option Nat
  | [] => none
  | b :: rest =>
    if b == Byte.backslash && (rest.isEmpty || (newlineLength? rest).isSome) then
      some (1 + (newlineLength? rest).getD 0)
    else none

/-- Does an escape of a code point begin here?  It does before anything but a line break or the
end. -/
def begins : List UInt8 → Bool
  | b :: next :: _ => b == Byte.backslash && !Byte.isNewline next
  | _ => false

end Escape
end StyleLex
