/-
# Bytes and text

Sources are bytes; text is made from them when a value or a diagnostic is shown.  Three readings
of UTF-8 live side by side, and each is total:

* `isContinuation` and `sequenceLength` look at one byte only;
* `scalarAt` takes the code point that a sequence spells, without asking whether it may;
* `decode` makes text of any bytes: each maximal ill-formed part becomes one U+FFFD.

`encode` is the inverse of `decode` on well-formed bytes.
-/
import StyleLex.Byte

namespace StyleLex
namespace Utf8

/-! ## 1. One byte -/

/-- A byte that continues a sequence: its top two bits are `10`. -/
def isContinuation (b : UInt8) : Bool := (b &&& 0xC0) == 0x80

/-- The length of the sequence that a byte announces; one for a byte that announces none. -/
def sequenceLength (lead : UInt8) : Nat :=
  if (lead &&& 0xF8) == 0xF0 then 4
  else if (lead &&& 0xF0) == 0xE0 then 3
  else if (lead &&& 0xE0) == 0xC0 then 2
  else 1

/-! ## 2. The code point of a sequence -/

/-- Six more bits from each of the next `n` bytes; bytes that are missing add nothing. -/
def extendScalar : Nat → Nat → List UInt8 → Nat
  | 0, scalar, _ => scalar
  | _, scalar, [] => scalar
  | n + 1, scalar, b :: rest => extendScalar n (scalar * 64 + (b &&& 0x3F).toNat) rest

/-- The code point spelled at the front of `bytes`, read by the length its first byte announces.
Nothing is checked: a stray byte is its own value, and a sequence that is cut short is read from
the bytes present. -/
def scalarAt : List UInt8 → Nat
  | [] => 0
  | lead :: rest =>
    match sequenceLength lead with
    | 4 => extendScalar 3 (lead &&& 0x07).toNat rest
    | 3 => extendScalar 2 (lead &&& 0x0F).toNat rest
    | 2 => extendScalar 1 (lead &&& 0x1F).toNat rest
    | _ => lead.toNat

/-! ## 3. Decoding -/

/-- What stands for an ill-formed part. -/
def replacement : Char := Char.ofNat 0xFFFD

/-- The bytes that may follow a lead byte of a three-byte sequence: no overlong form, no
surrogate. -/
def isSecondOfThree (lead second : UInt8) : Bool :=
  if lead == 0xE0 then 0xA0 ≤ second && second ≤ 0xBF
  else if lead == 0xED then 0x80 ≤ second && second ≤ 0x9F
  else 0x80 ≤ second && second ≤ 0xBF

/-- The bytes that may follow a lead byte of a four-byte sequence: no overlong form, nothing
above U+10FFFF. -/
def isSecondOfFour (lead second : UInt8) : Bool :=
  if lead == 0xF0 then 0x90 ≤ second && second ≤ 0xBF
  else if lead == 0xF4 then 0x80 ≤ second && second ≤ 0x8F
  else 0x80 ≤ second && second ≤ 0xBF

/-- The first character of a non-empty byte string, and how many bytes after the first belong to
it.  An ill-formed part is as long as the longest beginning of a sequence that it holds. -/
def firstChar (lead : UInt8) (rest : List UInt8) : Char × Nat :=
  if lead < 0x80 then (Char.ofNat lead.toNat, 0)
  else if 0xC2 ≤ lead && lead ≤ 0xDF then
    match rest with
    | second :: _ =>
      if isContinuation second then (Char.ofNat (scalarAt (lead :: rest)), 1)
      else (replacement, 0)
    | [] => (replacement, 0)
  else if 0xE0 ≤ lead && lead ≤ 0xEF then
    match rest with
    | second :: third :: _ =>
      if !isSecondOfThree lead second then (replacement, 0)
      else if !isContinuation third then (replacement, 1)
      else (Char.ofNat (scalarAt (lead :: rest)), 2)
    | [second] => (replacement, if isSecondOfThree lead second then 1 else 0)
    | [] => (replacement, 0)
  else if 0xF0 ≤ lead && lead ≤ 0xF4 then
    match rest with
    | second :: third :: fourth :: _ =>
      if !isSecondOfFour lead second then (replacement, 0)
      else if !isContinuation third then (replacement, 1)
      else if !isContinuation fourth then (replacement, 2)
      else (Char.ofNat (scalarAt (lead :: rest)), 3)
    | [second, third] =>
      (replacement,
        if !isSecondOfFour lead second then 0 else if isContinuation third then 2 else 1)
    | [second] => (replacement, if isSecondOfFour lead second then 1 else 0)
    | [] => (replacement, 0)
  else (replacement, 0)

/-- Decoding with the text so far in `text`: `skip` bytes belong to the character just read. -/
def decodeOnto (text : String) : Nat → List UInt8 → String
  | _, [] => text
  | skip + 1, _ :: rest => decodeOnto text skip rest
  | 0, lead :: rest =>
    let next := firstChar lead rest
    decodeOnto (text.push next.1) next.2 rest

/-- The text of any bytes; each maximal ill-formed part is one U+FFFD. -/
def decode (bytes : List UInt8) : String := decodeOnto "" 0 bytes

/-- The bytes of a text. -/
def encode (text : String) : List UInt8 := text.toUTF8.data.toList

/-- The well-formed bytes are those that some text encodes to. -/
def decode? (bytes : List UInt8) : Option String :=
  String.fromUTF8? ⟨bytes.toArray⟩

end Utf8
end StyleLex
