/-
# Byte classes

Every class takes one byte.  A byte above 0x7F belongs to no ASCII class, yet it starts and
continues names: so a name keeps every byte of a multi-byte character, whatever its encoding.

The two classes on which tokens rest are `isNameStart` and `isName`; the classes that decide
between readers (`isBlank`, `isDecimal`, `isOperator`, `isSeparator`, the brackets and the
quotes) are pairwise apart, but for the few bytes that both a name and a number, or both a
hyphen and a sign, may begin with.
-/

namespace StyleLex
namespace Byte

/-! ## 1. Bytes with a name -/

abbrev bell : UInt8 := 0x07
abbrev backspace : UInt8 := 0x08
abbrev tab : UInt8 := 0x09
abbrev lineFeed : UInt8 := 0x0A
abbrev verticalTab : UInt8 := 0x0B
abbrev formFeed : UInt8 := 0x0C
abbrev carriageReturn : UInt8 := 0x0D
abbrev escapeCharacter : UInt8 := 0x1B
abbrev space : UInt8 := 0x20
abbrev doubleQuote : UInt8 := 0x22
abbrev hash : UInt8 := 0x23
abbrev singleQuote : UInt8 := 0x27
abbrev leftParenthesis : UInt8 := 0x28
abbrev rightParenthesis : UInt8 := 0x29
abbrev asterisk : UInt8 := 0x2A
abbrev plus : UInt8 := 0x2B
abbrev comma : UInt8 := 0x2C
abbrev hyphen : UInt8 := 0x2D
abbrev dot : UInt8 := 0x2E
abbrev slash : UInt8 := 0x2F
abbrev zero : UInt8 := 0x30
abbrev semicolon : UInt8 := 0x3B
abbrev leftBracket : UInt8 := 0x5B
abbrev backslash : UInt8 := 0x5C
abbrev rightBracket : UInt8 := 0x5D
abbrev underscore : UInt8 := 0x5F
abbrev backtick : UInt8 := 0x60
abbrev leftBrace : UInt8 := 0x7B
abbrev rightBrace : UInt8 := 0x7D
abbrev delete : UInt8 := 0x7F

/-! ## 2. Blanks and controls -/

def isControl (b : UInt8) : Bool := b < space || b == delete

/-- A space or a tab: the blanks that stay on a line. -/
def isWhitespace (b : UInt8) : Bool := b == space || b == tab

/-- The three bytes that can end a line. -/
def isNewline (b : UInt8) : Bool := b == lineFeed || b == carriageReturn || b == formFeed

def isBlank (b : UInt8) : Bool := isWhitespace b || isNewline b

/-! ## 3. Letters, digits and names -/

def isDecimal (b : UInt8) : Bool := 0x30 ≤ b && b ≤ 0x39

def isUppercase (b : UInt8) : Bool := 0x41 ≤ b && b ≤ 0x5A

def isLowercase (b : UInt8) : Bool := 0x61 ≤ b && b ≤ 0x7A

def isLetter (b : UInt8) : Bool := isUppercase b || isLowercase b

def isAlphanumeric (b : UInt8) : Bool := isLetter b || isDecimal b

def isNonAscii (b : UInt8) : Bool := delete < b

/-- The bytes that may begin a name. -/
def isNameStart (b : UInt8) : Bool :=
  isLetter b || b == hyphen || b == underscore || isNonAscii b

/-- The bytes that may stand inside a name. -/
def isName (b : UInt8) : Bool := isNameStart b || isDecimal b

def isBinary (b : UInt8) : Bool := b == 0x30 || b == 0x31

def isOctal (b : UInt8) : Bool := 0x30 ≤ b && b ≤ 0x37

def isHexadecimal (b : UInt8) : Bool :=
  isDecimal b || (0x41 ≤ b && b ≤ 0x46) || (0x61 ≤ b && b ≤ 0x66)

/-- The digits of a base; a base other than 2, 8 and 16 reads decimal digits. -/
def isDigitOf (base : Nat) (b : UInt8) : Bool :=
  match base with
  | 2 => isBinary b
  | 8 => isOctal b
  | 16 => isHexadecimal b
  | _ => isDecimal b

/-- The value of a hexadecimal digit: the low half of the byte, and nine more for a letter. -/
def digitValue (b : UInt8) : UInt8 := if 0x39 < b then (b &&& 0x0F) + 9 else b &&& 0x0F

/-- Comparison with a lowercase letter, in either case. -/
def isLetterOf (lowercase b : UInt8) : Bool := (b ||| 0x20) == lowercase

/-! ## 4. Punctuation -/

def isSeparator (b : UInt8) : Bool := b == comma || b == semicolon

def isOperator (b : UInt8) : Bool :=
  b == 0x21 || b == 0x23 || b == 0x24 || b == 0x25 || b == 0x26 || b == 0x2A || b == 0x2B ||
  b == 0x2D || b == 0x2E || b == 0x2F || b == 0x3A || b == 0x3C || b == 0x3D || b == 0x3E ||
  b == 0x3F || b == 0x40 || b == 0x5E || b == 0x7C || b == 0x7E

def isEscape (b : UInt8) : Bool := b == backslash

def isQuote (b : UInt8) : Bool := b == doubleQuote || b == singleQuote

/-- The quotes of plain strings and the backtick. -/
def isExtendedQuote (b : UInt8) : Bool := isQuote b || b == backtick

def isOpener (b : UInt8) : Bool :=
  b == leftParenthesis || b == leftBracket || b == leftBrace

def isCloser (b : UInt8) : Bool :=
  b == rightParenthesis || b == rightBracket || b == rightBrace

def isSign (b : UInt8) : Bool := b == plus || b == hyphen

/-- The character whose code point is the byte: ASCII as it is, the rest from the Latin-1 block. -/
def toChar (b : UInt8) : Char := Char.ofNat b.toNat

end Byte
end StyleLex
