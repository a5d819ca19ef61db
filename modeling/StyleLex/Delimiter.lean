/-
# Brackets and quotes

A bracket pair and a quote mark are each named once, so that a closer always belongs to an
opener: `Bracket.closer` is total, and the only question that can fail is `Bracket.ofOpener?`.
-/
import StyleLex.Byte

namespace StyleLex

/-! ## 1. Brackets -/

/-- The three bracket pairs. -/
inductive Bracket where
  | round
  | square
  | curly
  deriving DecidableEq, Repr

namespace Bracket

def opener : Bracket → UInt8
  | round => Byte.leftParenthesis
  | square => Byte.leftBracket
  | curly => Byte.leftBrace

def closer : Bracket → UInt8
  | round => Byte.rightParenthesis
  | square => Byte.rightBracket
  | curly => Byte.rightBrace

/-- The pair that a byte opens, if it opens one. -/
def ofOpener? (b : UInt8) : Option Bracket :=
  if b == Byte.leftParenthesis then some round
  else if b == Byte.leftBracket then some square
  else if b == Byte.leftBrace then some curly
  else none

/-- Two bytes form a pair: the first opens a bracket and the second closes the same one. -/
def isPair (first second : UInt8) : Bool :=
  match ofOpener? first with
  | some pair => pair.closer == second
  | none => false

theorem ofOpener?_opener (pair : Bracket) : ofOpener? pair.opener = some pair := by
  cases pair <;> rfl

end Bracket

/-! ## 2. Quotes -/

/-- The quote marks; the backtick delimits strings in extended dialects only. -/
inductive Quote where
  | double
  | single
  | backtick
  deriving DecidableEq, Repr

namespace Quote

def byte : Quote → UInt8
  | double => Byte.doubleQuote
  | single => Byte.singleQuote
  | backtick => Byte.backtick

/-- The quote mark that a byte is, if it is one. -/
def ofByte? (b : UInt8) : Option Quote :=
  if b == Byte.doubleQuote then some double
  else if b == Byte.singleQuote then some single
  else if b == Byte.backtick then some backtick
  else none

theorem ofByte?_byte (quote : Quote) : ofByte? quote.byte = some quote := by
  cases quote <;> rfl

end Quote
end StyleLex
