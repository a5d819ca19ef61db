/-
# Positions and spans

A position counts the bytes and the code points before it, from the start of the source and from
the start of its line, and the line breaks before it.  A span is the source between two
positions.

A line ends with a line feed, a form feed, or a carriage return; a carriage return directly
before a line feed is an ordinary byte, and the line feed ends the line for both.  So whether a
byte ends a line depends on the byte after it: `Position.advance` takes that byte, and
`Position.advanceOver` passes it along a list, with the byte after the list at the end.
-/
import StyleLex.Utf8

namespace StyleLex

/-! ## 1. Positions -/

/-- A distance, in bytes and in code points. -/
structure Offset where
  byte : Nat
  codepoint : Nat
  deriving DecidableEq, Repr, Inhabited

structure Position where
  /-- From the start of the source. -/
  absolute : Offset
  /-- From the start of the line. -/
  relative : Offset
  /-- Line breaks before the position. -/
  line : Nat
  deriving DecidableEq, Repr, Inhabited

/-- Does `b`, followed by `next`, end a line? -/
def endsLine (b : UInt8) (next : Option UInt8) : Bool :=
  Byte.isNewline b && !(b == Byte.carriageReturn && next == some Byte.lineFeed)

namespace Position

/-- The first position of a source. -/
def origin : Position := ⟨⟨0, 0⟩, ⟨0, 0⟩, 0⟩

/-- The offset one byte further on; a byte that continues a sequence begins no code point. -/
def stepOffset (offset : Offset) (b : UInt8) : Offset :=
  ⟨offset.byte + 1, if Utf8.isContinuation b then offset.codepoint else offset.codepoint + 1⟩

/-- The position after the byte `b`, where `next` is the byte that follows it. -/
def advance (position : Position) (b : UInt8) (next : Option UInt8) : Position :=
  if endsLine b next then
    ⟨stepOffset position.absolute b, ⟨0, 0⟩, position.line + 1⟩
  else
    ⟨stepOffset position.absolute b, stepOffset position.relative b, position.line⟩

/-- The position after `bytes`, where `after` is the byte that follows them. -/
def advanceOver (position : Position) (after : Option UInt8) : List UInt8 → Position
  | [] => position
  | b :: rest => advanceOver (position.advance b (rest.head?.or after)) after rest

/-- The position after `bytes`, with nothing known of what follows. -/
def advanceBytes (position : Position) (bytes : List UInt8) : Position :=
  position.advanceOver none bytes

def byte (position : Position) : Nat := position.absolute.byte

/-- Lines are numbered from one. -/
def lineNumber (position : Position) : Nat := position.line + 1

/-- Columns are counted in code points, from one. -/
def column (position : Position) : Nat := position.relative.codepoint + 1

/-- A position is shown as line and column. -/
def render (position : Position) : String :=
  toString position.lineNumber ++ ":" ++ toString position.column

end Position

/-! ## 2. Spans -/

/-- The source from `start` up to `stop`. -/
structure Span where
  start : Position
  stop : Position
  deriving DecidableEq, Repr, Inhabited

namespace Span

/-- The span that begins and ends at a position. -/
def point (position : Position) : Span := ⟨position, position⟩

/-- Length in bytes; a span whose end lies before its beginning is empty. -/
def length (span : Span) : Nat := span.stop.byte - span.start.byte

def isEmpty (span : Span) : Bool := span.length == 0

def contains (span : Span) (offset : Nat) : Bool :=
  span.start.byte ≤ offset && offset < span.stop.byte

/-- Does `inner` lie within `span`? -/
def containsSpan (span inner : Span) : Bool :=
  span.start.byte ≤ inner.start.byte && inner.stop.byte ≤ span.stop.byte

/-- The bytes of the source that the span covers; what lies outside the source is dropped. -/
def slice (span : Span) (source : Array UInt8) : List UInt8 :=
  (source.extract span.start.byte span.stop.byte).toList

/-- The text that the span covers. -/
def read (span : Span) (source : Array UInt8) : String := Utf8.decode (span.slice source)

/-- A span on one line names the line once. -/
def render (span : Span) : String :=
  if span.start.line = span.stop.line then
    span.start.render ++ "-" ++ toString span.stop.column
  else
    span.start.render ++ "-" ++ span.stop.render

end Span
end StyleLex
