/-
# Lines of a source, and diagnostics that quote them

`LineIndex` holds where each line of a source begins; it breaks lines exactly where positions
count them, by `endsLine`.  A diagnostic quotes the line on which its span begins and underlines
the part of the span that lies on that line.
-/
import StyleLex.Position

namespace StyleLex

/-! ## 1. The line index -/

/-- A source and the offsets at which its lines begin. -/
structure LineIndex where
  source : Array UInt8
  starts : Array Nat

namespace LineIndex

/-- Adds the offset after each line break of the bytes that begin at `offset`. -/
def collectStarts (starts : Array Nat) (offset : Nat) : List UInt8 → Array Nat
  | [] => starts
  | b :: rest =>
    if endsLine b rest.head? then collectStarts (starts.push (offset + 1)) (offset + 1) rest
    else collectStarts starts (offset + 1) rest

/-- The index of a source.  The first line begins at its start, even if the source is empty. -/
def ofSource (source : Array UInt8) : LineIndex :=
  ⟨source, collectStarts #[0] 0 source.toList⟩

def lineCount (index : LineIndex) : Nat := index.starts.size

/-- Drops the line-break bytes at the end of a line. -/
def dropBreak (line : List UInt8) : List UInt8 :=
  (line.reverse.dropWhile Byte.isNewline).reverse

/-- The bytes of a line, by its number counted from one, without its line break. -/
def lineBytes? (index : LineIndex) (number : Nat) : Option (List UInt8) :=
  match number with
  | 0 => none
  | i + 1 =>
    match index.starts[i]? with
    | none => none
    | some start =>
      let stop := (index.starts[i + 1]?).getD index.source.size
      some (dropBreak (index.source.extract start stop).toList)

/-- The text of a line. -/
def line? (index : LineIndex) (number : Nat) : Option String :=
  (index.lineBytes? number).map Utf8.decode

end LineIndex

/-! ## 2. Diagnostics -/

/-- A quoted line with the part to underline: `indent` characters are passed over, then `width`
are marked. -/
structure Excerpt where
  number : Nat
  line : String
  indent : Nat
  width : Nat
  deriving DecidableEq, Repr

/-- A message about a place in a source. -/
structure Diagnostic where
  message : String
  filename : String
  position : Position
  excerpt : Option Excerpt
  deriving DecidableEq, Repr

namespace Diagnostic

/-- How many characters of `line` the span covers, but at least one.  A span that goes on past the
line covers it to its end. -/
def underlineWidth (span : Span) (line : String) : Nat :=
  max 1 <|
    if span.start.line = span.stop.line then span.stop.column - span.start.column
    else line.length - span.start.relative.codepoint

/-- The diagnostic for a span; it quotes nothing if the source has no such line. -/
def ofSpan (index : LineIndex) (filename : String) (span : Span) (message : String) :
    Diagnostic where
  message := message
  filename := filename
  position := span.start
  excerpt := (index.line? span.start.lineNumber).map fun line =>
    { number := span.start.lineNumber
      line := line
      indent := span.start.relative.codepoint
      width := underlineWidth span line }

def repeated (c : Char) (n : Nat) : String := String.ofList (List.replicate n c)

/-- The quoted line between two gutter lines; the gutter is as wide as the line number. -/
def renderExcerpt (excerpt : Excerpt) : String :=
  let number := toString excerpt.number
  let gutter := repeated ' ' number.length
  gutter ++ " |\n" ++
  number ++ " | " ++ excerpt.line ++ "\n" ++
  gutter ++ " | " ++ repeated ' ' excerpt.indent ++ repeated '^' excerpt.width ++ "\n"

def render (diagnostic : Diagnostic) : String :=
  "warning: " ++ diagnostic.message ++ "\n" ++
  "  --> " ++ diagnostic.filename ++ ":" ++ diagnostic.position.render ++ "\n" ++
  (diagnostic.excerpt.elim "" renderExcerpt)

end Diagnostic
end StyleLex
