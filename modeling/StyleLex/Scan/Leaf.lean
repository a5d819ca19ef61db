/-
# Readers of leaves

Each reader takes one whole leaf, but for `readRaw` and `readUnexpected`: these take one byte, and
it joins the leaf before it if that one is of the same kind.  So runs of raw or unexpected bytes
grow byte by byte, and every byte is first offered to the readers that come before.
-/
import StyleLex.Scan.State

namespace StyleLex
namespace Scan

/-! ## 1. Whole leaves -/

/-- A run of blanks. -/
def readBlank : Reader := fun scope state =>
  match state.rest.takeWhile Byte.isBlank with
  | [] => none
  | run => some (state.takeLeaf scope .blank run.length)

def readNumeral : Reader := fun scope state =>
  (Numeral.read? scope.dialect.extendedNumbers state.rest).map fun (numeral, length) =>
    state.takeLeaf scope (.numeric numeral) length

def readSeparator : Reader := fun scope state =>
  match state.rest with
  | b :: _ => if Byte.isSeparator b then some (state.takeLeaf scope (.separator b) 1) else none
  | [] => none

def readOperator : Reader := fun scope state =>
  match state.rest with
  | b :: _ => if Byte.isOperator b then some (state.takeLeaf scope (.operator b) 1) else none
  | [] => none

/-- One of the two markers, if the dialect has them. -/
def readCdx : Reader := fun scope state =>
  if scope.dialect.standardCdx then
    [CdxMarker.opening, .closing].findSome? fun marker =>
      let text := Utf8.encode marker.text
      if text.isPrefixOf state.rest then some (state.takeLeaf scope (.cdx marker) text.length)
      else none
  else none

/-- An escape of a code point.  One whose brace stays open is invalid. -/
def readEscape : Reader := fun scope state =>
  (Escape.read? scope.dialect state.rest).map fun reading =>
    let after :=
      (state.addLeaf (.escape ⟨reading.codepoint⟩) reading.closed).consume scope reading.length
    if reading.closed then after
    else after.recover .escape ⟨state.position, after.position⟩

/-- A line continuation. -/
def readContinuation : Reader := fun scope state =>
  (Escape.continuationLength? state.rest).map fun length =>
    state.takeLeaf scope (.escape ⟨none⟩) length

/-! ## 2. Leaves that grow -/

/-- One raw byte. -/
def readRaw : Reader := fun scope state =>
  if state.frame.pending = some (.leaf .raw) then some (state.consume scope 1)
  else some (state.takeLeaf scope .raw 1)

/-- One byte that begins nothing.  Of a run, the first byte is reported, and every closer. -/
def readUnexpected : Reader := fun scope state =>
  let isCloser := state.rest.head?.any Byte.isCloser
  let grows := state.frame.pending == some (.leaf .unexpected)
  let after :=
    (if grows then state else state.addLeaf .unexpected false).consume scope 1
  let span : Span := ⟨state.position, after.position⟩
  some <|
    if isCloser then after.recover .danglingCloser span
    else if grows then after
    else after.recover .unexpected span

end Scan
end StyleLex
