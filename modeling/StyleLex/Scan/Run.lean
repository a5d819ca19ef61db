/-
# The scan

`readNext` offers the bytes ahead to the readers of the current context, in a fixed order: the
first reader that accepts decides, so an earlier reader shadows a later one.  `run` repeats it up
to the bound, and then closes what is still open.

A step takes a byte, or opens a name or a fragment, or closes one, and the steps that take no
byte cannot follow each other for long: three steps for every byte, and one more, are enough.
-/
import StyleLex.Scan.Name

namespace StyleLex
namespace Scan

/-! ## 1. One step -/

/-- The readers of a context, in order. -/
def readersOf : Context → List Reader
  | .root | .parentheses | .brackets | .braces =>
    [readBlank, readNumeral, readUrlOpening, readCommentOpening, readCdx, readQuasiOpening,
      readAnnotationOpening, readIdentifierOpening, readHashOpening, readQuotedOpening,
      readSeparator, readOperator, readGroupOpening, readGroupClosing, readContinuation,
      readUnexpected]
  | .double | .single | .backtick =>
    [readEscape, readContinuation, readQuasiOpening, readQuotedClosing, readRaw]
  | .url =>
    [readEscape, readContinuation, readBlank, readUrlComment, readQuotedOpening,
      readQuasiOpening, readUrlClosing, readRaw]
  | .block => [readBlockOpening, readBlockClosing, readQuasiOpening, readRaw]
  | .line => [readQuasiOpening, readLineClosing, readRaw]
  | .quasi | Context.annotation =>
    [readFragmentClosing, readOperator, readGroupOpening, readUnexpected]
  | .identifier => [readEscape, readNameRun, readIdentifierClosing]
  | .hash => [readHashEscape, readHashRun, readHashClosing]

/-- One step of the scan. -/
def readNext (scope : Scope) (state : State) : State :=
  ((readersOf state.context).findSome? fun reader => reader scope state).getD state

/-! ## 2. To the bound -/

/-- Has the scan come to its bound, or halted before it? -/
def State.finished (state : State) : Bool := state.rest.isEmpty || state.halted

/-- At most so many steps. -/
def steps (scope : Scope) : Nat → State → State
  | 0, state => state
  | n + 1, state => if state.finished then state else steps scope n (readNext scope state)

/-- How many steps a scan of so many bytes may need. -/
def stepLimit (length : Nat) : Nat := 3 * length + 1

/-! ## 3. At the bound -/

/-- Closes the innermost branch at the end of the input.  A name is complete there, and so are a
line comment and a root; any other branch lacks its closing delimiter. -/
def State.closeAtEnd? (state : State) : Option State :=
  match state.frame.branch with
  | .hash _ => state.closeHash?
  | .identifier _ | .root | .comment .line => state.closeBranch? true
  | _ => (state.recoverBranch .unterminated).closeBranch? false

/-- Closes `n` branches at the end of the input, from the inside out. -/
def closeAll : Nat → State → State
  | 0, state => state
  | n + 1, state =>
    match state.closeAtEnd? with
    | some closed => closeAll n closed
    | none => state

/-- A scan from `state`, which stands in the caller's branch. -/
def run (scope : Scope) (state : State) : State :=
  let reached := steps scope (stepLimit state.rest.length) state
  closeAll reached.outer.length reached

end Scan
end StyleLex
