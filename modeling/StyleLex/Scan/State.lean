/-
# The state of a scan

A scan is an automaton with a stack: one frame for every open branch, the innermost on top.  The
frame at the bottom is the branch that the scan was started in; it belongs to the caller, so no
reader closes it.

The state holds the bytes that are left inside the bound and the position before them; `consume`
is the only operation that moves either.  The byte right after the bound is known to the scope,
for a carriage return at the bound ends a line only if no line feed follows it; nothing else ever
looks there.
-/
import StyleLex.Fragment
import StyleLex.Scan.Mark

namespace StyleLex
namespace Scan

/-- What does not change during a scan. -/
structure Scope where
  dialect : Dialect
  fragments : Fragments
  /-- The byte right after the bound, if the source has one. -/
  beyond : Option UInt8

/-- An open branch. -/
structure Frame where
  branch : Branch
  start : Position
  /-- The child read last, to which the next byte may still belong. -/
  pending : Option Kind := none
  deriving DecidableEq, Repr

structure State where
  /-- The bytes ahead, up to the bound. -/
  rest : List UInt8
  position : Position
  /-- The innermost branch. -/
  frame : Frame
  /-- The branches around it, from the inside out; the last one is the caller's. -/
  outer : List Frame := []
  /-- How many branches there are around it. -/
  depth : Nat := 0
  /-- Set when the caller's branch ought to close. -/
  halted : Bool := false
  /-- The largest number of branches that were open inside the caller's. -/
  deepest : Nat := 0
  /-- Newest first. -/
  marks : List Mark := []
  /-- Newest first. -/
  recoveries : List Recovery := []

namespace State

def context (state : State) : Context := state.frame.branch.context

/-- Moves past `n` bytes, or to the bound. -/
def consume (scope : Scope) (n : Nat) (state : State) : State :=
  let after := state.rest.drop n
  { state with
    rest := after
    position := state.position.advanceOver (after.head?.or scope.beyond) (state.rest.take n) }

/-- Begins a leaf here. -/
def addLeaf (leaf : Leaf) (valid : Bool) (state : State) : State :=
  { state with
    marks := .leaf leaf valid state.position :: state.marks
    frame := { state.frame with pending := some (.leaf leaf) } }

/-- Begins a leaf of `n` bytes. -/
def takeLeaf (scope : Scope) (leaf : Leaf) (n : Nat) (state : State) : State :=
  (state.addLeaf leaf true).consume scope n

/-- Begins a branch here and goes inside it. -/
def openBranch (branch : Branch) (state : State) : State :=
  { state with
    marks := .opened branch state.position :: state.marks
    frame := { branch := branch, start := state.position }
    outer := { state.frame with pending := none } :: state.outer
    depth := state.depth + 1
    deepest := max state.deepest (state.depth + 1) }

/-- Completes the innermost branch and goes back to the one around it; the caller's branch stays
open. -/
def closeBranch? (valid : Bool) (state : State) : Option State :=
  match state.outer with
  | [] => none
  | around :: further =>
    some
      { state with
        marks := .closed state.frame.branch valid state.position :: state.marks
        frame := { around with pending := some (.branch state.frame.branch) }
        outer := further
        depth := state.depth - 1 }

/-- Notes a recovery. -/
def recover (fault : Fault) (span : Span) (state : State) : State :=
  { state with recoveries := ⟨fault, span, state.context⟩ :: state.recoveries }

/-- Notes a recovery of the innermost branch, from its beginning up to here. -/
def recoverBranch (fault : Fault) (state : State) : State :=
  state.recover fault ⟨state.frame.start, state.position⟩

end State

/-- A reader looks at the bytes ahead; it either declines or reads what begins there. -/
abbrev Reader := Scope → State → Option State

end Scan
end StyleLex
