/-
# Readers of names

A name is an identifier or a hash.  Its text is read inside it, as runs of name bytes and as
escapes, and it is complete when neither follows.  A hash feeds every byte and every escape of
its text to its color.

A name that the caller has opened cannot be closed here, so the scan halts in its place.
-/
import StyleLex.Scan.Branch

namespace StyleLex
namespace Scan

/-! ## 1. Identifiers -/

/-- Does an identifier begin here?  A hyphen begins one only before a name byte or an escape. -/
def beginsIdentifier : List UInt8 → Bool
  | b :: rest =>
    if b == Byte.hyphen then rest.head?.any Byte.isName || Escape.begins rest
    else Byte.isNameStart b || Escape.begins (b :: rest)
  | [] => false

def readIdentifierOpening : Reader := fun _ state =>
  if beginsIdentifier state.rest then some (state.openBranch (.identifier "")) else none

/-- A run of name bytes. -/
def readNameRun : Reader := fun scope state =>
  match state.rest.takeWhile Byte.isName with
  | [] => none
  | run => some (state.takeLeaf scope .raw run.length)

/-- Completes the identifier, or halts in the caller's. -/
def readIdentifierClosing : Reader := fun _ state =>
  state.closeBranch? true <|> some { state with halted := true }

/-! ## 2. Hashes -/

/-- The hash that is being read, if one is. -/
def State.mapHash (change : Hash → Hash) (state : State) : State :=
  match state.frame.branch with
  | .hash hash => { state with frame := { state.frame with branch := .hash (change hash) } }
  | _ => state

def readHashOpening : Reader := fun scope state =>
  (Hash.begin? state.rest).map fun hash => state.enter scope (.hash hash) 1

/-- An escape; its code point counts toward the color. -/
def readHashEscape : Reader := fun scope state =>
  (Escape.read? scope.dialect state.rest).bind fun reading =>
    (readEscape scope state).map
      (State.mapHash fun hash =>
        match reading.codepoint with
        | some codepoint => hash.accumulateCodepoint codepoint
        | none => hash.invalidate)

/-- A run of name bytes; each one counts toward the color. -/
def readHashRun : Reader := fun scope state =>
  (readNameRun scope state).map
    (State.mapHash fun hash =>
      (state.rest.takeWhile Byte.isName).foldl Hash.accumulate hash)

/-- Settles the color of the hash and completes it.  A hash that is neither name nor color is
invalid. -/
def State.closeHash? (state : State) : Option State :=
  match state.frame.branch with
  | .hash hash =>
    let settled := state.mapHash Hash.settle
    let valid := hash.settle.isValid
    (if valid then settled else settled.recoverBranch .hash).closeBranch? valid
  | _ => state.closeBranch? true

/-- Completes the hash, or halts in the caller's. -/
def readHashClosing : Reader := fun _ state =>
  state.closeHash? <|> some { state with halted := true }

end Scan
end StyleLex
