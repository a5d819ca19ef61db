/-
# Readers of branches

An opening reader begins a branch and takes its opener; a closing reader completes the innermost
branch and takes what closes it.  A fragment takes nothing of its own: its operators and its
group are read inside it, and it is complete as soon as its group is.

Openers and closers of names are in `StyleLex.Scan.Name`.
-/
import StyleLex.Scan.Leaf

namespace StyleLex
namespace Scan

/-- Is the next byte `b`? -/
def facing (b : UInt8) (state : State) : Bool := state.rest.head? == some b

/-- Are the next two bytes `a` and `b`? -/
def facingPair (a b : UInt8) (state : State) : Bool := [a, b].isPrefixOf state.rest

/-- Begins a branch and takes the `n` bytes of its opener. -/
def State.enter (scope : Scope) (branch : Branch) (n : Nat) (state : State) : State :=
  (state.openBranch branch).consume scope n

/-- Completes the innermost branch and takes the `n` bytes that close it. -/
def State.leave? (scope : Scope) (n : Nat) (state : State) : Option State :=
  (state.closeBranch? true).map (State.consume scope n)

/-! ## 1. Groups -/

def readGroupOpening : Reader := fun scope state =>
  match state.rest with
  | b :: _ => (Bracket.ofOpener? b).map fun bracket => state.enter scope (.group bracket) 1
  | [] => none

/-- The closer of the innermost group; any other closer is left to others. -/
def readGroupClosing : Reader := fun scope state =>
  match state.frame.branch with
  | .group bracket => if facing bracket.closer state then state.leave? scope 1 else none
  | _ => none

/-! ## 2. Strings -/

def readQuotedOpening : Reader := fun scope state =>
  match state.rest with
  | b :: _ =>
    match Quote.ofByte? b with
    | some quote =>
      if quote = .backtick && !scope.dialect.extendedStrings then none
      else some (state.enter scope (.quoted quote) 1)
    | none => none
  | [] => none

/-- The line break that cuts a string off. -/
def readStringBreak : Reader := fun scope state =>
  if scope.dialect.extendedStrings then none
  else
    match Escape.newlineLength? state.rest with
    | some length =>
      ((state.recoverBranch .brokenString).closeBranch? false).map (State.consume scope length)
    | none => none

/-- The quote that a string began with, or a line break where strings end with their line. -/
def readQuotedClosing : Reader := fun scope state =>
  match state.frame.branch with
  | .quoted quote =>
    if state.outer.isEmpty then none
    else if facing quote.byte state then state.leave? scope 1
    else readStringBreak scope state
  | _ => none

/-! ## 3. Addresses -/

/-- Letters `url`, in either case, and a parenthesis. -/
def beginsUrl : List UInt8 → Bool
  | u :: r :: l :: parenthesis :: _ =>
    Byte.isLetterOf 0x75 u && Byte.isLetterOf 0x72 r && Byte.isLetterOf 0x6C l &&
      parenthesis == Byte.leftParenthesis
  | _ => false

def readUrlOpening : Reader := fun scope state =>
  if scope.dialect.standardUrls && beginsUrl state.rest then some (state.enter scope .url 4)
  else none

def readUrlClosing : Reader := fun scope state =>
  if facing Byte.rightParenthesis state then state.leave? scope 1 else none

/-! ## 4. Comments -/

/-- Slash and star; inside a block comment only where comments nest. -/
def readBlockOpening : Reader := fun scope state =>
  if facingPair Byte.slash Byte.asterisk state &&
      (state.context != .block || scope.dialect.extendedComments) then
    some (state.enter scope (.comment .block) 2)
  else none

/-- Two slashes, if the dialect has line comments. -/
def readLineOpening : Reader := fun scope state =>
  if scope.dialect.extendedComments && facingPair Byte.slash Byte.slash state then
    some (state.enter scope (.comment .line) 2)
  else none

def readCommentOpening : Reader := fun scope state =>
  readBlockOpening scope state <|> readLineOpening scope state

/-- A comment in an address must have a blank after its marker: without one, two slashes are the
beginning of a path. -/
def readUrlComment : Reader := fun scope state =>
  if (state.rest.drop 2).head?.any Byte.isBlank then readCommentOpening scope state else none

def readBlockClosing : Reader := fun scope state =>
  if facingPair Byte.asterisk Byte.slash state then state.leave? scope 2 else none

/-- A line comment takes the line break that ends it. -/
def readLineClosing : Reader := fun scope state =>
  match Escape.newlineLength? state.rest with
  | some length => state.leave? scope length
  | none => none

/-! ## 5. Fragments -/

/-- The first interpolation form of this context that stands here. -/
def readQuasiOpening : Reader := fun scope state =>
  ((scope.fragments.quasiFor state.context).find? fun form =>
    form.pattern.isPrefixOf state.rest).map fun form => state.openBranch (.quasi form.form)

/-- The first annotation form that stands here. -/
def readAnnotationOpening : Reader := fun scope state =>
  (scope.fragments.annotations.find? fun form => form.pattern.isPrefixOf state.rest).map
    fun form => state.openBranch <| Branch.annotation form.form form.placement

/-- A fragment is complete once a group is. -/
def readFragmentClosing : Reader := fun _ state =>
  match state.frame.pending with
  | some (.branch (.group _)) => state.closeBranch? true
  | _ => none

end Scan
end StyleLex
