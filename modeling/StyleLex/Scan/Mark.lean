/-
# What a scan reports

A scan reports the nodes of a source as marks, in the order in which it meets them, and its
recoveries, the places where it went on past something malformed.

A mark says where a node begins, or that the innermost open branch is complete.  No mark says
where a node ends: a node ends where the next mark of the same branch stands, so that a delimiter
belongs to the branch that it closes.  `Tree.Assembly` makes nodes of marks.
-/
import StyleLex.Log.Code
import StyleLex.Position
import StyleLex.Token.Kind

namespace StyleLex

/-! ## 1. Marks -/

inductive Mark where
  /-- A leaf begins. -/
  | leaf (leaf : Leaf) (valid : Bool) (start : Position)
  /-- A branch begins, and the marks up to its `closed` are its own. -/
  | opened (branch : Branch) (start : Position)
  /-- The innermost branch is complete but for its closing delimiter, which begins here; `branch`
  is what the branch has become. -/
  | closed (branch : Branch) (valid : Bool) (stop : Position)
  deriving DecidableEq, Repr

/-! ## 2. Recoveries -/

/-- What was malformed. -/
inductive Fault where
  /-- A branch was open at the end of the input. -/
  | unterminated
  /-- A string was closed by a line break. -/
  | brokenString
  /-- A closer belongs to no open group. -/
  | danglingCloser
  | hash
  /-- A braced escape was not closed. -/
  | escape
  | unexpected
  deriving DecidableEq, Repr

structure Recovery where
  fault : Fault
  span : Span
  /-- The context that the scan was in. -/
  context : Context
  deriving DecidableEq, Repr

namespace Recovery

def message (recovery : Recovery) : String :=
  match recovery.fault with
  | .unterminated => "Unterminated " ++ recovery.context.name ++ " at the end of input"
  | .brokenString => "String closed by a line break"
  | .danglingCloser => "Closing delimiter does not match the innermost group"
  | .hash => "Hash is neither a name nor a valid color"
  | .escape => "Escape is missing its closing brace"
  | .unexpected => "Unexpected character"

/-- The code of a branch that the end of the input closed. -/
def unterminatedCode (context : Context) : Code :=
  if ContextSet.quoted.contains context then .quotedOpen
  else if ContextSet.comment.contains context then .commentOpen
  else if context = .url then .urlOpen
  else if ContextSet.fragment.contains context then .fragmentOpen
  else .groupOpen

def code (recovery : Recovery) : Code :=
  match recovery.fault with
  | .unterminated => unterminatedCode recovery.context
  | .brokenString => .quotedOpen
  | .danglingCloser => .danglingCloser
  | .hash => .hashMalformed
  | .escape => .escapeOpen
  | .unexpected => .unexpectedCharacter

end Recovery
end StyleLex
