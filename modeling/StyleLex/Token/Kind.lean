/-
# Kinds of nodes

A node is a branch, which holds other nodes, or a leaf, which holds bytes.  Every branch has a
context, the one in which its bytes are read; a leaf has none.
-/
import StyleLex.Token.Hash
import StyleLex.Token.Numeral

namespace StyleLex

/-! ## 1. Branches -/

inductive CommentForm where
  /-- From slash and star to star and slash. -/
  | block
  /-- From two slashes to the end of the line. -/
  | line
  deriving DecidableEq, Repr

inductive Branch where
  | root
  | group (bracket : Bracket)
  | quoted (quote : Quote)
  | url
  | comment (form : CommentForm)
  | quasi (form : String)
  | annotation (form : String) (placement : Placement)
  | identifier (value : String)
  | hash (hash : Hash)
  deriving DecidableEq, Repr

namespace Branch

/-- The context in which the bytes of a branch are read. -/
def context : Branch → Context
  | root => .root
  | group bracket => .ofBracket bracket
  | quoted quote => .ofQuote quote
  | url => .url
  | comment .block => .block
  | comment .line => .line
  | quasi _ => .quasi
  | annotation _ _ => Context.annotation
  | identifier _ => .identifier
  | hash _ => .hash

def name : Branch → String
  | root => "root"
  | group _ => "group"
  | quoted _ => "quoted"
  | url => "url"
  | comment _ => "comment"
  | quasi _ => "quasi"
  | annotation _ _ => "annotation"
  | identifier _ => "identifier"
  | hash _ => "hash"

end Branch

/-! ## 2. Leaves -/

/-- The two HTML comment markers. -/
inductive CdxMarker where
  | opening
  | closing
  deriving DecidableEq, Repr

def CdxMarker.text : CdxMarker → String
  | opening => "<!--"
  | closing => "-->"

inductive Leaf where
  | numeric (numeral : Numeral)
  | separator (b : UInt8)
  | operator (b : UInt8)
  | blank
  | cdx (marker : CdxMarker)
  | unexpected
  | escape (escape : Escape)
  | raw
  deriving DecidableEq, Repr

namespace Leaf

def name : Leaf → String
  | numeric _ => "numeric"
  | separator _ => "separator"
  | operator _ => "operator"
  | blank => "blank"
  | cdx _ => "cdx"
  | unexpected => "unexpected"
  | escape _ => "escape"
  | raw => "raw"

/-- A run is a leaf whose text is the source that it covers. -/
def isRun : Leaf → Bool
  | blank | unexpected | raw => true
  | _ => false

end Leaf

/-! ## 3. Kinds -/

inductive Kind where
  | branch (branch : Branch)
  | leaf (leaf : Leaf)
  deriving DecidableEq, Repr

namespace Kind

def name : Kind → String
  | branch b => b.name
  | leaf l => l.name

def isBranch : Kind → Bool
  | branch _ => true
  | leaf _ => false

def isRun : Kind → Bool
  | branch _ => false
  | leaf l => l.isRun

end Kind
end StyleLex
