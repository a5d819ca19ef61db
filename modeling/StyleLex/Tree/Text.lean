/-
# The texts of nodes

Names and escapes carry their text.  A run has the text that its span covers in the source; it is
decoded when it is first asked for, and kept from then on, so that a later reading with another
source gives the same text.  `text?` only looks, and `remember` keeps.
-/
import StyleLex.Decimal.Layout
import StyleLex.Tree.Walk

namespace StyleLex

/-! ## 1. Looking -/

namespace Node

/-- The text of a node over `source`, for kinds that have one. -/
def text? (source : Array UInt8) (node : Node) : Option String :=
  match node.kind with
  | .branch (.identifier value) => some value
  | .branch (.hash hash) => some hash.value
  | .leaf (.escape escape) => some escape.text
  | kind => if kind.isRun then some (node.cached.getD (node.span.read source)) else none

/-- A text of some characters given by their bytes. -/
def ofBytes (bytes : List UInt8) : String := String.ofList (bytes.map Byte.toChar)

/-- What a node is, in a few characters; a root and an address say no more than their kind. -/
def description? (source : Array UInt8) (node : Node) : Option String :=
  match node.kind with
  | .branch .root | .branch .url => none
  | .branch (.group bracket) => some (ofBytes [bracket.opener, bracket.closer])
  | .branch (.quoted quote) => some (ofBytes [quote.byte])
  | .branch (.comment .block) => some "block"
  | .branch (.comment .line) => some "line"
  | .branch (.quasi form) => some form
  | .branch (Branch.annotation form placement) => some (form ++ " " ++ placement.keyword)
  | .leaf (.numeric numeral) => some (Decimal.write Decimal.shown numeral.value)
  | .leaf (.separator b) | .leaf (.operator b) => some (ofBytes [b])
  | .leaf (.cdx marker) => some marker.text
  | _ => node.text? source

end Node

namespace Tree

def text? (tree : Tree) (source : Array UInt8) (id : NodeId) : Option String :=
  (tree.node? id).bind (Node.text? source)

def description? (tree : Tree) (source : Array UInt8) (id : NodeId) : Option String :=
  (tree.node? id).bind (Node.description? source)

/-- The text of a run that was kept so far. -/
def cached? (tree : Tree) (id : NodeId) : Option String := (tree.node? id).bind (·.cached)

/-! ## 2. Keeping -/

/-- Keeps the text of a run, unless one was kept before. -/
def remember (tree : Tree) (source : Array UInt8) (id : NodeId) : Tree :=
  tree.modify id fun node =>
    if node.kind.isRun then { node with cached := node.text? source } else node

/-- Keeps the texts of all runs among some nodes. -/
def rememberAll (tree : Tree) (source : Array UInt8) (ids : Array NodeId) : Tree :=
  ids.foldl (fun tree id => tree.remember source id) tree

/-! ## 3. Names -/

/-- The texts of the children of a node, one after the other. -/
def joinedText (tree : Tree) (source : Array UInt8) (id : NodeId) : String :=
  (tree.children id).foldl
    (fun text child => text ++ (tree.text? source child).getD "") ""

/-- A branch with the text of its children as its value; branches other than names have none. -/
def withValue (value : String) : Branch → Branch
  | .identifier _ => .identifier value
  | .hash hash => .hash { hash with value := value }
  | branch => branch

/-- Does a node get its value from its children? -/
def isName (tree : Tree) (id : NodeId) : Bool :=
  match tree.kind? id with
  | some (.branch (.identifier _)) | some (.branch (.hash _)) => true
  | _ => false

/-- Makes the value of an identifier or a hash anew, and keeps the texts that it is made of.  Any
other node is left as it is. -/
def evaluate (tree : Tree) (source : Array UInt8) (id : NodeId) : Tree :=
  if tree.isName id then
    let value := tree.joinedText source id
    let kept := tree.rememberAll source (tree.children id)
    kept.modify id fun node =>
      match node.kind with
      | .branch branch => { node with kind := .branch (withValue value branch) }
      | .leaf _ => node
  else tree

end Tree
end StyleLex
