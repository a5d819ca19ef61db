/-
# From marks to a tree

An assembly takes the marks of a scan one by one and ties the nodes that they describe into a
tree.  It holds the path of open branches and the node completed last, which is tied in when the
next mark of its branch says where it ends.  Nodes are numbered in the order in which they begin,
and put on the thread in the order in which they end.
-/
import StyleLex.Scan.Run
import StyleLex.Tree.Text

namespace StyleLex

structure Assembly where
  tree : Tree
  /-- The last node on the thread among those that this assembly tied in. -/
  tail : NodeId
  /-- The innermost open branch. -/
  branch : NodeId
  /-- The open branches around it, from the inside out. -/
  outer : List NodeId := []
  /-- A child of the innermost branch that is complete but for its end. -/
  pending : Option NodeId := none
  /-- How many nodes were tied in. -/
  attached : Nat := 0

namespace Assembly

/-- An assembly that adds to the branch `parent`. -/
def into (tree : Tree) (parent : NodeId) : Assembly where
  tail := tree.threadAnchor parent
  tree := tree
  branch := parent

/-- Ties the pending node in; it ends at `stop`. -/
def settle (assembly : Assembly) (stop : Position) : Assembly :=
  match assembly with
  | ⟨tree, tail, branch, outer, some id, attached⟩ =>
    let ended := tree.modify id fun node => { node with span := { node.span with stop := stop } }
    ⟨(ended.attach branch id).linkAfter tail id, id, branch, outer, none, attached + 1⟩
  | assembly => assembly

/-- Adds a node of its own. -/
def add (assembly : Assembly) (node : Node) : Assembly :=
  match assembly with
  | ⟨tree, tail, branch, outer, pending, attached⟩ =>
    ⟨tree.add node, tail, branch, outer, pending, attached⟩

/-- Sets what the innermost branch has become, and its value if it is a name. -/
def complete (assembly : Assembly) (source : Array UInt8) (branch : Branch) (valid : Bool) :
    Assembly :=
  match assembly with
  | ⟨tree, tail, id, outer, pending, attached⟩ =>
    let marked := tree.modify id fun node => { node with kind := .branch branch, valid := valid }
    ⟨marked.evaluate source id, tail, id, outer, pending, attached⟩

/-- Takes one mark. -/
def take (source : Array UInt8) (assembly : Assembly) : Mark → Assembly
  | .leaf leaf valid start =>
    let added :=
      (assembly.settle start).add { kind := .leaf leaf, span := Span.point start, valid := valid }
    { added with pending := some added.tree.newest }
  | .opened branch start =>
    let added := (assembly.settle start).add { kind := .branch branch, span := Span.point start }
    { added with
      branch := added.tree.newest
      outer := added.branch :: added.outer }
  | .closed branch valid stop =>
    let closed := (assembly.settle stop).complete source branch valid
    match closed.outer with
    | around :: further =>
      { closed with branch := around, outer := further, pending := some closed.branch }
    | [] => closed

/-- Takes all marks of a scan, the oldest first. -/
def takeAll (source : Array UInt8) (assembly : Assembly) (marks : List Mark) : Assembly :=
  marks.foldl (take source) assembly

/-- Ends the assembly: the branch that was added to ends at `stop`, and a name gets its value; a
hash is settled again. -/
def finish (source : Array UInt8) (assembly : Assembly) (branch : Branch) (stop : Position) :
    Assembly :=
  let settled := assembly.settle stop
  let completed :=
    match branch with
    | .hash hash => settled.complete source (.hash hash.settle) hash.settle.isValid
    | _ => { settled with tree := settled.tree.evaluate source settled.branch }
  { completed with
    tree := completed.tree.modify completed.branch fun node =>
      { node with span := { node.span with stop := stop } } }

end Assembly
end StyleLex
