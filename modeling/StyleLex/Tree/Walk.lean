/-
# Walks through a tree

`production` follows the thread from the root, `preorder` visits a branch before its children,
and `depth` climbs to the root.  A walk takes no more steps than the tree has nodes, for it meets
every node at most once.
-/
import StyleLex.Tree.Basic

namespace StyleLex
namespace Tree

/-! ## 1. Orders -/

/-- Adds the thread from `id` on to `seen`. -/
def followThread (tree : Tree) : Nat → Array NodeId → Option NodeId → Array NodeId
  | n + 1, seen, some id => followThread tree n (seen.push id) (tree.next? id)
  | _, seen, _ => seen

/-- The nodes in the order in which they were completed, after the root. -/
def production (tree : Tree) : Array NodeId := followThread tree tree.size #[] (some root)

/-- Adds the subtrees of the given nodes to `seen`. -/
def visit (tree : Tree) : Nat → Array NodeId → List NodeId → Array NodeId
  | n + 1, seen, id :: rest =>
    visit tree n (seen.push id) ((tree.children id).toList ++ rest)
  | _, seen, _ => seen

/-- A node and all below it, every branch before its children. -/
def preorder (tree : Tree) (id : NodeId) : Array NodeId := visit tree tree.size #[] [id]

/-! ## 2. Selections, in the order of the source -/

def leaves (tree : Tree) : Array NodeId :=
  (tree.preorder root).filter fun id => (tree.kind? id).any fun kind => !kind.isBranch

/-- The nodes that are malformed. -/
def invalid (tree : Tree) : Array NodeId :=
  (tree.preorder root).filter fun id => (tree.node? id).any fun node => !node.valid

/-! ## 3. Depth -/

/-- The number of steps to the root, of at most so many. -/
def climb (tree : Tree) : Nat → NodeId → Nat
  | 0, _ => 0
  | n + 1, id =>
    match tree.parent? id with
    | some parent => climb tree n parent + 1
    | none => 0

/-- The number of branches around a node. -/
def depth (tree : Tree) (id : NodeId) : Nat := climb tree tree.size id

end Tree
end StyleLex
