/-
# The dump of a tree

One line for every node, a branch before its children: two blanks for every level, the kind, the
description in quotes, the place, and a remark on a malformed node.
-/
import StyleLex.Text.Quoted
import StyleLex.Tree.Text

namespace StyleLex
namespace Tree

/-- Two blanks for every level. -/
def indentation (level : Nat) : String := String.ofList (List.replicate (2 * level) ' ')

/-- The line of a node at some level. -/
def dumpLine (source : Array UInt8) (level : Nat) (node : Node) : String :=
  indentation level ++ node.kind.name ++
  ((node.description? source).map fun text => " " ++ Text.quoted text).getD "" ++
  " @ " ++ node.span.render ++ (if node.valid then "" else " (invalid)") ++ "\n"

/-- The lines of all nodes. -/
def dump (tree : Tree) (source : Array UInt8) : String :=
  (tree.preorder root).foldl
    (fun text id =>
      text ++ ((tree.node? id).map (dumpLine source (tree.depth id))).getD "")
    ""

end Tree
end StyleLex
