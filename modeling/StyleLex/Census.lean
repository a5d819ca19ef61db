/-
# A census of a tree

The numbers of nodes by kind and the like, the root left out.
-/
import StyleLex.Tree.Walk

namespace StyleLex

structure Census where
  total : Nat := 0
  branches : Nat := 0
  leaves : Nat := 0
  invalid : Nat := 0
  blanks : Nat := 0
  /-- Comments; what is inside them is not counted here. -/
  comments : Nat := 0
  /-- The largest number of branches around a node. -/
  depth : Nat := 0
  /-- Numbers by the name of the kind, in the order of the names. -/
  byKind : List (String × Nat) := []
  deriving DecidableEq, Repr

namespace Census

/-- Adds one to the number of a name, in a list that is ordered by name. -/
def increment (name : String) : List (String × Nat) → List (String × Nat)
  | [] => [(name, 1)]
  | (known, n) :: rest =>
    if known = name then (known, n + 1) :: rest
    else if name < known then (name, 1) :: (known, n) :: rest
    else (known, n) :: increment name rest

/-- One if the statement holds. -/
def one (statement : Bool) : Nat := if statement then 1 else 0

/-- Counts one more node. -/
def count (census : Census) (node : Node) (depth : Nat) : Census where
  total := census.total + 1
  branches := census.branches + one node.kind.isBranch
  leaves := census.leaves + one (!node.kind.isBranch)
  invalid := census.invalid + one (!node.valid)
  blanks := census.blanks + one (node.kind.name == "blank")
  comments := census.comments + one (node.kind.name == "comment")
  depth := max census.depth depth
  byKind := increment node.kind.name census.byKind

def ofTree (tree : Tree) : Census :=
  (tree.preorder Tree.root).foldl
    (fun census id =>
      match tree.node? id with
      | some node => if id = Tree.root then census else census.count node (tree.depth id)
      | none => census)
    {}

/-- Nodes that are neither blanks nor comments. -/
def significant (census : Census) : Nat := census.total - census.blanks - census.comments

def hasContent (census : Census) : Bool := 0 < census.significant

def isClean (census : Census) : Bool := census.invalid == 0

def countOf (census : Census) (name : String) : Nat := (census.byKind.lookup name).getD 0

end Census
end StyleLex
