/-
# Trees of nodes

A tree keeps its nodes in one array, and nodes name each other by their place in it.  Every node
knows its parent and its children.  Beside that, a thread runs through all nodes in the order in
which they were completed: the root first, and every other branch after its last child.

`attach` and `linkAfter` are the two operations that tie a node in; `threadAnchor` is the node
after which the next child of a branch belongs on the thread.
-/
import StyleLex.Position
import StyleLex.Token.Kind

namespace StyleLex

/-! ## 1. Nodes -/

/-- The place of a node in its tree; the root is at zero. -/
abbrev NodeId := Nat

/-- A node is named by its number. -/
def NodeId.label (id : NodeId) : String := "#" ++ toString id

structure Node where
  kind : Kind
  span : Span
  valid : Bool := true
  parent : Option NodeId := none
  /-- The node before this one on the thread. -/
  previous : Option NodeId := none
  /-- The node after this one on the thread. -/
  next : Option NodeId := none
  children : Array NodeId := #[]
  /-- The text of a run, once it was read; it stays as it was read first. -/
  cached : Option String := none
  deriving DecidableEq, Repr

structure Tree where
  nodes : Array Node
  filename : Option String := none
  deriving DecidableEq, Repr

namespace Tree

/-- A tree of nothing but a root. -/
def new (filename : Option String) (start : Position) : Tree where
  nodes := #[{ kind := .branch .root, span := Span.point start }]
  filename := filename

def root : NodeId := 0

def size (tree : Tree) : Nat := tree.nodes.size

/-- Is there nothing but the root? -/
def isEmpty (tree : Tree) : Bool := tree.size ≤ 1

def node? (tree : Tree) (id : NodeId) : Option Node := tree.nodes[id]?

def kind? (tree : Tree) (id : NodeId) : Option Kind := (tree.node? id).map (·.kind)

/-- The children of a node; a node that is not there has none. -/
def children (tree : Tree) (id : NodeId) : Array NodeId :=
  ((tree.node? id).map (·.children)).getD #[]

def parent? (tree : Tree) (id : NodeId) : Option NodeId := (tree.node? id).bind (·.parent)

def next? (tree : Tree) (id : NodeId) : Option NodeId := (tree.node? id).bind (·.next)

/-! ## 2. Changes -/

/-- Changes one node, if it is there. -/
def modify (tree : Tree) (id : NodeId) (change : Node → Node) : Tree :=
  match tree with
  | ⟨nodes, filename⟩ => ⟨nodes.modify id change, filename⟩

/-- The node that was added last. -/
def newest (tree : Tree) : NodeId := tree.size - 1

/-- Adds a node that is tied to nothing; it is the newest one then. -/
def add (tree : Tree) (node : Node) : Tree :=
  match tree with
  | ⟨nodes, filename⟩ => ⟨nodes.push node, filename⟩

/-- A node with one more child. -/
def addChild (child : NodeId) : Node → Node
  | ⟨kind, span, valid, parent, previous, next, children, cached⟩ =>
    ⟨kind, span, valid, parent, previous, next, children.push child, cached⟩

/-- Makes `child` the last child of `parent`. -/
def attach (tree : Tree) (parent child : NodeId) : Tree :=
  (tree.modify child fun node => { node with parent := some parent }).modify parent
    (addChild child)

/-- Puts `id` on the thread right after `anchor`. -/
def linkAfter (tree : Tree) (anchor id : NodeId) : Tree :=
  let following := tree.next? anchor
  let linked :=
    (tree.modify id fun node => { node with previous := some anchor, next := following }).modify
      anchor fun node => { node with next := some id }
  match following with
  | some further => linked.modify further fun node => { node with previous := some id }
  | none => linked

/-- The node after which the next child of `parent` belongs on the thread: after its last child;
without children, after the root itself, and before any other branch. -/
def threadAnchor (tree : Tree) (parent : NodeId) : NodeId :=
  match (tree.children parent).back? with
  | some last => last
  | none =>
    if parent = root then parent
    else ((tree.node? parent).bind (·.previous)).getD parent

end Tree
end StyleLex
