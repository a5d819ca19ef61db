/-
# The nodes that a call adds

The frame of a call says what it leaves alone.  `Added` says beside that what is new: the items that
were read, below the branch that was added to.  So every node after a call is one that was there
and is the same, the branch itself, or the node of an item (`Added.exists_item`), and a property
of all nodes is proved of each of the three.

A property of all nodes after a session is an induction over its calls.  Without this module each
such induction would have to go into assemblies; with it, a call is described by the tree before,
the tree after and a list of items, and everything that is known of items can be used of the new
nodes.
-/
import StyleLex.Proofs.Frame

namespace StyleLex

/-- What a call has made of the branch `p` and of the tree around it, with `final` the end of its
scan and `items` what it read. -/
structure Added (source : Array UInt8) (p : NodeId) (final : Scan.State) (items : List Item)
    (tree tree' : Tree) : Prop where
  size : tree.size ≤ tree'.size
  /-- Every other node is the same. -/
  kept : ∀ j < tree.size, j ≠ p → tree'.body? j = tree.body? j
  /-- The branch has the items as more children, and it is settled. -/
  target : ∃ (origin : Node) (began : Branch),
    tree.body? p = some origin ∧ origin.kind = .branch began ∧
    began.Alike final.frame.branch ∧
    tree'.body? p = some (Node.finish final.frame.branch (tree'.joinedText source p)
      final.position
      { origin with children := origin.children ++ (items.map (·.label.id)).toArray })
  held : ∀ item ∈ items, tree'.Holds source (some p) item
  /-- The new nodes are those of the items, in the order in which they began. -/
  ids : Item.ids items = List.range' tree.size (tree'.size - tree.size)

/-- Settling a node leaves its children. -/
theorem Node.children_finish (final : Branch) (value : String) (stop : Position) (node : Node) :
    (node.finish final value stop).children = node.children := by
  unfold Node.finish
  split <;> rfl

/-- It begins where it began, and ends where the scan did. -/
theorem Node.span_finish (final : Branch) (value : String) (stop : Position) (node : Node) :
    (node.finish final value stop).span = ⟨node.span.start, stop⟩ := by
  unfold Node.finish
  split <;> rfl

/-- **What a call reads is added to its branch**, and nothing else is. -/
theorem Lexer.extend_added (lexer : Lexer) {tree : Tree} {outline : Rose NodeId} {p : NodeId}
    {origin : Node} {branch : Branch} (h : tree.Ordered outline)
    (hnames : tree.NamesRemember []) (horigin : tree.body? p = some origin)
    (hkind : origin.kind = .branch branch) (source : Source) :
    Added source.bytes p (lexer.scan branch source)
      (lexer.draft (Draft.into tree p origin) branch source).frame.done tree
      (lexer.extend tree p branch source).tree := by
  have hframed := lexer.extend_framed h hnames horigin hkind source
  obtain ⟨site, rfl, rfl, hsite, hrealizes, houter⟩ :=
    lexer.extend_realizes h horigin branch source
  have hgrown : Grown source.bytes site (lexer.extend site.given site.base branch source).tree
      (lexer.draft (Draft.into site.given site.base origin) branch source).frame.done :=
    hrealizes.finish hsite.sound houter _ _
  refine ⟨hgrown.size, hframed.kept, ?_, hgrown.held, hgrown.ids⟩
  obtain ⟨began, found, added, hbegan, hfound, halike, -, hfinal⟩ := hframed.target
  have hadded := hgrown.children
  rw [Tree.children_eq, Tree.children_eq, hfinal, hbegan, Option.map_some, Option.getD_some,
    Node.children_finish, Option.map_some, Option.getD_some, Array.append_right_inj] at hadded
  rw [hadded] at hfinal
  exact ⟨began, found, hbegan, hfound, halike, hfinal⟩

/-- The draft of a call began as the branch that is added to. -/
theorem Lexer.draft_origin (lexer : Lexer) {tree : Tree} {outline : Rose NodeId} {p : NodeId}
    {origin : Node} (h : tree.Ordered outline) (horigin : tree.body? p = some origin)
    (branch : Branch) (source : Source) :
    (lexer.draft (Draft.into tree p origin) branch source).frame.origin = origin := by
  obtain ⟨site, rfl, rfl, hsite, hrealizes, houter⟩ :=
    lexer.extend_realizes h horigin branch source
  obtain ⟨-, -, -, hbegan⟩ := hrealizes.outermost houter
  rw [draft, Draft.origin_frame_settle]
  exact Option.some.inj (hbegan.symm.trans horigin)

namespace Added

variable {source : Array UInt8} {p : NodeId} {final : Scan.State} {items : List Item}
  {tree tree' : Tree} {j : NodeId}

/-- Any other branch has the children that it had. -/
theorem children_kept (h : Added source p final items tree tree') (hj : j < tree.size)
    (hne : j ≠ p) : tree'.children j = tree.children j := by
  rw [Tree.children_eq, Tree.children_eq, h.kept j hj hne]

/-- Any other node is of the kind that it was. -/
theorem kind?_kept (h : Added source p final items tree tree') (hj : j < tree.size)
    (hne : j ≠ p) : tree'.kind? j = tree.kind? j := by
  rw [Tree.kind?_eq, Tree.kind?_eq, h.kept j hj hne]

/-- Any other node has the text that it had. -/
theorem text?_kept (h : Added source p final items tree tree') (hj : j < tree.size)
    (hne : j ≠ p) : tree'.text? source j = tree.text? source j := by
  rw [Tree.text?_eq, Tree.text?_eq, h.kept j hj hne]

/-- The new children come after the old ones. -/
theorem children_target (h : Added source p final items tree tree') :
    tree'.children p = tree.children p ++ (items.map (·.label.id)).toArray := by
  obtain ⟨origin, began, horigin, -, -, hfinal⟩ := h.target
  rw [Tree.children_eq, Tree.children_eq, hfinal, horigin, Option.map_some, Option.getD_some,
    Node.children_finish]
  rfl

/-- **Every new node is that of an item.** -/
theorem exists_item (h : Added source p final items tree tree') {node : Node}
    (hnode : tree'.node? j = some node) (hnew : tree.size ≤ j) :
    ∃ sub ∈ Rose.subtreesAll items, sub.label.id = j ∧ Tree.Shows source sub node ∧
      ∀ child ∈ sub.children, tree'.Holds source (some j) child := by
  have hin : j ∈ Item.ids items := by
    rw [h.ids, List.mem_range'_1, Nat.add_sub_cancel' h.size]
    exact ⟨hnew, Tree.lt_size_of_node? hnode⟩
  obtain ⟨sub, hsub, rfl⟩ := Item.mem_ids.mp hin
  obtain ⟨top, htop, hbelow⟩ := Rose.mem_subtreesAll.mp hsub
  obtain ⟨parent, hholds⟩ := (h.held top htop).of_mem hbelow
  obtain ⟨found, hfound, hshows⟩ := hholds.shows
  obtain rfl := Option.some.inj (hnode.symm.trans hfound)
  exact ⟨sub, hsub, rfl, hshows, (Tree.holds_iff.mp hholds).2⟩

end Added
end StyleLex
