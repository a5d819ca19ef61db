/-
# Items in a tree

`tree.Holds source parent item` says that a tree has the nodes of an item: each one as the item
describes it, below its own parent, with the ids right below it as its children.  The text of a
run may have been kept; nothing else may differ.

An item stays in a tree as long as none of its nodes changes (`Holds.transport`), so a proof about
a change looks only at the nodes that the change names.

An item is what a scan says of a node, a node is what the arena keeps of it.  They differ in two
ways only: the arena ties the node to a parent, and a text that was read is kept.  `Item.entry` is
the node that an item stands for, and `Node.Kept` allows for the text; so every fact about the kind,
the span, the flag and the children of a node is a fact about an item (`Tree.Shows`), where
induction is on a rose tree and no arena is in sight.
-/
import StyleLex.Proofs.Tree.Draft
import StyleLex.Proofs.Tree.Nodes

namespace StyleLex

/-! ## 1. What an item says of its node

The value of a name is not in the marks of a scan, for a scan does not evaluate.  It is the text of
what is below the name, and an item has that text by recursion. -/

namespace Item

mutual

/-- The text of an item; one that has none has the empty text. -/
def text (source : Array UInt8) : Item → String
  | .node label below =>
    match label.kind with
    | .branch (.identifier _) | .branch (.hash _) => textAll source below
    | .leaf (.escape escape) => escape.text
    | kind => if kind.isRun then label.span.read source else ""

def textAll (source : Array UInt8) : List Item → String
  | [] => ""
  | item :: rest => text source item ++ textAll source rest

end

/-- The kind of an item; a name has the text of its children as its value. -/
def kind (source : Array UInt8) : Item → Kind
  | .node label below =>
    match label.kind with
    | .branch branch => .branch (Tree.withValue (textAll source below) branch)
    | .leaf leaf => .leaf leaf

/-- The node that an item stands for. -/
def entry (source : Array UInt8) (parent : Option NodeId) (item : Item) : Node where
  kind := item.kind source
  span := item.label.span
  valid := item.label.valid
  parent := parent
  children := (item.children.map (·.label.id)).toArray

/-- An item and its node have the same text. -/
theorem text?_entry (source : Array UInt8) (parent : Option NodeId) (item : Item) :
    ((item.entry source parent).text? source).getD "" = item.text source := by
  obtain ⟨⟨id, kind, valid, span⟩, below⟩ := item
  cases kind with
  | branch branch =>
    cases branch <;>
      simp [Node.text?, entry, Item.kind, Tree.withValue, text, Kind.isRun]
  | leaf leaf =>
    cases leaf <;> simp [Node.text?, entry, Item.kind, text, Kind.isRun, Leaf.isRun]

/-- Where an item ends changes nothing else. -/
theorem entry_endAt (source : Array UInt8) (parent : Option NodeId) (stop : Position)
    (item : Item) :
    (endAt stop item).entry source parent =
      { item.entry source none with
        span := { item.label.span with stop := stop }
        parent := parent } := by
  cases item
  rfl

end Item

/-- A kept text is the text. -/
theorem Node.Kept.text?_eq {source : Array UInt8} {node kept : Node}
    (h : node.Kept source kept) : kept.text? source = node.text? source := by
  rcases h with rfl | rfl
  · rfl
  · unfold Node.text?
    split <;> simp_all

/-! ## 2. Items held

Holding is defined by the same recursion as items are, and then given node by node (`holds_iff`),
which is the form that proofs use. -/

namespace Tree

mutual

/-- The nodes of an item are in a tree, below `parent`. -/
def Holds (tree : Tree) (source : Array UInt8) (parent : Option NodeId) : Item → Prop
  | .node label below =>
    (∃ kept, tree.body? label.id = some kept ∧
      (Item.entry source parent (.node label below)).Kept source kept) ∧
    HoldsAll tree source (some label.id) below

def HoldsAll (tree : Tree) (source : Array UInt8) (parent : Option NodeId) : List Item → Prop
  | [] => True
  | item :: rest => Holds tree source parent item ∧ HoldsAll tree source parent rest

end

variable {tree tree' : Tree} {source : Array UInt8} {parent : Option NodeId}

/-- Items are held together if each one is. -/
theorem holdsAll_iff {items : List Item} :
    tree.HoldsAll source parent items ↔ ∀ item ∈ items, tree.Holds source parent item := by
  induction items with
  | nil => simp [HoldsAll]
  | cons item rest ih => simp [HoldsAll, ih]

/-- **An item is held** if its own node is there and its children are held below it. -/
theorem holds_iff {item : Item} :
    tree.Holds source parent item ↔
      (∃ kept, tree.body? item.label.id = some kept ∧
        (item.entry source parent).Kept source kept) ∧
      ∀ child ∈ item.children, tree.Holds source (some item.label.id) child := by
  cases item
  rw [Holds, holdsAll_iff]
  rfl

mutual

/-- **An item stays** where its nodes stay. -/
theorem Holds.transport : ∀ {item : Item} {parent : Option NodeId},
    tree.Holds source parent item →
    (∀ id ∈ Item.ids [item], ∀ node, tree.body? id = some node →
      ∃ kept, tree'.body? id = some kept ∧ node.Kept source kept) →
    tree'.Holds source parent item
  | .node label below, parent, h, hkeep => by
    rw [Holds] at h ⊢
    obtain ⟨⟨node, hnode, hkept⟩, hbelow⟩ := h
    rw [Item.ids_singleton] at hkeep
    refine ⟨?_, HoldsAll.transport hbelow fun id hid => hkeep id (List.mem_cons_of_mem _ hid)⟩
    obtain ⟨kept, hkept', hstep⟩ := hkeep label.id List.mem_cons_self node hnode
    exact ⟨kept, hkept', hkept.trans hstep⟩

theorem HoldsAll.transport : ∀ {items : List Item} {parent : Option NodeId},
    tree.HoldsAll source parent items →
    (∀ id ∈ Item.ids items, ∀ node, tree.body? id = some node →
      ∃ kept, tree'.body? id = some kept ∧ node.Kept source kept) →
    tree'.HoldsAll source parent items
  | [], _, _, _ => by simp [HoldsAll]
  | item :: rest, parent, h, hkeep => by
    rw [HoldsAll] at h ⊢
    have hids : Item.ids (item :: rest) = Item.ids [item] ++ Item.ids rest :=
      Item.ids_append [item] rest
    rw [hids] at hkeep
    exact ⟨h.1.transport fun id hid => hkeep id (List.mem_append_left _ hid),
      h.2.transport fun id hid => hkeep id (List.mem_append_right _ hid)⟩

end

/-- An item stays where the bodies of its nodes do not change at all. -/
theorem Holds.of_body?_eq {item : Item} (h : tree.Holds source parent item)
    (heq : ∀ id ∈ Item.ids [item], tree'.body? id = tree.body? id) :
    tree'.Holds source parent item :=
  h.transport fun id hid node hnode => ⟨node, by rw [heq id hid, hnode], Or.inl rfl⟩

/-- A new node disturbs no item. -/
theorem Holds.add {item : Item} (h : tree.Holds source parent item) (node : Node) :
    (tree.add node).Holds source parent item :=
  h.transport fun _ _ body hbody => ⟨body, body?_add_of_some node hbody, Or.inl rfl⟩

mutual

/-- What is inside an item that is held is held, below a parent of its own. -/
theorem Holds.of_mem {sub : Item} : ∀ {item : Item} {parent : Option NodeId},
    tree.Holds source parent item → sub ∈ item.subtrees →
    ∃ parent, tree.Holds source parent sub
  | .node label below, parent, h, hsub => by
    rcases Rose.mem_subtrees.mp hsub with rfl | hsub
    · exact ⟨parent, h⟩
    · rw [Holds] at h
      exact h.2.of_mem hsub

theorem HoldsAll.of_mem {sub : Item} : ∀ {items : List Item} {parent : Option NodeId},
    tree.HoldsAll source parent items → sub ∈ Rose.subtreesAll items →
    ∃ parent, tree.Holds source parent sub
  | item :: rest, parent, h, hsub => by
    rw [HoldsAll] at h
    rw [Rose.subtreesAll_cons, List.mem_append] at hsub
    rcases hsub with hsub | hsub
    · exact h.1.of_mem hsub
    · exact h.2.of_mem hsub

end

/-- An item that is held has its parent, and its children in order. -/
theorem Holds.parent?_label {item : Item} (h : tree.Holds source parent item) :
    tree.parent? item.label.id = parent := by
  obtain ⟨⟨kept, hkept, hnode⟩, -⟩ := holds_iff.mp h
  rw [parent?_eq, hkept]
  rcases hnode with rfl | rfl <;> rfl

/-- And its children in order. -/
theorem Holds.children_label {item : Item} (h : tree.Holds source parent item) :
    (tree.children item.label.id).toList = item.children.map (·.label.id) := by
  obtain ⟨⟨kept, hkept, hnode⟩, -⟩ := holds_iff.mp h
  rw [children_eq, hkept]
  rcases hnode with rfl | rfl <;> rfl

/-- A node shows an item: nothing but its place in the tree and the text that is kept of it is
its own. -/
structure Shows (source : Array UInt8) (item : Item) (node : Node) : Prop where
  kind : node.kind = item.kind source
  span : node.span = item.label.span
  valid : node.valid = item.label.valid
  children : node.children = (item.children.map (·.label.id)).toArray

/-- The node of an item that is held shows the item. -/
theorem Holds.shows {item : Item} (h : tree.Holds source parent item) :
    ∃ node, tree.node? item.label.id = some node ∧ Shows source item node := by
  obtain ⟨⟨kept, hkept, hsame⟩, -⟩ := holds_iff.mp h
  obtain ⟨node, hnode, rfl⟩ := exists_of_body? hkept
  refine ⟨node, hnode, ?_⟩
  have hkind : node.kind = node.body.kind := rfl
  have hspan : node.span = node.body.span := rfl
  have hvalid : node.valid = node.body.valid := rfl
  have hchildren : node.children = node.body.children := rfl
  rcases hsame with hsame | hsame
  · rw [hsame] at hkind hspan hvalid hchildren
    exact ⟨hkind, hspan, hvalid, hchildren⟩
  · rw [hsame] at hkind hspan hvalid hchildren
    exact ⟨hkind, hspan, hvalid, hchildren⟩

/-- **Every node but the root shows an item**, if the items are all there is below it. -/
theorem exists_item {items : List Item} (hheld : ∀ item ∈ items, tree.Holds source parent item)
    (hids : root :: Item.ids items = List.range tree.size) {id : NodeId} {node : Node}
    (hnode : tree.node? id = some node) (hne : id ≠ root) :
    ∃ item ∈ Rose.subtreesAll items, item.label.id = id ∧ Shows source item node ∧
      ∀ child ∈ item.children, tree.Holds source (some id) child := by
  have hid : id ∈ root :: Item.ids items := by
    rw [hids]
    exact List.mem_range.mpr (lt_size_of_node? hnode)
  obtain ⟨item, hitem, rfl⟩ := Item.mem_ids.mp ((List.mem_cons.mp hid).resolve_left hne)
  obtain ⟨top, htop, hin⟩ := Rose.mem_subtreesAll.mp hitem
  obtain ⟨parent, hholds⟩ := (hheld top htop).of_mem hin
  obtain ⟨found, hfound, hshows⟩ := hholds.shows
  rw [hnode, Option.some.injEq] at hfound
  subst hfound
  exact ⟨item, hitem, rfl, hshows, (holds_iff.mp hholds).2⟩

/-! ## 3. Texts of children -/

/-- The texts of children that are held are joined to the text of the items. -/
theorem joinedText_eq {id : NodeId} {items : List Item}
    (hchildren : (tree.children id).toList = items.map (·.label.id))
    (h : ∀ item ∈ items, tree.Holds source parent item) :
    tree.joinedText source id = Item.textAll source items := by
  have hfold : ∀ (items : List Item) (before : String),
      (∀ item ∈ items, tree.Holds source parent item) →
      (items.map (·.label.id)).foldl
          (fun text child => text ++ (tree.text? source child).getD "") before =
        before ++ Item.textAll source items := by
    intro items
    induction items with
    | nil =>
      intro before _
      simp [Item.textAll]
    | cons item rest ih =>
      intro before h
      obtain ⟨⟨kept, hkept, hnode⟩, -⟩ := holds_iff.mp (h item List.mem_cons_self)
      have htext : (tree.text? source item.label.id).getD "" = item.text source := by
        rw [text?_eq, hkept, Option.bind_some, hnode.text?_eq, Item.text?_entry]
      rw [List.map_cons, List.foldl_cons, htext,
        ih _ fun item hin => h item (List.mem_cons_of_mem _ hin), Item.textAll, String.append_assoc]
  rw [joinedText, ← Array.foldl_toList, hchildren, hfold items "" h, String.empty_append]

end Tree
end StyleLex
