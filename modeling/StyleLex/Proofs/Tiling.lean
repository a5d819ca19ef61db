/-
# Every byte has its place

The nodes of a tree tile the source.  The root spans all of it, and the children of a branch stand
side by side between its opener and what closes it (`Tree.Tiled`).  So every byte is read by one
leaf, or is part of one opener or of one closer: read in order, these parts follow each other from
the first byte to the last (`Item.partsAll_tile`).

A byte is accounted for by a part rather than by a node, as most bytes are inside several nodes at
once: inside a group, and inside what is around the group.  A leaf reads all that it spans; a branch
reads its opener and its closer, and leaves the rest to its children.  With parts instead of nodes,
"every byte is read exactly once" is a statement about one list (`Stretch.Tile.exists_unique`), and
nothing has to be said about nesting.

The argument runs on the items of a scan, where it is an induction on their constructors
(`Item.parts_tile`).  The tree of the source then has the same parts, as its nodes show the items
(`Shown`).  This is the bridge from what a scan does to what its tree looks like, and most of what
is proved further on about `tokenizeBytes` begins by crossing it: the children of a node are those
of an item, in order, and their spans are the same.
-/
import StyleLex.Proofs.Extension
import StyleLex.Proofs.Scan.Layout

namespace StyleLex

/-! ## 1. Parts

A tiling is a list in which each stretch begins where the one before it ends.  Stretches may be
empty: a branch that nothing closes has a closer of no bytes. -/

/-- What may read a byte: a leaf, the opener of a branch, or what closes it. -/
inductive Part where
  | leaf (id : NodeId)
  | opener (id : NodeId)
  | closer (id : NodeId)

/-- The node that a part belongs to. -/
def Part.id : Part → NodeId
  | leaf id | opener id | closer id => id

/-- A part, with the bytes that it reads. -/
structure Stretch where
  part : Part
  start : Nat
  stop : Nat

/-- Stretches that follow each other from `a` to `b`. -/
def Stretch.Tile : Nat → List Stretch → Nat → Prop
  | a, [], b => a = b
  | a, stretch :: rest, b =>
    stretch.start = a ∧ a ≤ stretch.stop ∧ Stretch.Tile stretch.stop rest b

namespace Stretch

/-- A tiling does not go backwards. -/
theorem Tile.le : ∀ {a b : Nat} {stretches : List Stretch}, Tile a stretches b → a ≤ b
  | _, _, [], h => Nat.le_of_eq h
  | _, _, _ :: _, h => Nat.le_trans h.2.1 h.2.2.le

/-- Two tilings that meet make one. -/
theorem Tile.append : ∀ {a b c : Nat} {front back : List Stretch},
    Tile a front b → Tile b back c → Tile a (front ++ back) c
  | _, _, _, [], _, hfront, hback => by
    obtain rfl : _ = _ := hfront
    exact hback
  | _, _, _, _ :: _, _, hfront, hback => ⟨hfront.1, hfront.2.1, hfront.2.2.append hback⟩

/-- A stretch of a tiling is inside it. -/
theorem Tile.bounds : ∀ {a b : Nat} {stretches : List Stretch}, Tile a stretches b →
    ∀ stretch ∈ stretches, a ≤ stretch.start ∧ stretch.stop ≤ b
  | _, _, first :: rest, h, stretch, hin => by
    rcases List.mem_cons.mp hin with rfl | hin
    · exact ⟨Nat.le_of_eq h.1.symm, h.2.2.le⟩
    · obtain ⟨hstart, hstop⟩ := h.2.2.bounds stretch hin
      exact ⟨Nat.le_trans h.2.1 hstart, hstop⟩

/-- **Where stretches follow each other, every place is in one of them.** -/
theorem Tile.exists_unique : ∀ {a b : Nat} {stretches : List Stretch}, Tile a stretches b →
    ∀ i, a ≤ i → i < b →
    ∃ stretch ∈ stretches, (stretch.start ≤ i ∧ i < stretch.stop) ∧
      ∀ other ∈ stretches, other.start ≤ i → i < other.stop → other = stretch
  | a, b, [], h, i, ha, hb => by
    have heq : a = b := h
    omega
  | a, b, first :: rest, h, i, ha, hb => by
    obtain ⟨hstart, hle, htile⟩ := h
    by_cases hi : i < first.stop
    · refine ⟨first, List.mem_cons_self, ⟨by omega, hi⟩, ?_⟩
      intro other hother hother₁ _
      rcases List.mem_cons.mp hother with rfl | hother
      · rfl
      · have hbounds := htile.bounds other hother
        omega
    · obtain ⟨stretch, hin, hcovers, hunique⟩ := htile.exists_unique i (by omega) hb
      refine ⟨stretch, List.mem_cons_of_mem _ hin, hcovers, ?_⟩
      intro other hother hother₁ hother₂
      rcases List.mem_cons.mp hother with rfl | hother
      · exact absurd hother₂ hi
      · exact hunique other hother hother₁ hother₂

end Stretch

/-! ## 2. The parts of items

The parts of all items are listed in the order in which they are read, so that they can be compared
with the bytes.  To find the part that a given node has in the list they are then looked at item by
item (`mem_parts`). -/

namespace Item

/-- Where the content of a branch ends that begins at `start`: with its last child, or behind its
opener. -/
def contentEnd (start : Nat) (branch : Branch) (below : List Item) : Nat :=
  (below.getLast?.map (·.label.span.stop.byte)).getD (start + branch.openerLength)

mutual

/-- The parts of an item, in order. -/
def parts : Item → List Stretch
  | .node label below =>
    match label.kind with
    | .leaf _ => [⟨.leaf label.id, label.span.start.byte, label.span.stop.byte⟩]
    | .branch branch =>
      ⟨.opener label.id, label.span.start.byte, label.span.start.byte + branch.openerLength⟩ ::
        partsAll below ++
        [⟨.closer label.id, contentEnd label.span.start.byte branch below, label.span.stop.byte⟩]

def partsAll : List Item → List Stretch
  | [] => []
  | item :: rest => parts item ++ partsAll rest

end

variable {dialect : Dialect} {input : List UInt8}

mutual

/-- **The parts of an item that is laid out follow each other** from its beginning to its end. -/
theorem parts_tile : ∀ {item : Item}, Laid dialect input item →
    Stretch.Tile item.label.span.start.byte (parts item) item.label.span.stop.byte
  | .node label below, h => by
    obtain ⟨hsits, hbelow⟩ := laid_iff.mp h
    cases hsits with
    | leaf proper => exact ⟨rfl, Nat.le_of_lt proper, rfl⟩
    | branch proper inside named abut closing ends =>
      rw [parts]
      have hcontent := abut.eq_end
      refine ⟨rfl, Nat.le_add_right _ _, (partsAll_tile abut hbelow).append ?_⟩
      exact ⟨hcontent.symm, closing, rfl⟩

/-- So do the parts of items that stand side by side. -/
theorem partsAll_tile : ∀ {a b : Nat} {items : List Item}, Abut a items b →
    (∀ item ∈ items, Laid dialect input item) → Stretch.Tile a (partsAll items) b
  | _, _, [], habut, _ => habut
  | a, b, item :: rest, habut, h => by
    have hfirst := parts_tile (h item List.mem_cons_self)
    rw [habut.1] at hfirst
    rw [partsAll]
    exact hfirst.append (partsAll_tile habut.2 fun item hin => h item (List.mem_cons_of_mem _ hin))

end

/-- The parts that are an item's own. -/
def ownParts : Item → List Stretch
  | .node label below =>
    match label.kind with
    | .leaf _ => [⟨.leaf label.id, label.span.start.byte, label.span.stop.byte⟩]
    | .branch branch =>
      [⟨.opener label.id, label.span.start.byte, label.span.start.byte + branch.openerLength⟩,
        ⟨.closer label.id, contentEnd label.span.start.byte branch below, label.span.stop.byte⟩]

/-- The own parts of an item are those of the node that shows it. -/
theorem id_of_mem_ownParts {stretch : Stretch} {item : Item} (h : stretch ∈ ownParts item) :
    stretch.part.id = item.label.id := by
  obtain ⟨⟨id, kind, valid, span⟩, below⟩ := item
  cases kind with
  | leaf leaf =>
    obtain rfl := List.mem_singleton.mp h
    rfl
  | branch branch =>
    rcases List.mem_cons.mp h with rfl | h
    · rfl
    · obtain rfl := List.mem_singleton.mp h
      rfl

mutual

/-- Every part belongs to an item. -/
theorem mem_parts {stretch : Stretch} : ∀ {item : Item}, Laid dialect input item →
    (stretch ∈ parts item ↔ ∃ sub ∈ item.subtrees, stretch ∈ ownParts sub)
  | .node label below, h => by
    obtain ⟨hsits, hbelow⟩ := laid_iff.mp h
    cases hsits with
    | leaf =>
      rw [parts]
      simp [ownParts, Rose.subtrees]
    | branch =>
      have hmem : stretch ∈ partsAll below ↔
          ∃ sub ∈ Rose.subtreesAll below, stretch ∈ ownParts sub := mem_partsAll hbelow
      rw [parts]
      simp only [List.mem_append, List.mem_cons, List.not_mem_nil, or_false, hmem,
        Rose.mem_subtrees, Rose.children_node, exists_eq_or_imp, ownParts]
      constructor
      · rintro ((hopener | hin) | hcloser)
        · exact Or.inl (Or.inl hopener)
        · exact Or.inr hin
        · exact Or.inl (Or.inr hcloser)
      · rintro ((hopener | hcloser) | hin)
        · exact Or.inl (Or.inl hopener)
        · exact Or.inr hcloser
        · exact Or.inl (Or.inr hin)

/-- So does every part of a list of items. -/
theorem mem_partsAll {stretch : Stretch} : ∀ {items : List Item},
    (∀ item ∈ items, Laid dialect input item) →
    (stretch ∈ partsAll items ↔ ∃ sub ∈ Rose.subtreesAll items, stretch ∈ ownParts sub)
  | [], _ => by simp [partsAll]
  | item :: rest, h => by
    rw [partsAll, List.mem_append, mem_parts (h item List.mem_cons_self),
      mem_partsAll fun item hin => h item (List.mem_cons_of_mem _ hin), Rose.subtreesAll_cons]
    simp only [List.mem_append, or_and_right, exists_or]

end

end Item

/-! ## 3. Tiled trees

The claims of `Tree.Tiled` are about the nodes of a finished tree alone; neither items nor scans are
mentioned.  The value of a name is set when the name is closed, so branches are compared up to their
values. -/

namespace Branch

/-- A branch has the delimiters that it has, whatever its value. -/
@[simp] theorem openerLength_withValue (value : String) (branch : Branch) :
    (Tree.withValue value branch).openerLength = branch.openerLength := by
  cases branch <;> rfl

/-- What closes a branch does not depend on its value. -/
@[simp] theorem closer?_withValue (value : String) (branch : Branch) :
    (Tree.withValue value branch).closer? = branch.closer? := by
  cases branch <;> rfl

/-- A fragment is one whatever its value. -/
@[simp] theorem isFragment_withValue (value : String) (branch : Branch) :
    (Tree.withValue value branch).isFragment = branch.isFragment := by
  cases branch <;> rfl

/-- `branch.Tail dialect rest n`: the last `n` bytes of a branch, where `rest` begins, close it.
Roots, names and fragments have nothing there, and no branch has where the input ends before it
does. -/
inductive Tail (dialect : Dialect) (branch : Branch) (rest : List UInt8) : Nat → Prop where
  | none (bare : branch = .root ∨ branch.isNarrow = true) : Tail dialect branch rest 0
  | atEnd (done : rest = []) : Tail dialect branch rest 0
  | closer {closer : List UInt8} (own : branch.closer? = some closer)
      (ahead : closer.IsPrefix rest) : Tail dialect branch rest closer.length
  | lineBreak {n : Nat}
      (bound : branch = .comment .line ∨
        (∃ quote, branch = .quoted quote) ∧ dialect.extendedStrings = false)
      (ahead : Escape.newlineLength? rest = some n) : Tail dialect branch rest n

end Branch

/-- Nor does the end of its content depend on the value of a branch. -/
theorem Item.contentEnd_withValue (start : Nat) (value : String) (branch : Branch)
    (below : List Item) :
    contentEnd start (Tree.withValue value branch) below = contentEnd start branch below := by
  rw [contentEnd, contentEnd, Branch.openerLength_withValue]

/-- What ends a branch closes it. -/
theorem Ends.tail {dialect : Dialect} {branch : Branch} {last : Option Kind} {rest : List UInt8}
    {valid : Bool} {n : Nat} (h : Ends dialect branch last rest valid n) (value : String) :
    (Tree.withValue value branch).Tail dialect rest n := by
  cases h with
  | closer own ahead => exact .closer (by rw [Branch.closer?_withValue, own]) ahead
  | broken plain ahead => exact .lineBreak (Or.inr ⟨⟨_, rfl⟩, plain⟩) ahead
  | line ahead => exact .lineBreak (Or.inl rfl) ahead
  | identifier => exact .none (Or.inr rfl)
  | hash => exact .none (Or.inr rfl)
  | fragment hfragment =>
    refine .none (Or.inr ?_)
    rw [Branch.isNarrow, Branch.isFragment_withValue, hfragment, Bool.or_true]
  | unterminated => exact .atEnd rfl
  | lineAtEnd => exact .atEnd rfl
  | rootAtEnd => exact .none (Or.inl rfl)

namespace Tree

/-- Nodes that follow each other from `a` to `b`. -/
def Contiguous (tree : Tree) : Nat → List NodeId → Nat → Prop
  | a, [], b => a = b
  | a, id :: rest, b =>
    ∃ node, tree.node? id = some node ∧ node.span.start.byte = a ∧
      Contiguous tree node.span.stop.byte rest b

/-- Where the content of a branch ends: with its last child, or behind its opener. -/
def contentEnd (tree : Tree) (node : Node) (branch : Branch) : Nat :=
  ((node.children.back?.bind tree.node?).map (·.span.stop.byte)).getD
    (node.span.start.byte + branch.openerLength)

/-- Does a part of the tree read the byte at `i`? -/
def Reads (tree : Tree) : Part → Nat → Prop
  | .leaf id, i =>
    ∃ node leaf, tree.node? id = some node ∧ node.kind = .leaf leaf ∧
      node.span.start.byte ≤ i ∧ i < node.span.stop.byte
  | .opener id, i =>
    ∃ node branch, tree.node? id = some node ∧ node.kind = .branch branch ∧
      node.span.start.byte ≤ i ∧ i < node.span.start.byte + branch.openerLength
  | .closer id, i =>
    ∃ node branch, tree.node? id = some node ∧ node.kind = .branch branch ∧
      tree.contentEnd node branch ≤ i ∧ i < node.span.stop.byte

/-- The nodes of a tree tile the source. -/
structure Tiled (dialect : Dialect) (input : List UInt8) (tree : Tree) : Prop where
  /-- The root spans all of it. -/
  root : ∃ node, tree.node? Tree.root = some node ∧ node.kind = .branch .root ∧
    node.span.start.byte = 0 ∧ node.span.stop.byte = input.length
  /-- The children of a branch stand side by side between its opener and what closes it. -/
  branches : ∀ id node branch, tree.node? id = some node → node.kind = .branch branch →
    tree.Contiguous (node.span.start.byte + branch.openerLength) node.children.toList
        (tree.contentEnd node branch) ∧
      tree.contentEnd node branch ≤ node.span.stop.byte ∧
      branch.Tail dialect (input.drop (tree.contentEnd node branch))
        (node.span.stop.byte - tree.contentEnd node branch)
  /-- Every node but the root reads something. -/
  proper : ∀ id ≠ Tree.root, ∀ node, tree.node? id = some node →
    node.span.start.byte < node.span.stop.byte
  /-- Every byte is read once. -/
  read : ∀ i < input.length, ∃ part, tree.Reads part i ∧
    ∀ other, tree.Reads other i → other = part

end Tree

/-! ## 4. The tree of a source is tiled

The root is no item: it is there before the scan begins, and its children are the items.  Therefore
it is treated by itself everywhere below, and the identifiers of the items are those from one on
(`Shown.ids`). -/

/-- A tree shows items that stand side by side over all of a source. -/
structure Shown (dialect : Dialect) (bytes : Array UInt8) (tree : Tree) (items : List Item) :
    Prop where
  root : ∃ node, tree.node? Tree.root = some node ∧ node.kind = .branch .root ∧
    node.valid = true ∧ node.span.start.byte = 0 ∧ node.span.stop.byte = bytes.size ∧
    node.children = (items.map (·.label.id)).toArray
  held : ∀ item ∈ items, tree.Holds bytes (some Tree.root) item
  abut : Item.Abut 0 items bytes.size
  laid : ∀ item ∈ items, Item.Laid dialect bytes.toList item
  ids : Tree.root :: Item.ids items = List.range tree.size

/-- A name changes nothing of what is read. -/
theorem Lexer.items_named (lexer : Lexer) (filename : Option String) (bytes : Array UInt8) :
    lexer.items { bytes := bytes, filename := filename } = lexer.items { bytes := bytes } := rfl

/-- **The tree of a source shows its items**, under any name. -/
theorem Lexer.tokenize_shown (lexer : Lexer) (filename : Option String) (bytes : Array UInt8) :
    Shown lexer.dialect bytes (lexer.tokenize { bytes := bytes, filename := filename }).tree
      (lexer.items { bytes := bytes }) := by
  have hrange : Source.range { bytes := bytes, filename := filename } = bytes.toList := by
    simp [Source.range, Source.limit, Position.origin, Position.byte]
  obtain ⟨hroot, hposition, habut, hlaid⟩ := lexer.scan_laid
    { bytes := bytes, filename := filename } rfl
    (Draft.into (Tree.new filename Position.origin) Tree.root
      (rootOf { bytes := bytes, filename := filename })) rfl rfl rfl rfl
  obtain ⟨hheld, hids, hself⟩ := lexer.tokenize_grown { bytes := bytes, filename := filename }
  obtain ⟨node, hnode, hbody⟩ := Tree.exists_of_body? (hself hroot)
  rw [hrange, Array.length_toList] at habut hposition
  rw [hrange] at hlaid
  rw [← lexer.items_named filename]
  refine ⟨⟨node, hnode, ?_, ?_, ?_, ?_, ?_⟩, hheld, ?_, hlaid, hids⟩
  · exact congrArg Node.kind hbody
  · exact congrArg Node.valid hbody
  · exact congrArg (fun body : Node => body.span.start.byte) hbody
  · exact (congrArg (fun body : Node => body.span.stop.byte) hbody).trans hposition
  · exact congrArg Node.children hbody
  · exact habut

/-- The tree of a source without a name shows its items. -/
theorem Lexer.tokenizeBytes_shown (lexer : Lexer) (bytes : Array UInt8) :
    Shown lexer.dialect bytes (lexer.tokenizeBytes bytes).tree
      (lexer.items { bytes := bytes }) := lexer.tokenize_shown none bytes

namespace Shown

variable {dialect : Dialect} {bytes : Array UInt8} {tree : Tree} {items : List Item}

/-- Every node but the root shows an item that is laid out. -/
theorem exists_item (h : Shown dialect bytes tree items) {id : NodeId} {node : Node}
    (hnode : tree.node? id = some node) (hne : id ≠ Tree.root) :
    ∃ item ∈ Rose.subtreesAll items, item.label.id = id ∧ Tree.Shows bytes item node ∧
      Item.Sits dialect bytes.toList item ∧
      ∀ child ∈ item.children, tree.Holds bytes (some id) child := by
  obtain ⟨item, hitem, hid, hshows, hholds⟩ := Tree.exists_item h.held h.ids hnode hne
  obtain ⟨top, htop, hin⟩ := Rose.mem_subtreesAll.mp hitem
  exact ⟨item, hitem, hid, hshows, h.laid top htop item hin, hholds⟩

/-- Every item is shown by a node. -/
theorem exists_node (h : Shown dialect bytes tree items) {item : Item}
    (hitem : item ∈ Rose.subtreesAll items) :
    ∃ node, tree.node? item.label.id = some node ∧ Tree.Shows bytes item node ∧
      ∀ child ∈ item.children, tree.Holds bytes (some item.label.id) child := by
  obtain ⟨top, htop, hin⟩ := Rose.mem_subtreesAll.mp hitem
  obtain ⟨parent, hholds⟩ := (h.held top htop).of_mem hin
  obtain ⟨node, hnode, hshows⟩ := hholds.shows
  exact ⟨node, hnode, hshows, (Tree.holds_iff.mp hholds).2⟩

end Shown

namespace Tree

variable {tree : Tree} {bytes : Array UInt8} {parent : Option NodeId}

/-- A node that is a leaf shows that leaf. -/
theorem Shows.label_leaf {item : Item} {node : Node} {leaf : Leaf}
    (h : Shows bytes item node) (hkind : node.kind = .leaf leaf) :
    item.label.kind = .leaf leaf := by
  obtain ⟨⟨own, kind, valid, span⟩, below⟩ := item
  have hshown := h.kind.symm.trans hkind
  cases kind with
  | leaf found => exact hshown
  | branch inner => cases hshown

/-- Nodes of items that stand side by side do so too. -/
theorem contiguous_of_abut : ∀ {a b : Nat} {items : List Item},
    (∀ item ∈ items, tree.Holds bytes parent item) → Item.Abut a items b →
    tree.Contiguous a (items.map (·.label.id)) b
  | _, _, [], _, habut => habut
  | _, _, item :: rest, h, habut => by
    obtain ⟨node, hnode, hshows⟩ := (h item List.mem_cons_self).shows
    refine ⟨node, hnode, ?_, ?_⟩
    · rw [hshows.span]
      exact habut.1
    · rw [hshows.span]
      exact contiguous_of_abut (fun item hin => h item (List.mem_cons_of_mem _ hin)) habut.2

/-- The content of a branch ends where that of its item does. -/
theorem contentEnd_eq {node : Node} {below : List Item}
    (hchildren : node.children = (below.map (·.label.id)).toArray)
    (h : ∀ item ∈ below, tree.Holds bytes parent item) (branch : Branch) :
    tree.contentEnd node branch = Item.contentEnd node.span.start.byte branch below := by
  rw [contentEnd, Item.contentEnd, hchildren, List.back?_toArray, List.getLast?_map]
  cases hlast : below.getLast? with
  | none => rfl
  | some last =>
    obtain ⟨found, hfound, hshows⟩ := (h last (List.mem_of_getLast? hlast)).shows
    simp [hfound, hshows.span]

end Tree
namespace Shown

variable {dialect : Dialect} {bytes : Array UInt8} {tree : Tree} {items : List Item}

/-- The content of the root ends with the source. -/
theorem contentEnd_root (h : Shown dialect bytes tree items) {node : Node}
    (hnode : tree.node? Tree.root = some node) : tree.contentEnd node .root = bytes.size := by
  obtain ⟨found, hfound, -, -, hstart, -, hchildren⟩ := h.root
  rw [hnode, Option.some.injEq] at hfound
  subst hfound
  rw [Tree.contentEnd_eq hchildren h.held, Item.contentEnd, hstart]
  exact h.abut.eq_end.symm

/-- Inside a branch, items stand side by side. -/
theorem branch_tiled (h : Shown dialect bytes tree items) {id : NodeId} {node : Node}
    {branch : Branch} (hnode : tree.node? id = some node) (hkind : node.kind = .branch branch) :
    tree.Contiguous (node.span.start.byte + branch.openerLength) node.children.toList
        (tree.contentEnd node branch) ∧
      tree.contentEnd node branch ≤ node.span.stop.byte ∧
      branch.Tail dialect (bytes.toList.drop (tree.contentEnd node branch))
        (node.span.stop.byte - tree.contentEnd node branch) := by
  by_cases hid : id = Tree.root
  · subst hid
    obtain ⟨found, hfound, hroot, -, hstart, hstop, hchildren⟩ := h.root
    rw [hnode, Option.some.injEq] at hfound
    subst hfound
    rw [hkind, Kind.branch.injEq] at hroot
    subst hroot
    rw [h.contentEnd_root hnode, hstart, hstop, hchildren, Nat.sub_self]
    exact ⟨Tree.contiguous_of_abut h.held h.abut, Nat.le_refl _, .none (Or.inl rfl)⟩
  · obtain ⟨item, -, -, hshows, hsits, hholds⟩ := h.exists_item hnode hid
    rw [Tree.contentEnd_eq hshows.children hholds, hshows.children, hshows.span]
    have hkind' := hshows.kind
    rw [hkind] at hkind'
    cases hsits with
    | leaf => cases hkind'
    | @branch id branch valid span below inner proper inside named abut closing ends =>
      rw [Item.kind, Kind.branch.injEq] at hkind'
      subst hkind'
      have hcontent : inner = Item.contentEnd span.start.byte branch below := abut.eq_end
      rw [Item.contentEnd_withValue, Branch.openerLength_withValue]
      simp only [Rose.label_node, Rose.children_node]
      rw [← hcontent]
      exact ⟨Tree.contiguous_of_abut hholds abut, closing, ends.tail _⟩

/-- The parts of a node are those of the item that it shows. -/
theorem reads_own {item : Item} {node : Node} (hnode : tree.node? item.label.id = some node)
    (hshows : Tree.Shows bytes item node) (hsits : Item.Sits dialect bytes.toList item)
    (hholds : ∀ child ∈ item.children, tree.Holds bytes (some item.label.id) child) {part : Part}
    (hpart : part.id = item.label.id) (i : Nat) :
    tree.Reads part i ↔ ∃ stretch ∈ item.ownParts, stretch.part = part ∧
      stretch.start ≤ i ∧ i < stretch.stop := by
  have hkind := hshows.kind
  have hspan := hshows.span
  have hcontent := fun branch => Tree.contentEnd_eq hshows.children hholds branch
  -- a leaf has one part and a branch two; asked for a part of another sort, the node and the item
  -- both have none
  cases hsits with
  | leaf =>
    simp only [Rose.label_node] at hnode hpart hspan
    rw [Item.kind] at hkind
    cases part with
    | leaf id =>
      obtain rfl : id = _ := hpart
      simp [Tree.Reads, Item.ownParts, hnode, hkind, hspan]
    | opener id =>
      obtain rfl : id = _ := hpart
      simp [Tree.Reads, Item.ownParts, hnode, hkind]
    | closer id =>
      obtain rfl : id = _ := hpart
      simp [Tree.Reads, Item.ownParts, hnode, hkind]
  | branch =>
    simp only [Rose.label_node, Rose.children_node] at hnode hpart hspan hcontent
    rw [Item.kind] at hkind
    cases part with
    | leaf id =>
      obtain rfl : id = _ := hpart
      simp [Tree.Reads, Item.ownParts, hnode, hkind]
    | opener id =>
      obtain rfl : id = _ := hpart
      simp [Tree.Reads, Item.ownParts, hnode, hkind, hspan]
    | closer id =>
      obtain rfl : id = _ := hpart
      simp [Tree.Reads, Item.ownParts, hnode, hkind, hspan, hcontent, Item.contentEnd_withValue]

/-- The root has no part of its own. -/
theorem root_reads_nothing (h : Shown dialect bytes tree items) {part : Part} {i : Nat}
    (hreads : tree.Reads part i) : part.id ≠ Tree.root := by
  intro hpart
  obtain ⟨root, hroot, hrootkind, -, -, hstop, -⟩ := h.root
  cases part with
  | leaf id =>
    obtain rfl : id = _ := hpart
    obtain ⟨node, leaf, hnode, hkind, -⟩ := hreads
    rw [hroot, Option.some.injEq] at hnode
    rw [← hnode, hrootkind] at hkind
    cases hkind
  | opener id =>
    obtain rfl : id = _ := hpart
    obtain ⟨node, branch, hnode, hkind, hstart, hend⟩ := hreads
    rw [hroot, Option.some.injEq] at hnode
    rw [← hnode, hrootkind, Kind.branch.injEq] at hkind
    rw [← hkind] at hend
    exact Nat.not_lt_of_le hstart hend
  | closer id =>
    obtain rfl : id = _ := hpart
    obtain ⟨node, branch, hnode, hkind, hstart, hend⟩ := hreads
    have hcontent := h.contentEnd_root hnode
    rw [hroot, Option.some.injEq] at hnode
    rw [← hnode, hrootkind, Kind.branch.injEq] at hkind
    rw [← hkind, hcontent] at hstart
    rw [← hnode, hstop] at hend
    exact Nat.not_lt_of_le hstart hend

/-- A part of the tree is a part of its items. -/
theorem reads_iff (h : Shown dialect bytes tree items) (part : Part) (i : Nat) :
    tree.Reads part i ↔ ∃ stretch ∈ Item.partsAll items, stretch.part = part ∧
      stretch.start ≤ i ∧ i < stretch.stop := by
  constructor
  · intro hreads
    obtain ⟨node, hnode⟩ : ∃ node, tree.node? part.id = some node := by
      cases part with
      | leaf id =>
        obtain ⟨node, -, hnode, -⟩ := hreads
        exact ⟨node, hnode⟩
      | opener id =>
        obtain ⟨node, -, hnode, -⟩ := hreads
        exact ⟨node, hnode⟩
      | closer id =>
        obtain ⟨node, -, hnode, -⟩ := hreads
        exact ⟨node, hnode⟩
    obtain ⟨item, hitem, hid, hshows, hsits, hholds⟩ :=
      h.exists_item hnode (h.root_reads_nothing hreads)
    rw [← hid] at hnode hholds
    obtain ⟨stretch, hin, hcovers⟩ := (reads_own hnode hshows hsits hholds hid.symm i).mp hreads
    exact ⟨stretch, (Item.mem_partsAll h.laid).mpr ⟨item, hitem, hin⟩, hcovers⟩
  · rintro ⟨stretch, hin, rfl, hcovers⟩
    obtain ⟨item, hitem, hin⟩ := (Item.mem_partsAll h.laid).mp hin
    obtain ⟨node, hnode, hshows, hholds⟩ := h.exists_node hitem
    obtain ⟨top, htop, hsub⟩ := Rose.mem_subtreesAll.mp hitem
    have hsits := h.laid top htop item hsub
    exact (reads_own hnode hshows hsits hholds (Item.id_of_mem_ownParts hin) i).mpr
      ⟨stretch, hin, rfl, hcovers⟩

/-- **A tree of items that stand side by side is tiled.** -/
theorem tiled (h : Shown dialect bytes tree items) : tree.Tiled dialect bytes.toList where
  root := by
    obtain ⟨node, hnode, hkind, -, hstart, hstop, -⟩ := h.root
    exact ⟨node, hnode, hkind, hstart, by rw [hstop, Array.length_toList]⟩
  branches := fun _ _ _ hnode hkind => h.branch_tiled hnode hkind
  proper := by
    intro id hne node hnode
    obtain ⟨item, -, -, hshows, hsits, -⟩ := h.exists_item hnode hne
    rw [hshows.span]
    exact hsits.proper
  read := by
    intro i hi
    rw [Array.length_toList] at hi
    have htile := Item.partsAll_tile h.abut h.laid
    obtain ⟨stretch, hin, hcovers, hunique⟩ := htile.exists_unique i (Nat.zero_le i) hi
    refine ⟨stretch.part, (h.reads_iff _ i).mpr ⟨stretch, hin, rfl, hcovers⟩, ?_⟩
    intro other hother
    obtain ⟨found, hfound, rfl, hstart, hstop⟩ := (h.reads_iff other i).mp hother
    rw [hunique found hfound hstart hstop]

end Shown

/-- **Every byte of a source has its place in the tree.**  The root spans the source, the children
of a branch stand side by side between its opener and what closes it, and every byte is read by
one leaf or is part of one delimiter. -/
theorem Lexer.tokenizeBytes_tiled (lexer : Lexer) (bytes : Array UInt8) :
    (lexer.tokenizeBytes bytes).tree.Tiled lexer.dialect bytes.toList :=
  (lexer.tokenizeBytes_shown bytes).tiled

end StyleLex
