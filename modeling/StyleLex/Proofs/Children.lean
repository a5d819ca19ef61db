/-
# What stands in a branch

The tree of a source shows items, and of each item much is known in the branch around it: that it
may stand there, what it was read of, which bytes the branch left to it, and what is ahead where it
was opened (`Item.Known`).  Side by side, they are not leaves that would have been one.  All of it
holds of the items in every branch (`Lexer.items_known`), and so of the children of every branch of
the tree (`Lexer.exists_children`).

Many properties of a tree have the form: every child of a branch of one kind has some property of
its bytes.  They are proved in three steps, of which only the middle one differs: from the node to
the item that it shows, from what is known of the item to the property, and back to the bytes of the
node.  The first and the last step are here.
-/
import Mathlib.Data.List.TakeWhile
import StyleLex.Proofs.Depths
import StyleLex.Proofs.Scan.Beginnings
import StyleLex.Proofs.Scan.Joining
import StyleLex.Proofs.Scan.Leaving
import StyleLex.Proofs.Schema

namespace StyleLex

/-! ## 1. Slices

What is known of an item is said of the bytes ahead at its places; what is claimed of a node is said
of the slice that it covers. -/

section Slices

variable {α : Type} {input : List α} {start stop : Nat}

/-- A byte of a slice is ahead at one of its places. -/
theorem exists_of_mem_slice {a : α} (h : a ∈ (input.drop start).take (stop - start)) :
    ∃ i, start ≤ i ∧ i < stop ∧ (input.drop i).head? = some a := by
  obtain ⟨k, hk, hat⟩ := List.mem_iff_getElem.mp h
  rw [List.length_take] at hk
  refine ⟨start + k, by omega, by omega, ?_⟩
  rw [List.getElem_take] at hat
  rw [List.head?_drop, ← List.getElem?_drop, ← hat]
  exact List.getElem?_eq_getElem _

/-- And so is a part of it. -/
theorem exists_of_infix_slice {part : List α} (hpart : part ≠ [])
    (h : part <:+: (input.drop start).take (stop - start)) :
    ∃ i, start ≤ i ∧ i < stop ∧ part <+: input.drop i := by
  obtain ⟨front, back, hslice⟩ := h
  have hlength := congrArg List.length hslice
  rw [List.length_append, List.length_append, List.length_take] at hlength
  have hpositive := List.length_pos_iff.mpr hpart
  refine ⟨start + front.length, by omega, by omega, ?_⟩
  have hfront : front ++ part <+: input.drop start :=
    (List.prefix_append _ back).trans (hslice ▸ List.take_prefix _ _)
  obtain ⟨behind, hbehind⟩ := hfront
  refine ⟨behind, ?_⟩
  rw [← List.drop_drop, ← hbehind, List.append_assoc, List.drop_left]

/-- Inside a run every place has a byte of the run ahead. -/
theorem exists_head_of_lt_takeWhile {p : α → Bool} {l : List α} {k : Nat}
    (h : k < (l.takeWhile p).length) : ∃ a, (l.drop k).head? = some a ∧ p a = true := by
  refine ⟨(l.takeWhile p)[k], ?_, List.mem_takeWhile_imp (List.getElem_mem h)⟩
  rw [List.head?_drop, (List.takeWhile_prefix p).getElem h]
  exact List.getElem?_eq_getElem _

end Slices

/-! ## 2. Items in their branches

What is known of an item depends on the branch around it, so items are listed with that branch. -/

/-- What is known of an item in the branch around it. -/
structure Item.Known (dialect : Dialect) (input : List UInt8) (around : Branch) (item : Item) :
    Prop where
  held : around.holds dialect.extendedComments item.label.kind = true
  sits : Item.Sits dialect input item
  spoken : Item.Says dialect input item
  run : around.isName = true → Item.WholeRun input item
  left : Item.Left dialect input around item
  begun : Item.OpenedIn (Branch.beginning dialect input) around item

/-- The children of a branch show items that stand side by side in it, and what holds of the items
in a branch holds of these. -/
theorem Shown.exists_children {dialect : Dialect} {bytes : Array UInt8} {tree : Tree}
    {items : List Item} (h : Shown dialect bytes tree items) {P : Branch → List Item → Prop}
    (htop : P .root items)
    (hbelow : ∀ top ∈ items, ∀ above ∈ top.subtrees, ∀ branch,
      above.label.kind = .branch branch → P branch above.children)
    {id : NodeId} {node : Node} {branch : Branch} (hnode : tree.node? id = some node)
    (hkind : node.kind = .branch branch) :
    ∃ (around : Branch) (value : String) (below : List Item),
      branch = Tree.withValue value around ∧
      node.children = (below.map (·.label.id)).toArray ∧
      Item.Abut (node.span.start.byte + branch.openerLength) below
        (tree.contentEnd node branch) ∧
      (∀ child ∈ below, tree.Holds bytes (some id) child) ∧ P around below := by
  by_cases hid : id = Tree.root
  · subst hid
    have hcontent := h.contentEnd_root hnode
    obtain ⟨root, hroot, hrootkind, -, hstart, -, hchildren⟩ := h.root
    obtain rfl : node = root := Option.some.inj (hnode.symm.trans hroot)
    obtain rfl : branch = .root := Kind.branch.inj (hkind.symm.trans hrootkind)
    refine ⟨.root, "", items, rfl, hchildren, ?_, h.held, htop⟩
    rw [hcontent, hstart]
    exact h.abut
  · obtain ⟨item, hitem, rfl, hshows, hsits, hheld⟩ := h.exists_item hnode hid
    obtain ⟨top, hin, hsub⟩ := Rose.mem_subtreesAll.mp hitem
    have hcontent := fun branch => Tree.contentEnd_eq hshows.children hheld branch
    have hvalued := hshows.kind.symm.trans hkind
    cases hsits with
    | leaf => cases hvalued
    | @branch own around valid span below inner proper inside named abut closing ends =>
      obtain rfl : Tree.withValue _ around = branch := Kind.branch.inj hvalued
      refine ⟨around, _, below, rfl, hshows.children, ?_, hheld, hbelow top hin _ hsub around rfl⟩
      rw [hcontent, Item.contentEnd_withValue, Branch.openerLength_withValue, hshows.span]
      have hend : inner = Item.contentEnd span.start.byte around below := abut.eq_end
      rw [hend] at abut
      exact abut

/-! ## 3. The tree of a source

The invariants of the scan are put together, one field each, and handed on to the nodes. -/

/-- What is known of the items in a branch, of each by itself and of all of them side by side. -/
structure Item.KnownAll (dialect : Dialect) (input : List UInt8) (around : Branch)
    (items : List Item) : Prop where
  each : ∀ item ∈ items, Item.Known dialect input around item
  parted : around.isNarrow = false → Kind.Parted (items.map (·.label.kind))

variable {lexer : Lexer} {bytes : Array UInt8} {id : NodeId} {node : Node}

/-- **What is known of the items in the root**, and in every branch below it. -/
theorem Lexer.items_known (hmade : lexer.fragments.Made) (bytes : Array UInt8) :
    Item.KnownAll lexer.dialect bytes.toList .root (lexer.items { bytes := bytes }) ∧
      ∀ top ∈ lexer.items { bytes := bytes }, ∀ above ∈ top.subtrees, ∀ branch,
        above.label.kind = .branch branch →
        Item.KnownAll lexer.dialect bytes.toList branch above.children := by
  have hshown := lexer.tokenizeBytes_shown bytes
  obtain ⟨-, hschematic⟩ := scan_schematic hmade { bytes := bytes } (blank { bytes := bytes })
    rfl rfl rfl
  obtain ⟨hparted, hpartedBelow⟩ := lexer.items_parted bytes
  refine ⟨⟨fun item hitem => ?_, fun _ => hparted⟩,
    fun top htop above habove around hbranch => ⟨fun child hchild => ?_,
      hpartedBelow top htop above habove around hbranch⟩⟩
  · have hlaid := Item.laid_iff.mp (hshown.laid item hitem)
    have hread := Item.read_iff.mp (lexer.items_read bytes item hitem)
    exact ⟨(hschematic item hitem).1, hlaid.1, hread.1, nofun,
      (lexer.items_leave bytes item hitem).1, (lexer.items_begun hmade bytes item hitem).1⟩
  · have hin := Rose.mem_subtrees_trans (Rose.mem_subtrees_of_mem_children hchild) habove
    have hshape := (hschematic top htop).2 above habove
    rw [hbranch] at hshape
    have hspoken := lexer.items_read bytes top htop
    exact ⟨hshape.held _ (List.mem_map_of_mem hchild), hshown.laid top htop child hin,
      hspoken child hin,
      fun hname => ((hspoken above habove).name around hbranch hname).2 child hchild,
      (lexer.items_leave bytes top htop).2 above habove around hbranch child hchild,
      (lexer.items_begun hmade bytes top htop).2 above habove around hbranch child hchild⟩

/-- **What is known of the children of a branch.** -/
theorem Lexer.exists_children (hmade : lexer.fragments.Made) {branch : Branch}
    (hnode : (lexer.tokenizeBytes bytes).tree.node? id = some node)
    (hkind : node.kind = .branch branch) :
    ∃ (around : Branch) (value : String) (below : List Item),
      branch = Tree.withValue value around ∧
      node.children = (below.map (·.label.id)).toArray ∧
      Item.Abut (node.span.start.byte + branch.openerLength) below
        ((lexer.tokenizeBytes bytes).tree.contentEnd node branch) ∧
      (∀ child ∈ below, (lexer.tokenizeBytes bytes).tree.Holds bytes (some id) child) ∧
      Item.KnownAll lexer.dialect bytes.toList around below := by
  obtain ⟨htop, hbelow⟩ := lexer.items_known hmade bytes
  exact (lexer.tokenizeBytes_shown bytes).exists_children htop hbelow hnode hkind

/-- **What is known of the item that a node shows**, and of the items in it. -/
theorem Shown.exists_known (hmade : lexer.fragments.Made) {tree : Tree}
    (h : Shown lexer.dialect bytes tree (lexer.items { bytes := bytes }))
    (hnode : tree.node? id = some node) (hne : id ≠ Tree.root) :
    ∃ (around : Branch) (item : Item), Tree.Shows bytes item node ∧
      Item.Known lexer.dialect bytes.toList around item ∧
      ∀ branch, item.label.kind = .branch branch →
        Item.KnownAll lexer.dialect bytes.toList branch item.children := by
  obtain ⟨htop, hbelow⟩ := lexer.items_known hmade bytes
  obtain ⟨item, hitem, -, hshows, -, -⟩ := h.exists_item hnode hne
  obtain ⟨top, hin, hsub⟩ := Rose.mem_subtreesAll.mp hitem
  have hinside := hbelow top hin item hsub
  rcases Rose.eq_or_exists_parent hsub with rfl | ⟨above, habove, hchild⟩
  · exact ⟨.root, item, hshows, htop.each item hin, hinside⟩
  · cases hkind : above.label.kind with
    | leaf leaf =>
      cases h.laid top hin above habove with
      | leaf => cases hchild
      | branch => cases hkind
    | branch around =>
      exact ⟨around, item, hshows, (hbelow top hin above habove around hkind).each item hchild,
        hinside⟩

/-- **What is known of one child of a branch.** -/
theorem Lexer.exists_known (hmade : lexer.fragments.Made) {child : NodeId} {found : Node}
    {branch : Branch} (hnode : (lexer.tokenizeBytes bytes).tree.node? id = some node)
    (hkind : node.kind = .branch branch) (hchild : child ∈ node.children)
    (hfound : (lexer.tokenizeBytes bytes).tree.node? child = some found) :
    ∃ (around : Branch) (value : String) (item : Item), branch = Tree.withValue value around ∧
      Tree.Shows bytes item found ∧ Item.Known lexer.dialect bytes.toList around item := by
  obtain ⟨around, value, below, hbranch, hchildren, -, hheld, hknown⟩ :=
    lexer.exists_children hmade hnode hkind
  obtain ⟨item, hitem, rfl⟩ : ∃ item ∈ below, item.label.id = child := by
    simpa [hchildren] using hchild
  obtain ⟨shown, hshown, hshows⟩ := (hheld item hitem).shows
  obtain rfl : found = shown := Option.some.inj (hfound.symm.trans hshown)
  exact ⟨around, value, item, hbranch, hshows, hknown.each item hitem⟩

/-- Every node but the root is a child of the branch that is its parent. -/
theorem Lexer.exists_parent (lexer : Lexer)
    (hnode : (lexer.tokenizeBytes bytes).tree.node? id = some node) (hne : id ≠ Tree.root) :
    ∃ (parent : NodeId) (above : Node) (branch : Branch),
      (lexer.tokenizeBytes bytes).tree.parent? id = some parent ∧
      (lexer.tokenizeBytes bytes).tree.node? parent = some above ∧
      above.kind = .branch branch ∧ id ∈ above.children := by
  have hsize := Tree.lt_size_of_node? hnode
  obtain ⟨outline, hordered, -⟩ := lexer.tokenize_ordered { bytes := bytes }
  obtain ⟨parent, branch, hparent, hkind⟩ :=
    lexer.exists_branch_above { bytes := bytes } hsize hne
  obtain ⟨above, habove, hbranch⟩ := Option.map_eq_some_iff.mp hkind
  obtain ⟨placed, -, hplaced, hcount, -⟩ := hordered.placed hsize hne
  obtain rfl : parent = placed := Option.some.inj (hparent.symm.trans hplaced)
  refine ⟨parent, above, branch, hparent, habove, hbranch, ?_⟩
  have hin : id ∈ (lexer.tokenize { bytes := bytes }).tree.children parent := by
    rw [← Array.mem_toList_iff]
    exact List.count_pos_iff.mp (Nat.lt_of_lt_of_eq Nat.one_pos hcount.symm)
  rw [Tree.children, habove] at hin
  exact hin

end StyleLex
