/-
# How much a call adds, and how deep

A call reports how many nodes it added and how many branches were open at once.  The first number
is counted when a node is tied in, so it is right if nothing is left untied in the end
(`Assembly.Counted`).  The second one is counted while the scan goes on; in the tree it is the
depth of the deepest branch, for the draft that the scan makes has the same peak
(`Lexer.isGreatest_depth`).

The two numbers are made at different times: the first while the tree is assembled, the second while
the source is read.  A node counts as added when it is attached, and by then it may have been in the
tree for long, as an open branch or as the pending leaf.  `Assembly.Counted` is the balance between
the size of the tree and those that are still on the way.

For the second number the tree has to be compared with a moment of the scan: the one at which most
branches were open.  What an item reaches is defined by recursion over the item (`Item.reach`), and
both sides are shown to be equal to the largest reach.
-/
import Mathlib.Order.Bounds.Defs
import StyleLex.Proofs.Freshness
import StyleLex.Proofs.Scan.Below
import StyleLex.Proofs.Scan.Levels
import StyleLex.Proofs.Warnings

namespace StyleLex

/-! ## 1. Nodes

Four numbers have to balance, and a mark moves one unit between them. -/

namespace Assembly

variable {assembly : Assembly} {before : Nat}

/-- Every node was there before, or was tied in, or is an open branch, or is pending. -/
def Counted (before : Nat) (assembly : Assembly) : Prop :=
  assembly.tree.size =
    before + assembly.attached + assembly.outer.length + assembly.pending.toList.length

/-- What is pending becomes attached. -/
theorem Counted.settle (h : assembly.Counted before) (stop : Position) :
    (assembly.settle stop).Counted before := by
  cases hpending : assembly.pending with
  | none =>
    rw [settle_of_none hpending]
    exact h
  | some id =>
    rw [Counted, hpending] at h
    rw [settle_of_some hpending, Counted]
    simp only [Tree.size_tie, Option.toList_none, List.length_nil]
    simp only [Option.toList_some, List.length_singleton] at h
    omega

/-- **Every mark keeps the count.** -/
theorem Counted.take (h : assembly.Counted before) (source : Array UInt8) (mark : Mark) :
    (assembly.take source mark).Counted before := by
  cases mark with
  | leaf leaf valid start =>
    -- one node more, and it is pending
    have hs := h.settle start
    have hpending := assembly.pending_settle start
    rw [Assembly.take]
    generalize assembly.settle start = settled at *
    rw [Counted, hpending] at hs
    simp only [Counted, add_eq, Tree.size_add, Option.toList_some, List.length_singleton]
    simp only [Option.toList_none, List.length_nil] at hs
    omega
  | opened branch start =>
    -- one node more, and it is open
    have hs := h.settle start
    have hpending := assembly.pending_settle start
    rw [Assembly.take]
    generalize assembly.settle start = settled at *
    rw [Counted, hpending] at hs
    simp only [Counted, add_eq, Tree.size_add, hpending, List.length_cons]
    omega
  | closed branch valid stop =>
    -- a branch that was open is pending
    have hs := h.settle stop
    have hpending := assembly.pending_settle stop
    rw [Assembly.take, complete_eq]
    generalize assembly.settle stop = settled at *
    obtain ⟨tree, tail, id, outer, pending, attached⟩ := settled
    obtain rfl : pending = none := hpending
    cases outer with
    | nil =>
      rw [Counted] at hs ⊢
      rw [Tree.size_close]
      exact hs
    | cons around further =>
      simp only [Counted, Option.toList_none, List.length_nil, List.length_cons] at hs
      simp only [Counted, Tree.size_close, Option.toList_some, List.length_singleton]
      omega

/-- By induction on the marks. -/
theorem Counted.takeAll (source : Array UInt8) (marks : List Mark) {assembly : Assembly}
    (h : assembly.Counted before) : (assembly.takeAll source marks).Counted before := by
  induction marks generalizing assembly with
  | nil => exact h
  | cons mark rest ih => exact ih (h.take source mark)

/-- An assembly has as many open branches as a draft that takes the same marks. -/
theorem length_outer_take (source : Array UInt8) (mark : Mark) {draft : Draft}
    (h : assembly.outer.length = draft.outer.length) :
    (assembly.take source mark).outer.length = (draft.take mark).outer.length := by
  rw [Draft.length_outer_take, ← h]
  cases mark with
  | leaf leaf valid start =>
    show (assembly.settle start).outer.length = _
    rw [outer_settle]
  | opened branch start =>
    show ((assembly.settle start).branch :: (assembly.settle start).outer).length = _
    rw [List.length_cons, outer_settle]
  | closed branch valid stop =>
    have houter := assembly.outer_settle stop
    rw [Assembly.take, complete_eq, ← houter]
    generalize assembly.settle stop = settled
    obtain ⟨tree, tail, id, outer, pending, attached⟩ := settled
    cases outer <;> rfl

/-- By induction on the marks, from an assembly and a draft that have as many. -/
theorem length_outer_takeAll (source : Array UInt8) (marks : List Mark) {assembly : Assembly}
    {draft : Draft} (h : assembly.outer.length = draft.outer.length) :
    (assembly.takeAll source marks).outer.length = (draft.takeAll marks).outer.length := by
  induction marks generalizing assembly draft with
  | nil => exact h
  | cons mark rest ih => exact ih (length_outer_take source mark h)

/-- When no branch is open, ending the assembly leaves nothing untied. -/
theorem Counted.finish (h : assembly.Counted before) (houter : assembly.outer = [])
    (source : Array UInt8) (branch : Branch) (stop : Position) :
    before + (assembly.finish source branch stop).attached =
      (assembly.finish source branch stop).tree.size := by
  have hs := h.settle stop
  rw [Counted, pending_settle, outer_settle, houter] at hs
  have hattached : (assembly.finish source branch stop).attached =
      (assembly.settle stop).attached := by cases branch <;> rfl
  have hsize : (assembly.finish source branch stop).tree.size =
      (assembly.settle stop).tree.size := by
    rw [finish_eq]
    simp
  rw [hattached, hsize, hs]
  rfl

end Assembly

/-- When the marks of a call are assembled, no branch is open but the one that is added to: the scan
closes what it opens, and the assembly goes by the marks alone. -/
theorem Lexer.outer_assembled (lexer : Lexer) (tree : Tree) (p : NodeId) (branch : Branch)
    (source : Source) :
    ((Assembly.into tree p).takeAll source.bytes
      (lexer.scan branch source).marks.reverse).outer = [] := by
  have hdraft : ((Draft.into tree p (rootOf source)).takeAll
      (lexer.scan branch source).marks.reverse).outer = [] :=
    (lexer.scan_admits branch source rfl).2
  have hlength : ((Assembly.into tree p).takeAll source.bytes
      (lexer.scan branch source).marks.reverse).outer.length = _ :=
    Assembly.length_outer_takeAll _ _ (show _ = (Draft.into tree p (rootOf source)).outer.length
      from rfl)
  rw [hdraft] at hlength
  exact List.length_eq_zero_iff.mp hlength

/-- **A call reports the number of nodes that it adds**, whatever tree it adds to. -/
theorem Lexer.size_extend (lexer : Lexer) (tree : Tree) (p : NodeId) (branch : Branch)
    (source : Source) :
    tree.size + (lexer.extend tree p branch source).metrics.nodes =
      (lexer.extend tree p branch source).tree.size := by
  have hbegun : (Assembly.into tree p).Counted tree.size := rfl
  exact (hbegun.takeAll source.bytes _).finish (lexer.outer_assembled tree p branch source) _ _ _

/-! ## 2. Depths

The depth of a node is counted upwards along its parents, and reach is counted downwards; so depth
is first shown to grow by one from a parent to its child. -/

namespace Tree.Ordered

variable {tree : Tree} {outline : Rose NodeId}

/-- A climb that is long enough ends at the root. -/
theorem climb_eq_climb (h : tree.Ordered outline) : ∀ (n m : Nat) (id : NodeId), id < n → id < m →
    tree.climb n id = tree.climb m id
  | 0, _, _, hn, _ => absurd hn (Nat.not_lt_zero _)
  | _, 0, _, _, hm => absurd hm (Nat.not_lt_zero _)
  | n + 1, m + 1, id, hn, hm => by
    rw [climb, climb]
    cases hparent : tree.parent? id with
    | none => rfl
    | some parent =>
      have hlt := h.parent_lt hparent
      simp only
      rw [h.climb_eq_climb n m parent (Nat.lt_of_lt_of_le hlt (Nat.le_of_lt_succ hn))
        (Nat.lt_of_lt_of_le hlt (Nat.le_of_lt_succ hm))]

/-- The root is at depth zero. -/
theorem depth_root (h : tree.Ordered outline) : tree.depth root = 0 := by
  rw [depth]
  cases tree.size with
  | zero => rfl
  | succ n => rw [climb, h.orphan]

/-- **A node is one deeper than its parent.** -/
theorem depth_child (h : tree.Ordered outline) {id parent : NodeId}
    (hparent : tree.parent? id = some parent) : tree.depth id = tree.depth parent + 1 := by
  have hid : id < tree.size := by
    obtain ⟨node, hnode, -⟩ := Option.bind_eq_some_iff.mp hparent
    exact lt_size_of_node? hnode
  have hlt := h.parent_lt hparent
  rw [depth, h.climb_eq_climb tree.size (tree.size + 1) id hid (Nat.lt_succ_of_lt hid), climb,
    hparent]
  rfl

end Tree.Ordered

namespace Tree

variable {tree : Tree} {outline : Rose NodeId} {source : Array UInt8} {parent : NodeId}

mutual

/-- The branches in an item that is held are no deeper than the item reaches. -/
theorem Holds.depth_le (h : tree.Ordered outline) : ∀ {item : Item} {parent : NodeId},
    tree.Holds source (some parent) item → item.Plain → ∀ sub ∈ item.subtrees,
      sub.label.kind.isBranch = true →
      tree.depth sub.label.id ≤ tree.depth parent + item.reach
  | .node label below, parent, hholds, hplain, sub, hsub, hbranch => by
    have hdepth := h.depth_child hholds.parent?_label
    rw [Rose.label_node] at hdepth
    rw [Item.reach]
    rcases Rose.mem_subtrees.mp hsub with rfl | hin
    · rw [Rose.label_node] at hbranch ⊢
      rw [hdepth, if_pos hbranch]
      omega
    · obtain ⟨hleaf, -⟩ := hplain _ (Rose.mem_subtrees_self _)
      rw [Rose.label_node, Rose.children_node] at hleaf
      cases hkind : label.kind.isBranch with
      | false =>
        rw [hleaf hkind] at hin
        cases hin
      | true =>
        rw [Holds] at hholds
        have hbelow := hholds.2.depth_le h (fun child hchild => ?_) sub hin hbranch
        · rw [hdepth] at hbelow
          rw [if_pos rfl]
          omega
        · exact fun sub hsub => hplain sub
            (Rose.mem_subtrees_trans hsub (Rose.mem_subtrees_of_mem_children hchild))

/-- So are those in several items. -/
theorem HoldsAll.depth_le (h : tree.Ordered outline) : ∀ {items : List Item} {parent : NodeId},
    tree.HoldsAll source (some parent) items → (∀ item ∈ items, item.Plain) →
      ∀ sub ∈ Rose.subtreesAll items, sub.label.kind.isBranch = true →
      tree.depth sub.label.id ≤ tree.depth parent + Item.reachAll items
  | item :: rest, parent, hholds, hplain, sub, hsub, hbranch => by
    rw [HoldsAll] at hholds
    rw [Rose.subtreesAll_cons, List.mem_append] at hsub
    rw [Item.reachAll]
    rcases hsub with hin | hin
    · have := hholds.1.depth_le h (hplain item List.mem_cons_self) sub hin hbranch
      omega
    · have := hholds.2.depth_le h (fun item hitem => hplain item (List.mem_cons_of_mem _ hitem))
        sub hin hbranch
      omega

end

mutual

/-- Some branch in an item is as deep as the item reaches. -/
theorem Holds.exists_depth_eq (h : tree.Ordered outline) : ∀ {item : Item} {parent : NodeId},
    tree.Holds source (some parent) item → item.reach ≠ 0 → ∃ sub ∈ item.subtrees,
      sub.label.kind.isBranch = true ∧
      tree.depth sub.label.id = tree.depth parent + item.reach
  | .node label below, parent, hholds, hreach => by
    have hdepth := h.depth_child hholds.parent?_label
    rw [Rose.label_node] at hdepth
    rw [Item.reach] at hreach ⊢
    cases hkind : label.kind.isBranch with
    | false =>
      rw [hkind] at hreach
      exact absurd rfl hreach
    | true =>
      rw [if_pos rfl]
      by_cases hnone : Item.reachAll below = 0
      · exact ⟨_, Rose.mem_subtrees_self _, hkind, by rw [hnone, Rose.label_node, hdepth]⟩
      · rw [Holds] at hholds
        obtain ⟨sub, hsub, hbranch, heq⟩ := hholds.2.exists_depth_eq h hnone
        refine ⟨sub, Rose.mem_subtrees.mpr (Or.inr hsub), hbranch, ?_⟩
        rw [heq, hdepth]
        omega

/-- So it is for several items: the one that reaches furthest has it. -/
theorem HoldsAll.exists_depth_eq (h : tree.Ordered outline) :
    ∀ {items : List Item} {parent : NodeId}, tree.HoldsAll source (some parent) items →
      Item.reachAll items ≠ 0 → ∃ sub ∈ Rose.subtreesAll items,
        sub.label.kind.isBranch = true ∧
        tree.depth sub.label.id = tree.depth parent + Item.reachAll items
  | [], _, _, hreach => absurd rfl hreach
  | item :: rest, parent, hholds, hreach => by
    rw [HoldsAll] at hholds
    rw [Item.reachAll] at hreach ⊢
    rw [Rose.subtreesAll_cons]
    by_cases hle : Item.reachAll rest ≤ item.reach
    · obtain ⟨sub, hsub, hbranch, heq⟩ := hholds.1.exists_depth_eq h (by omega)
      exact ⟨sub, List.mem_append_left _ hsub, hbranch, by omega⟩
    · obtain ⟨sub, hsub, hbranch, heq⟩ := hholds.2.exists_depth_eq h (by omega)
      exact ⟨sub, List.mem_append_right _ hsub, hbranch, by omega⟩

end

end Tree

/-- What is a branch is some branch. -/
theorem Kind.exists_of_isBranch {kind : Kind} (h : kind.isBranch = true) :
    ∃ branch, kind = .branch branch := by
  cases kind with
  | branch found => exact ⟨found, rfl⟩
  | leaf leaf => cases h

/-- A node is a branch if it shows one. -/
theorem Tree.Shows.isBranch_kind {source : Array UInt8} {item : Item} {node : Node}
    (h : Tree.Shows source item node) : node.kind.isBranch = item.label.kind.isBranch := by
  rw [h.kind]
  obtain ⟨⟨id, kind, valid, span⟩, below⟩ := item
  cases kind <;> rfl

namespace Lexer

variable {id : NodeId}

/-- What a source holds keeps to the rules. -/
theorem items_plain (lexer : Lexer) (source : Source) : ∀ item ∈ lexer.items source, item.Plain :=
  fun item hitem => (lexer.draft_plain .root source rfl rfl rfl item hitem).1

/-- The root of a source is a root. -/
theorem kind?_root (lexer : Lexer) (source : Source) :
    (lexer.tokenize source).tree.kind? Tree.root = some (.branch .root) := by
  obtain ⟨-, -, hself⟩ := lexer.tokenize_grown source
  rw [Tree.kind?_eq, hself (lexer.scan_root source)]
  rfl

/-- The largest number of open branches is the reach of what was read. -/
theorem depth_eq_reachAll (lexer : Lexer) (source : Source) :
    (lexer.tokenize source).metrics.depth = Item.reachAll (lexer.items source) := by
  have hstart : (Draft.into (Tree.new source.filename source.start) Tree.root
      (rootOf source)).peak = 0 := rfl
  have hlevelled := lexer.scan_levelled .root source rfl hstart
  have houter : ((Draft.into (Tree.new source.filename source.start) Tree.root
      (rootOf source)).takeAll (lexer.scan .root source).marks.reverse).outer = [] :=
    (lexer.scan_admits .root source rfl).2
  refine hlevelled.deepest.trans ?_
  rw [← Draft.peak_settle (lexer.scan .root source).position, Draft.peak_of_outer]
  · rfl
  · rw [Draft.outer_settle]
    exact houter
  · exact Draft.loose_settle _ _

/-- **The largest number of open branches is the depth of the deepest branch.**  Where no branch
is read, that is the root. -/
theorem isGreatest_depth (lexer : Lexer) (source : Source) :
    IsGreatest {depth | ∃ id branch,
        (lexer.tokenize source).tree.kind? id = some (.branch branch) ∧
        (lexer.tokenize source).tree.depth id = depth}
      (lexer.tokenize source).metrics.depth := by
  obtain ⟨outline, h, -⟩ := lexer.tokenize_ordered source
  obtain ⟨hheld, hids, -⟩ := lexer.tokenize_grown source
  have hroot := lexer.kind?_root source
  have hplain := lexer.items_plain source
  rw [lexer.depth_eq_reachAll source]
  generalize (lexer.tokenize source).tree = tree at *
  generalize lexer.items source = items at *
  rw [← Tree.holdsAll_iff] at hheld
  refine ⟨?_, ?_⟩
  · -- if no branch was read, the root is the deepest
    by_cases hnone : Item.reachAll items = 0
    · exact ⟨Tree.root, .root, hroot, by rw [h.depth_root, hnone]⟩
    · obtain ⟨sub, hsub, hbranch, heq⟩ := hheld.exists_depth_eq h hnone
      obtain ⟨parent, hholds⟩ := hheld.of_mem hsub
      obtain ⟨node, hnode, hshows⟩ := hholds.shows
      obtain ⟨branch, hkind⟩ := Kind.exists_of_isBranch (hshows.isBranch_kind.trans hbranch)
      rw [h.depth_root, Nat.zero_add] at heq
      exact ⟨sub.label.id, branch, by rw [Tree.kind?, hnode, Option.map_some, hkind], heq⟩
  · rintro depth ⟨id, branch, hkind, rfl⟩
    -- the root is as deep as nothing, and any other branch is one of an item
    by_cases hid : id = Tree.root
    · rw [hid, h.depth_root]
      exact Nat.zero_le _
    · obtain ⟨node, hnode, hbranch⟩ := Option.map_eq_some_iff.mp hkind
      obtain ⟨sub, hsub, rfl, hshows, -⟩ :=
        Tree.exists_item (Tree.holdsAll_iff.mp hheld) hids hnode hid
      have hsort : sub.label.kind.isBranch = true := by
        rw [← hshows.isBranch_kind, hbranch]
        rfl
      have hle := hheld.depth_le h hplain sub hsub hsort
      rw [h.depth_root, Nat.zero_add] at hle
      exact hle

/-- Every node but the root stands right below a branch. -/
theorem exists_branch_above (lexer : Lexer) (source : Source)
    (hid : id < (lexer.tokenize source).tree.size) (hne : id ≠ Tree.root) :
    ∃ parent branch, (lexer.tokenize source).tree.parent? id = some parent ∧
      (lexer.tokenize source).tree.kind? parent = some (.branch branch) := by
  obtain ⟨outline, h, -⟩ := lexer.tokenize_ordered source
  obtain ⟨hheld, hids, -⟩ := lexer.tokenize_grown source
  have hroot := lexer.kind?_root source
  have hplain := lexer.items_plain source
  generalize (lexer.tokenize source).tree = tree at *
  generalize lexer.items source = items at *
  obtain ⟨parent, hlt, hparent, hcount, -⟩ := h.placed hid hne
  by_cases hbase : parent = Tree.root
  · exact ⟨parent, .root, hparent, hbase ▸ hroot⟩
  · obtain ⟨node, hnode⟩ := Tree.exists_node (Nat.lt_trans hlt hid)
    obtain ⟨sub, hsub, rfl, hshows, -⟩ := Tree.exists_item hheld hids hnode hbase
    obtain ⟨top, htop, hin⟩ := Rose.mem_subtreesAll.mp hsub
    obtain ⟨hleaf, -⟩ := hplain top htop sub hin
    cases hbranch : sub.label.kind.isBranch with
    | true =>
      obtain ⟨branch, hkind⟩ := Kind.exists_of_isBranch (hshows.isBranch_kind.trans hbranch)
      exact ⟨sub.label.id, branch, hparent, by rw [Tree.kind?, hnode, Option.map_some, hkind]⟩
    | false =>
      -- a leaf has no children, and the node is one
      rw [Tree.children, hnode, Option.map_some, Option.getD_some, hshows.children,
        hleaf hbranch] at hcount
      cases hcount

end Lexer
end StyleLex
