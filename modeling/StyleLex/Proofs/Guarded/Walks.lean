/-
# Reading a tree, guarded

The walks through a tree and what is read off it on the way, with every access checked: each node
that a walk meets is fetched, every text is a piece cut out of the source, every difference is one
that exists, and a walk that meets more nodes than there are is a breach.

None of it happens in an ordered tree.  The thread is as long as the tree is large, the nodes below
a node are some of all nodes, and a parent has a lower number than its children, so a climb ends.

Walks have bounds in the plain definitions, so that these are total, and where a bound is reached a
plain walk ends early.  In a guarded walk that is a breach.  So the proofs here show two things at
once: that each node that is met is there, and that the bound is large enough; for the second the
walk is compared with the outline, which has each node once.
-/
import StyleLex.Proofs.Guarded.Assembly
import StyleLex.Proofs.Session
import StyleLex.Report
import StyleLex.Tree.Dump

namespace StyleLex

/-! ## 1. Ordered trees are closed

Everything that a node names is on the thread or among the children of something, and in an ordered
tree these are nodes. -/

namespace Tree.Ordered

open Rose

variable {tree : Tree} {outline : Rose NodeId}

/-- A parent has a lower number. -/
theorem parent_lt (h : tree.Ordered outline) {id parent : NodeId}
    (hparent : tree.parent? id = some parent) : parent < id := by
  have hid : id < tree.size := by
    obtain ⟨node, hnode, -⟩ := Option.bind_eq_some_iff.mp hparent
    exact lt_size_of_node? hnode
  have hne : id ≠ root := by
    rintro rfl
    rw [h.orphan] at hparent
    cases hparent
  obtain ⟨found, hlt, hfound, -⟩ := h.placed hid hne
  rw [hparent, Option.some.injEq] at hfound
  exact hfound ▸ hlt

/-- The root is there. -/
theorem root_lt (h : tree.Ordered outline) : root < tree.size := by
  rw [← h.mem_preorder, ← h.label]
  exact Rose.label_mem_preorder outline

/-- **An ordered tree is closed.** -/
theorem closed (h : tree.Ordered outline) : tree.Closed := by
  intro id node hnode
  have hid := lt_size_of_node? hnode
  have hmem : ∀ {j}, j ∈ root :: postorderAll outline.children ↔ j < tree.size := by
    intro j
    rw [h.thread_perm.mem_iff, h.mem_preorder]
  refine ⟨?_, ?_, ?_, ?_⟩
  · intro parent hparent
    have hlink : tree.parent? id = some parent := by rw [parent?, hnode, Option.bind_some, hparent]
    exact Nat.lt_trans (h.parent_lt hlink) hid
  · intro before hbefore
    have hlink : tree.previous? id = some before := by
      rw [previous?, hnode, Option.bind_some, hbefore]
    exact hmem.mp (h.thread.mem_of_previous? (hmem.mpr hid) hlink)
  · intro after hafter
    have hlink : tree.next? id = some after := by rw [next?, hnode, Option.bind_some, hafter]
    exact hmem.mp (h.thread.mem_of_next? (hmem.mpr hid) hlink)
  · intro child hchild
    refine h.consistent.listed id child ?_
    rw [children, hnode]
    exact hchild

end Tree.Ordered

namespace Guarded

variable {tree : Tree} {outline : Rose NodeId}

/-! ## 2. Walks

For each walk, its guarded form, and then that the walk ends where the nodes do. -/

/-- Adds the thread from a node on to `seen`. -/
def followThread (tree : Tree) : Nat → Array NodeId → Option NodeId → Guarded (Array NodeId)
  | _, seen, none => pure seen
  | 0, _, some _ => .error .endless
  | n + 1, seen, some id => do
    let node ← fetch tree id
    followThread tree n (seen.push id) node.next

/-- The nodes along the thread, from the root on. -/
def production (tree : Tree) : Guarded (Array NodeId) :=
  followThread tree tree.size #[] (some Tree.root)

/-- Adds the subtrees of some nodes to `seen`. -/
def visit (tree : Tree) : Nat → Array NodeId → List NodeId → Guarded (Array NodeId)
  | _, seen, [] => pure seen
  | 0, _, _ :: _ => .error .endless
  | n + 1, seen, id :: rest => do
    let node ← fetch tree id
    visit tree n (seen.push id) (node.children.toList ++ rest)

/-- The nodes from one on downwards. -/
def preorder (tree : Tree) (id : NodeId) : Guarded (Array NodeId) := visit tree tree.size #[] [id]

/-- The number of steps to the root. -/
def climb (tree : Tree) : Nat → NodeId → Guarded Nat
  | 0, _ => .error .endless
  | n + 1, id => do
    let node ← fetch tree id
    match node.parent with
    | some parent => do
      let steps ← climb tree n parent
      pure (steps + 1)
    | none => pure 0

/-- How deep a node is. -/
def depth (tree : Tree) (id : NodeId) : Guarded Nat := climb tree tree.size id

/-- By induction on what is left of the thread. -/
theorem followThread_eq : ∀ (n : Nat) (ids : List NodeId) (before : Option NodeId)
    (seen : Array NodeId), tree.Chained before none ids → (∀ id ∈ ids, id < tree.size) →
    ids.length ≤ n →
    followThread tree n seen ids.head? = .ok (tree.followThread n seen ids.head?)
  | 0, [], _, _, _, _, _ => rfl
  | _ + 1, [], _, _, _, _, _ => rfl
  | 0, _ :: _, _, _, _, _, hlength => absurd hlength (Nat.not_succ_le_zero _)
  | n + 1, id :: rest, _, seen, h, hsize, hlength => by
    obtain ⟨-, hnext, hrest⟩ := h
    obtain ⟨node, hnode⟩ := Tree.exists_node (hsize id List.mem_cons_self)
    have hlink : node.next = rest.head? := by
      rw [Tree.next?, hnode, Option.bind_some, Option.or_none] at hnext
      exact hnext
    rw [Option.or_none] at hnext
    rw [List.head?_cons, followThread, fetch_eq hnode, ok_bind, hlink, Tree.followThread, hnext]
    exact followThread_eq n rest (some id) (seen.push id) hrest
      (fun j hj => hsize j (List.mem_cons_of_mem id hj)) (Nat.le_of_succ_le_succ hlength)

/-- **The walk along the thread of an ordered tree ends at its last node.** -/
theorem production_eq (h : tree.Ordered outline) : production tree = .ok tree.production := by
  have hlength := h.thread_perm.length_eq
  rw [h.length_eq] at hlength
  refine followThread_eq tree.size (Tree.root :: Rose.postorderAll outline.children) none #[]
    h.thread ?_ (Nat.le_of_eq hlength)
  intro id hid
  exact h.mem_preorder.mp (h.thread_perm.mem_iff.mp hid)

/-- By induction on the number of nodes that may still be met: what is waiting is a list of
outlines, and visiting the first puts those below it in its place. -/
theorem visit_eq : ∀ (n : Nat) (outlines : List (Rose NodeId)) (seen : Array NodeId),
    (∀ outline ∈ outlines, tree.Outlines outline) →
    (∀ id ∈ Rose.preorderAll outlines, id < tree.size) →
    (Rose.preorderAll outlines).length ≤ n →
    visit tree n seen (outlines.map Rose.label) =
      .ok (tree.visit n seen (outlines.map Rose.label))
  | 0, [], _, _, _, _ => rfl
  | _ + 1, [], _, _, _, _ => rfl
  | 0, .node id below :: rest, _, _, _, hlength => by simp at hlength
  | n + 1, .node id below :: rest, seen, h, hsize, hlength => by
    have hself := h (.node id below) List.mem_cons_self
    have hchildren := (hself _ (Rose.mem_subtrees_self _)).1
    rw [Rose.label_node, Rose.children_node] at hchildren
    obtain ⟨node, hnode⟩ := Tree.exists_node (hsize id (by simp))
    have hlist : node.children = tree.children id := by rw [Tree.children, hnode]; rfl
    rw [List.map_cons, Rose.label_node, visit, fetch_eq hnode, ok_bind, Tree.visit, hlist,
      hchildren, ← List.map_append]
    refine visit_eq n (below ++ rest) (seen.push id) ?_ ?_ (by simp at hlength ⊢; omega)
    · intro outline hin
      rcases List.mem_append.mp hin with hin | hin
      · exact hself.of_mem (Rose.mem_subtrees_of_mem_children (by simpa using hin))
      · exact h outline (List.mem_cons_of_mem _ hin)
    · intro j hj
      refine hsize j ?_
      rw [Rose.preorderAll_append] at hj
      rw [Rose.preorderAll_cons, Rose.preorder_node, List.cons_append]
      exact List.mem_cons_of_mem id hj

/-- **The walk through what is below a node of an ordered tree ends.** -/
theorem preorder_eq (h : tree.Ordered outline) {id : NodeId} (hid : id < tree.size) :
    preorder tree id = .ok (tree.preorder id) := by
  obtain ⟨sub, hsub, rfl⟩ := Rose.mem_preorder.mp (h.mem_preorder.mpr hid)
  have hsublist := Rose.preorder_sublist hsub
  refine visit_eq tree.size [sub] #[] ?_ ?_ ?_
  · intro outline hin
    obtain rfl := List.mem_singleton.mp hin
    exact h.outlines.of_mem hsub
  · intro j hj
    exact h.mem_preorder.mp (hsublist.subset (by simpa using hj))
  · rw [← h.length_eq]
    simpa using hsublist.length_le

/-- A climb from `id` takes at most `id` steps. -/
theorem climb_eq (h : tree.Ordered outline) : ∀ (n : Nat) (id : NodeId), id < n → id < tree.size →
    climb tree n id = .ok (tree.climb n id)
  | 0, _, hlt, _ => absurd hlt (Nat.not_lt_zero _)
  | n + 1, id, hlt, hid => by
    obtain ⟨node, hnode⟩ := Tree.exists_node hid
    have hparent : tree.parent? id = node.parent := by rw [Tree.parent?, hnode, Option.bind_some]
    rw [climb, fetch_eq hnode, ok_bind, Tree.climb, hparent]
    cases hlink : node.parent with
    | none => rfl
    | some parent =>
      have hbelow := h.parent_lt (hparent.trans hlink)
      simp only
      rw [climb_eq h n parent (Nat.lt_of_lt_of_le hbelow (Nat.le_of_lt_succ hlt))
        (Nat.lt_trans hbelow hid)]
      rfl

/-- So the number of nodes is bound enough. -/
theorem depth_eq (h : tree.Ordered outline) {id : NodeId} (hid : id < tree.size) :
    depth tree id = .ok (tree.depth id) :=
  climb_eq h tree.size id hid hid

/-- A walk meets nodes only. -/
theorem lt_of_mem_preorder (h : tree.Ordered outline) {id : NodeId}
    (hid : id ∈ tree.preorder Tree.root) : id < tree.size := by
  have hwalk : (tree.preorder Tree.root).toList = outline.preorder := by
    rw [← h.label]
    exact h.outlines.preorder_eq (Nat.le_of_eq h.length_eq)
  rw [← Array.mem_toList_iff, hwalk] at hid
  exact h.mem_preorder.mp hid

/-- So does the one along the thread. -/
theorem lt_of_mem_production (h : tree.Ordered outline) {id : NodeId}
    (hid : id ∈ tree.production) : id < tree.size := by
  rw [← Array.mem_toList_iff, h.production_eq] at hid
  exact h.mem_preorder.mp (h.thread_perm.mem_iff.mp hid)

/-! ## 3. Dumps and counts

What is read of a node needs nothing but the node and some source.  A difference is the one thing to
check beside that: nodes that are neither blanks nor comments are counted by taking those two away
from all. -/

/-- What a node is, in a few characters. -/
def description? (source : Array UInt8) (node : Node) : Guarded (Option String) :=
  if node.kind.isRun then text? source node else pure (node.description? source)

/-- A line of a dump. -/
def dumpLine (source : Array UInt8) (level : Nat) (node : Node) : Guarded String := do
  let described ← description? source node
  pure <|
    Tree.indentation level ++ node.kind.name ++
    (described.map fun text => " " ++ Text.quoted text).getD "" ++
    " @ " ++ node.span.render ++ (if node.valid then "" else " (invalid)") ++ "\n"

/-- A tree as a text, one line for each node. -/
def dump (tree : Tree) (source : Array UInt8) : Guarded String := do
  let ids ← preorder tree Tree.root
  ids.toList.foldlM (fun text id => do
    let node ← fetch tree id
    let level ← depth tree id
    let line ← dumpLine source level node
    pure (text ++ line)) ""

/-- A difference that there is. -/
def minus (a b : Nat) : Guarded Nat := if b ≤ a then .ok (a - b) else .error (.difference a b)

/-- The counts of a tree, without its root. -/
def census (tree : Tree) : Guarded Census := do
  let ids ← preorder tree Tree.root
  ids.toList.foldlM (fun counts id => do
    let node ← fetch tree id
    if id = Tree.root then pure counts
    else do
      let level ← depth tree id
      pure (counts.count node level)) {}

/-- Nodes that are neither blanks nor comments. -/
def significant (counts : Census) : Guarded Nat := do
  let others ← minus counts.total counts.blanks
  minus others counts.comments

/-- A description is a text or needs none. -/
theorem description?_eq (source : Array UInt8) (node : Node) :
    description? source node = .ok (node.description? source) := by
  unfold description?
  split
  · rename_i hrun
    rw [text?_eq]
    refine congrArg Except.ok ?_
    obtain ⟨kind, span, valid, parent, previous, next, children, cached⟩ := node
    cases kind with
    | branch branch => cases hrun
    | leaf leaf => cases leaf <;> first | rfl | cases hrun
  · rfl

/-- A dump has no breach: its walk meets nodes, and each has a depth. -/
theorem dump_eq (h : tree.Ordered outline) (source : Array UInt8) :
    dump tree source = .ok (tree.dump source) := by
  rw [dump, preorder_eq h h.root_lt, ok_bind, Tree.dump, ← Array.foldl_toList]
  refine foldlM_eq (fun text id hid => ?_) ""
  have hlt := lt_of_mem_preorder h (Array.mem_toList_iff.mp hid)
  obtain ⟨node, hnode⟩ := Tree.exists_node hlt
  rw [fetch_eq hnode, ok_bind, depth_eq h hlt, ok_bind, dumpLine, description?_eq, hnode]
  rfl

/-- Nor has a count. -/
theorem census_eq (h : tree.Ordered outline) : census tree = .ok (Census.ofTree tree) := by
  rw [census, preorder_eq h h.root_lt, ok_bind, Census.ofTree, ← Array.foldl_toList]
  refine foldlM_eq (fun counts id hid => ?_) _
  have hlt := lt_of_mem_preorder h (Array.mem_toList_iff.mp hid)
  obtain ⟨node, hnode⟩ := Tree.exists_node hlt
  rw [fetch_eq hnode, ok_bind]
  simp only [hnode]
  split
  · rfl
  · rw [depth_eq h hlt]
    rfl

/-- Blanks and comments are some of the nodes that are counted. -/
theorem blanks_add_comments_le (tree : Tree) :
    (Census.ofTree tree).blanks + (Census.ofTree tree).comments ≤ (Census.ofTree tree).total := by
  -- a node adds as much to the total as to both of them together, or more
  have hcount : ∀ (counts : Census) (node : Node) (level : Nat),
      counts.blanks + counts.comments ≤ counts.total →
      (counts.count node level).blanks + (counts.count node level).comments ≤
        (counts.count node level).total := by
    intro counts node level h
    have hone : Census.one (node.kind.name == "blank") +
        Census.one (node.kind.name == "comment") ≤ 1 := by
      unfold Census.one
      by_cases hblank : node.kind.name = "blank"
      · simp [hblank]
      · by_cases hcomment : node.kind.name = "comment" <;> simp [hblank, hcomment]
    simp only [Census.count]
    omega
  unfold Census.ofTree
  refine Array.foldl_induction
    (motive := fun _ (counts : Census) => counts.blanks + counts.comments ≤ counts.total)
    (Nat.le_refl _) ?_
  intro i counts ih
  split
  · split
    · exact ih
    · exact hcount counts _ _ ih
  · exact ih

/-- So neither difference goes below zero. -/
theorem significant_eq (tree : Tree) :
    significant (Census.ofTree tree) = .ok (Census.ofTree tree).significant := by
  have hle := blanks_add_comments_le tree
  have hblanks : (Census.ofTree tree).blanks ≤ (Census.ofTree tree).total := by omega
  have hcomments : (Census.ofTree tree).comments ≤
      (Census.ofTree tree).total - (Census.ofTree tree).blanks := by omega
  rw [significant, minus, if_pos hblanks, ok_bind, minus, if_pos hcomments]
  rfl

/-! ## 4. Snapshots

A snapshot is made along the thread, and every node on it is there. -/

/-- The snapshot of one node, given those of its children. -/
def ofNode (source : Array UInt8) (node : Node) (children : List Snapshot) : Guarded Snapshot := do
  let described ← description? source node
  pure (.mk node.kind.name node.span node.valid described (Snapshot.numeralOf? node.kind) children)

/-- Finishes one node, with those of its children that are finished. -/
def finishNode (tree : Tree) (source : Array UInt8) (finished : Snapshot.Finished) (id : NodeId) :
    Guarded Snapshot.Finished := do
  let node ← fetch tree id
  let taken := Snapshot.takeOnto [] finished node.children.toList
  let snapshot ← ofNode source node taken.1
  pure (taken.2.setIfInBounds id (some snapshot))

/-- The snapshot of a tree. -/
def snapshot? (tree : Tree) (source : Array UInt8) : Guarded (Option Snapshot) := do
  let ids ← production tree
  let finished ← (ids.toList.filter (· ≠ Tree.root)).foldlM (finishNode tree source)
    (Array.replicate tree.size none)
  let whole ← finishNode tree source finished Tree.root
  pure (whole[Tree.root]?).join

/-- A node that is there can be finished. -/
theorem finishNode_eq (source : Array UInt8) (finished : Snapshot.Finished) {id : NodeId}
    (hid : id < tree.size) :
    finishNode tree source finished id = .ok (Snapshot.finish tree source finished id) := by
  obtain ⟨node, hnode⟩ := Tree.exists_node hid
  rw [finishNode, fetch_eq hnode, ok_bind, Snapshot.finish, hnode]
  simp only [ofNode, description?_eq, ok_bind, pure_bind]
  rfl

/-- **The snapshot of an ordered tree can be made.** -/
theorem snapshot?_eq (h : tree.Ordered outline) (source : Array UInt8) :
    snapshot? tree source = .ok (Snapshot.ofTree? tree source) := by
  have hfold : (tree.production.toList.filter (· ≠ Tree.root)).foldlM (finishNode tree source)
      (Array.replicate tree.size none) =
      .ok ((tree.production.toList.filter (· ≠ Tree.root)).foldl (Snapshot.finish tree source)
        (Array.replicate tree.size none)) := by
    refine foldlM_eq (fun finished id hid => ?_) _
    have hin := Array.mem_toList_iff.mp (List.mem_of_mem_filter hid)
    exact finishNode_eq source finished (lt_of_mem_production h hin)
  rw [snapshot?, production_eq h, ok_bind, hfold, ok_bind, finishNode_eq source _ h.root_lt,
    ok_bind, Snapshot.ofTree?, ← Array.foldl_toList, Array.toList_filter]
  rfl

end Guarded
end StyleLex
