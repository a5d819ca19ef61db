/-
# Snapshots of whole trees

A snapshot is made along the thread: every node takes the finished snapshots of its children and
leaves its own.  A child that is not finished when its branch looks for it would be left out, and
nobody would notice.

In an ordered tree that does not happen.  The thread is the postorder of the outline, so a branch
finds exactly its children finished, in order, and what it leaves is the snapshot of its outline
(`Snapshot.foldl_finish`).  Recursion over the lists of children makes the same snapshot
(`Snapshot.recurse?_eq`), and when the root has taken its children nothing is left
(`session_snapshot`).

The argument is about an array of slots, one for every node, some of them holding a finished
snapshot (`Finished`).  A list of outlines whose snapshots are finished is written as what it does
to the slots (`place`), so that both halves of the work on a branch are equations between arrays:
the children leave `place below`, and the branch turns that into `place [branch]`.  Equality, rather
than agreement on the slots of interest, is what makes the last statement fall out: where the root
is all that has been placed, every other slot is empty.

That identifiers are not repeated is used throughout.  A slot that two nodes shared would be
overwritten by the second, and taken twice.
-/
import StyleLex.Proofs.Session
import StyleLex.Tree.Snapshot

namespace StyleLex

open Rose

namespace Snapshot

/-! ## 1. Snapshots by recursion

The recursive snapshot does not mention the thread, and is the specification.  It has a bound on its
levels, as a tree with a cycle would have no snapshot at all; that the number of nodes is bound
enough is part of what is shown. -/

/-- The snapshot of a node: its own, around those of its children; at most so many levels deep. -/
def recurse? (tree : Tree) (source : Array UInt8) : Nat → NodeId → Option Snapshot
  | 0, _ => none
  | n + 1, id => do
    let node ← tree.node? id
    let children ← node.children.toList.mapM (recurse? tree source n)
    pure (ofNode source node children)

mutual

/-- The number of nodes in a snapshot. -/
def size : Snapshot → Nat
  | .mk _ _ _ _ _ children => sizeAll children + 1

/-- The number of nodes in some snapshots. -/
def sizeAll : List Snapshot → Nat
  | [] => 0
  | snapshot :: rest => size snapshot + sizeAll rest

end

/-- What is finished when the root has its snapshot. -/
def finishAll (tree : Tree) (source : Array UInt8) : Finished :=
  finish tree source
    ((tree.production.filter (· ≠ Tree.root)).foldl (finish tree source)
      (Array.replicate tree.size none)) Tree.root

/-- The snapshot of a tree is the one that its root has finished. -/
theorem ofTree?_eq (tree : Tree) (source : Array UInt8) :
    ofTree? tree source = (finishAll tree source)[Tree.root]?.join := rfl

/-! ## 2. Snapshots of outlines

An outline names the nodes of a tree in their nesting, and is finite by construction.  So the
snapshot of an outline is a plain recursion, and both ways to make one are compared with it. -/

mutual

/-- The snapshot that an outline describes, given the nodes. -/
def ofOutline (source : Array UInt8) (node : NodeId → Node) : Rose NodeId → Snapshot
  | .node id below => ofNode source (node id) (allOfOutline source node below)

/-- The snapshots that some outlines describe. -/
def allOfOutline (source : Array UInt8) (node : NodeId → Node) : List (Rose NodeId) → List Snapshot
  | [] => []
  | outline :: rest => ofOutline source node outline :: allOfOutline source node rest

end

variable {tree : Tree} {source : Array UInt8} {node : NodeId → Node}

mutual

/-- A snapshot has as many nodes as its outline. -/
theorem size_ofOutline : ∀ outline : Rose NodeId,
    (ofOutline source node outline).size = outline.preorder.length
  | .node id below => by
    rw [ofOutline, ofNode, size, sizeAll_allOfOutline below, preorder_node, List.length_cons]

/-- So have the snapshots of several outlines. -/
theorem sizeAll_allOfOutline : ∀ outlines : List (Rose NodeId),
    sizeAll (allOfOutline source node outlines) = (preorderAll outlines).length
  | [] => by rw [allOfOutline, sizeAll, preorderAll_nil, List.length_nil]
  | outline :: rest => by
    rw [allOfOutline, sizeAll, size_ofOutline outline, sizeAll_allOfOutline rest, preorderAll_cons,
      List.length_append]

end

/-- What is below an outline outlines the tree too. -/
theorem outlines_below {id : NodeId} {below : List (Rose NodeId)}
    (h : tree.Outlines (.node id below)) : ∀ child ∈ below, tree.Outlines child :=
  fun _ hchild => h.of_mem (mem_subtrees_of_mem_children hchild)

/-- A node of an outline has the children that the outline names. -/
theorem children_outlined {id : NodeId} {below : List (Rose NodeId)}
    (h : tree.Outlines (.node id below)) (hself : tree.node? id = some (node id)) :
    (node id).children.toList = below.map Rose.label := by
  have hchildren := (h _ (mem_subtrees_self _)).1
  rwa [label_node, Tree.children, hself, Option.map_some, Option.getD_some, children_node]
    at hchildren

mutual

/-- **Recursion over the lists of children follows the outline**, and needs no more levels than
there are nodes. -/
theorem recurse?_eq (hnode : ∀ id < tree.size, tree.node? id = some (node id)) :
    ∀ {n : Nat} {outline : Rose NodeId}, tree.Outlines outline →
      (∀ id ∈ outline.preorder, id < tree.size) → outline.preorder.length ≤ n →
      recurse? tree source n outline.label = some (ofOutline source node outline)
  | 0, .node id below, _, _, hlength => by simp at hlength
  | n + 1, .node id below, h, hsize, hlength => by
    rw [preorder_node, List.length_cons, Nat.add_le_add_iff_right] at hlength
    have hself := hnode id (hsize id (by simp))
    rw [label_node, recurse?, hself, Option.bind_eq_bind, Option.bind_some,
      children_outlined h hself, recurseAll?_eq hnode (outlines_below h)
        (fun id hid => hsize id (by simp [hid])) hlength, ofOutline]
    rfl

/-- So does the recursion over several children at once. -/
theorem recurseAll?_eq (hnode : ∀ id < tree.size, tree.node? id = some (node id)) :
    ∀ {n : Nat} {outlines : List (Rose NodeId)}, (∀ outline ∈ outlines, tree.Outlines outline) →
      (∀ id ∈ preorderAll outlines, id < tree.size) → (preorderAll outlines).length ≤ n →
      (outlines.map Rose.label).mapM (recurse? tree source n) =
        some (allOfOutline source node outlines)
  | _, [], _, _, _ => by
    rw [List.map_nil, List.mapM_nil, allOfOutline]
    rfl
  | n, outline :: rest, h, hsize, hlength => by
    rw [preorderAll_cons, List.length_append] at hlength
    rw [preorderAll_cons] at hsize
    rw [List.map_cons, List.mapM_cons,
      recurse?_eq hnode (h outline List.mem_cons_self)
        (fun id hid => hsize id (List.mem_append_left _ hid)) (by omega),
      Option.bind_eq_bind, Option.bind_some,
      recurseAll?_eq hnode (fun other hin => h other (List.mem_cons_of_mem _ hin))
        (fun id hid => hsize id (List.mem_append_right _ hid)) (by omega), allOfOutline]
    rfl

end

/-! ## 3. Snapshots along the thread

The thread visits children before their branch, so when a branch is visited the slots of its
children are full and nothing below them is. -/

/-- Finished snapshots of some outlines, beside what is finished already. -/
def place (source : Array UInt8) (node : NodeId → Node) (finished : Finished)
    (outlines : List (Rose NodeId)) : Finished :=
  outlines.foldl
    (fun finished outline =>
      finished.setIfInBounds outline.label (some (ofOutline source node outline))) finished

variable {finished : Finished}

/-- A slot that is not named stays as it is. -/
theorem getElem?_place {id : NodeId} : ∀ (outlines : List (Rose NodeId)) {finished : Finished},
    id ∉ outlines.map Rose.label → (place source node finished outlines)[id]? = finished[id]?
  | [], _, _ => rfl
  | outline :: rest, finished, h => by
    rw [List.map_cons, List.mem_cons, not_or] at h
    exact (getElem?_place rest h.2).trans
      (Array.getElem?_setIfInBounds_ne (Ne.symm h.1))

/-- What is put into another slot may be put there first. -/
theorem place_setIfInBounds {id : NodeId} {value : Option Snapshot} :
    ∀ {outlines : List (Rose NodeId)} {finished : Finished}, id ∉ outlines.map Rose.label →
      (place source node finished outlines).setIfInBounds id value =
        place source node (finished.setIfInBounds id value) outlines
  | [], _, _ => rfl
  | outline :: rest, finished, h => by
    rw [List.map_cons, List.mem_cons, not_or] at h
    have hcomm : (finished.setIfInBounds outline.label
        (some (ofOutline source node outline))).setIfInBounds id value =
          (finished.setIfInBounds id value).setIfInBounds outline.label
            (some (ofOutline source node outline)) :=
      Array.setIfInBounds_comm _ _ (Ne.symm h.1)
    show (place source node (finished.setIfInBounds _ _) rest).setIfInBounds id value =
      place source node ((finished.setIfInBounds id value).setIfInBounds _ _) rest
    rw [place_setIfInBounds h.2, hcomm]

/-- **A branch takes the snapshots of its children**, all of them in order, and leaves nothing
behind. -/
theorem takeOnto_place : ∀ {outlines : List (Rose NodeId)} {taken : List Snapshot},
    (outlines.map Rose.label).Nodup →
    (∀ id ∈ outlines.map Rose.label, finished[id]? = some none) →
    takeOnto taken (place source node finished outlines) (outlines.map Rose.label) =
      (taken.reverse ++ allOfOutline source node outlines, finished)
  | [], taken, _, _ => by
    rw [List.map_nil, takeOnto, allOfOutline, List.append_nil]
    rfl
  | outline :: rest, taken, hnodup, hblank => by
    rw [List.map_cons] at hnodup hblank
    obtain ⟨hnot, hrest⟩ := List.nodup_cons.mp hnodup
    have hslot := hblank _ List.mem_cons_self
    obtain ⟨hsize, hvalue⟩ := Array.getElem?_eq_some_iff.mp hslot
    have hthere : (place source node finished (outline :: rest))[outline.label]? =
        some (some (ofOutline source node outline)) :=
      (getElem?_place rest hnot).trans (Array.getElem?_setIfInBounds_self_of_lt hsize)
    -- a slot that was empty, then filled, then taken, is as it was
    have hgone : (place source node finished (outline :: rest)).setIfInBounds outline.label none =
        place source node finished rest := by
      have hback : (finished.setIfInBounds outline.label
          (some (ofOutline source node outline))).setIfInBounds outline.label none = finished := by
        rw [Array.setIfInBounds_setIfInBounds, Array.setIfInBounds_def, dif_pos hsize, ← hvalue,
          Array.set_getElem_self]
      exact (place_setIfInBounds hnot).trans (by rw [hback])
    rw [List.map_cons, takeOnto, hthere, allOfOutline]
    simp only
    rw [hgone, takeOnto_place hrest fun id hid => hblank id (List.mem_cons_of_mem _ hid),
      List.reverse_cons, List.append_assoc]
    rfl

/-- A node finds its children finished and leaves its own snapshot. -/
theorem finish_place (hnode : ∀ id < tree.size, tree.node? id = some (node id)) {id : NodeId}
    {below : List (Rose NodeId)} (h : tree.Outlines (.node id below)) (hid : id < tree.size)
    (hnodup : (below.map Rose.label).Nodup)
    (hblank : ∀ child ∈ below.map Rose.label, finished[child]? = some none) :
    finish tree source (place source node finished below) id =
      place source node finished [.node id below] := by
  have hself := hnode id hid
  rw [finish, hself]
  simp only
  rw [children_outlined h hself, takeOnto_place hnodup hblank, List.reverse_nil, List.nil_append]
  show _ = finished.setIfInBounds id (some (ofOutline source node (.node id below)))
  rw [ofOutline]

mutual

/-- **Along the postorder of an outline, its snapshot gets finished**, and nothing else changes. -/
theorem foldl_finish (hnode : ∀ id < tree.size, tree.node? id = some (node id)) :
    ∀ {outline : Rose NodeId} {finished : Finished}, tree.Outlines outline →
      outline.preorder.Nodup → (∀ id ∈ outline.preorder, id < tree.size) →
      (∀ id ∈ outline.preorder, finished[id]? = some none) →
      outline.postorder.foldl (finish tree source) finished =
        place source node finished [outline]
  | .node id below, finished, h, hnodup, hsize, hblank => by
    rw [preorder_node] at hnodup hsize hblank
    have hbelow := (List.nodup_cons.mp hnodup).2
    rw [postorder_node, List.foldl_append, foldlAll_finish hnode (outlines_below h) hbelow
      (fun id hid => hsize id (List.mem_cons_of_mem _ hid))
      (fun id hid => hblank id (List.mem_cons_of_mem _ hid)), List.foldl_cons, List.foldl_nil]
    exact finish_place hnode h (hsize id List.mem_cons_self)
      (hbelow.sublist (labels_sublist below))
      fun child hchild => hblank child
        (List.mem_cons_of_mem _ ((labels_sublist below).subset hchild))

/-- Side by side, outlines are finished one by one, and each leaves the slots of the others alone.
-/
theorem foldlAll_finish (hnode : ∀ id < tree.size, tree.node? id = some (node id)) :
    ∀ {outlines : List (Rose NodeId)} {finished : Finished},
      (∀ outline ∈ outlines, tree.Outlines outline) →
      (preorderAll outlines).Nodup → (∀ id ∈ preorderAll outlines, id < tree.size) →
      (∀ id ∈ preorderAll outlines, finished[id]? = some none) →
      (postorderAll outlines).foldl (finish tree source) finished =
        place source node finished outlines
  | [], _, _, _, _, _ => by
    rw [postorderAll_nil]
    rfl
  | outline :: rest, finished, h, hnodup, hsize, hblank => by
    rw [preorderAll_cons] at hnodup hsize hblank
    obtain ⟨hfirst, hrest, hapart⟩ := List.nodup_append'.mp hnodup
    rw [postorderAll_cons, List.foldl_append, foldl_finish hnode (h outline List.mem_cons_self)
        hfirst (fun id hid => hsize id (List.mem_append_left _ hid))
        (fun id hid => hblank id (List.mem_append_left _ hid)),
      foldlAll_finish hnode (fun other hin => h other (List.mem_cons_of_mem _ hin)) hrest
        (fun id hid => hsize id (List.mem_append_right _ hid)) ?_]
    · rfl
    · -- the slots of the rest are blank still, for the outlines have no node in common
      intro id hid
      rw [getElem?_place [outline]]
      · exact hblank id (List.mem_append_right _ hid)
      · rw [List.map_singleton, List.mem_singleton]
        rintro rfl
        exact hapart (label_mem_preorder outline) hid

end

/-! ## 4. Ordered trees

What is needed of a session is that its tree is ordered, and it always is. -/

/-- Every node of a tree is there. -/
theorem exists_nodes (tree : Tree) :
    ∃ node : NodeId → Node, ∀ id < tree.size, tree.node? id = some (node id) := by
  refine ⟨fun id => (tree.node? id).getD { kind := .branch .root, span := Span.point .origin }, ?_⟩
  intro id hid
  rw [← Tree.node?_isSome] at hid
  obtain ⟨node, hnode⟩ := Option.isSome_iff_exists.mp hid
  simp [hnode]

/-- **The root of an ordered tree finishes the snapshot of the outline**, and no other is left. -/
theorem finishAll_eq (source : Array UInt8) {outline : Rose NodeId} (h : tree.Ordered outline)
    (hnode : ∀ id < tree.size, tree.node? id = some (node id)) :
    finishAll tree source =
      place source node (Array.replicate tree.size none) [outline] := by
  obtain ⟨id, below⟩ := outline
  obtain rfl : id = Tree.root := h.label
  have hsize : ∀ id ∈ (Rose.node Tree.root below).preorder, id < tree.size :=
    fun id hid => h.mem_preorder.mp hid
  have hblank : ∀ id ∈ (Rose.node Tree.root below).preorder,
      (Array.replicate tree.size (none : Option Snapshot))[id]? = some none := by
    intro id hid
    rw [Array.getElem?_replicate, if_pos (hsize id hid)]
  obtain ⟨hroot, -⟩ := List.nodup_cons.mp h.thread_nodup
  -- the root is first on the thread, where its children are not finished yet; it is left out there
  -- and finished last
  have hthread : (tree.production.filter (· ≠ Tree.root)).toList = postorderAll below := by
    rw [Array.toList_filter, h.production_eq, List.filter_cons_of_neg (by simp), children_node,
      List.filter_eq_self]
    intro id hid
    rw [decide_eq_true_iff]
    rintro rfl
    exact hroot hid
  rw [finishAll, ← Array.foldl_toList, hthread,
    ← foldl_finish hnode h.outlines h.nodup hsize hblank, postorder_node, List.foldl_append]
  rfl

end Snapshot

/-- **A snapshot has every node of the tree in its place.**  Whatever a session does with a tree,
the snapshot that is made along the thread is the one that recursion over the children makes; it
has as many nodes as the tree, and when the root has taken its children no other snapshot is
left. -/
theorem session_snapshot (lexer : Lexer) (source : Source) (calls : List Call)
    (bytes : Array UInt8) :
    ∃ snapshot, Snapshot.ofTree? (session lexer source calls) bytes = some snapshot ∧
      Snapshot.recurse? (session lexer source calls) bytes (session lexer source calls).size
        Tree.root = some snapshot ∧
      snapshot.size = (session lexer source calls).size ∧
      ∀ id ≠ Tree.root, (Snapshot.finishAll (session lexer source calls) bytes)[id]?.join = none := by
  obtain ⟨outline, h⟩ := session_ordered lexer source calls
  generalize session lexer source calls = tree at h ⊢
  obtain ⟨node, hnode⟩ := Snapshot.exists_nodes tree
  have hfinished := Snapshot.finishAll_eq bytes h hnode
  have hroot : Tree.root < tree.size := by
    rw [← h.mem_preorder, ← h.label]
    exact label_mem_preorder outline
  refine ⟨Snapshot.ofOutline bytes node outline, ?_, ?_, ?_, ?_⟩
  · rw [Snapshot.ofTree?_eq, hfinished, ← h.label]
    exact congrArg Option.join (Array.getElem?_setIfInBounds_self_of_lt (by simpa [h.label]))
  · rw [← h.label]
    exact Snapshot.recurse?_eq hnode h.outlines (fun id hid => h.mem_preorder.mp hid)
      (Nat.le_of_eq h.length_eq)
  · rw [Snapshot.size_ofOutline, h.length_eq]
  · intro id hid
    rw [hfinished, Snapshot.getElem?_place [outline] (by simpa [h.label]), Array.getElem?_replicate]
    split <;> rfl

end StyleLex
