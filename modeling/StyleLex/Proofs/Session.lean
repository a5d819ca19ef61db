/-
# Sessions

A session makes a tree of a source and then adds to it, call by call: each call names a branch and
a source, and one that names no branch changes nothing.  A call grafts what it read onto the
outline of the tree (`Ordered.extend`), so a tree stays ordered whatever a session does with it
(`session_ordered`): its nodes have one place each, its thread is the postorder, and the walk from
a node is the preorder.

`Tree.Consistent` says the same without an outline in the hypotheses, so that it can be read on its
own: of each node where it is listed, of the thread that it begins, that it ends, and that the walk
along it meets every node once, and of the two walks which orders they are.  That the thread ends is
stated apart from what the walk returns.  The walk takes at most as many steps as there are nodes,
so on a thread that ran in a circle it would return just the same list.

The outline is recovered as a witness: lists of children describe one rose tree, and the walks are
its orders.
-/
import Mathlib.Data.List.Induction
import StyleLex.Proofs.Extension

namespace StyleLex

open Rose

/-! ## 1. Sessions and what they keep -/

/-- One call that adds to a tree, with a lexer of its own. -/
structure Call where
  lexer : Lexer
  target : NodeId
  source : Source

/-- The tree after a call.  A call that fails leaves the tree as it was. -/
def Call.apply (call : Call) (tree : Tree) : Tree :=
  match call.lexer.resume tree call.target call.source with
  | .ok outcome => outcome.tree
  | .error _ => tree

/-- The tree after a first call and the ones that follow it. -/
def session (lexer : Lexer) (source : Source) (calls : List Call) : Tree :=
  calls.foldl (fun tree call => call.apply tree) (lexer.tokenize source).tree

/-- Every node has one place in the tree and one on the thread, and the walks follow them. -/
structure Tree.Consistent (tree : Tree) : Prop where
  /-- Every node but the root is a child of its parent, once, and of no other node. -/
  placed : ∀ id < tree.size, id ≠ Tree.root → ∃ parent < id, tree.parent? id = some parent ∧
    (tree.children parent).toList.count id = 1 ∧ ∀ other ≠ parent, id ∉ tree.children other
  rooted : tree.parent? Tree.root = none ∧ ∀ id, Tree.root ∉ tree.children id
  listed : ∀ parent, ∀ id ∈ tree.children parent, id < tree.size
  /-- The walk along the thread meets every node once. -/
  produced : tree.production.toList.Perm (List.range tree.size)
  linked : ∀ a b, tree.next? a = some b ↔ tree.previous? b = some a
  /-- The walk along the thread sets out from the root, and no node stands before the root. -/
  begun : tree.production[0]? = some Tree.root ∧ tree.previous? Tree.root = none
  /-- The walk stops because the thread ends there: no node stands behind the last one that it
  meets. -/
  ended : ∃ last, tree.production.back? = some last ∧ tree.next? last = none
  /-- The walks are the orders of the tree that the lists of children describe. -/
  walked : ∃ outline : Rose NodeId, outline.label = Tree.root ∧
    outline.preorder.Perm (List.range tree.size) ∧
    (∀ sub ∈ outline.subtrees,
      (tree.children sub.label).toList = sub.children.map Rose.label) ∧
    tree.production.toList = Tree.root :: Rose.postorderAll outline.children ∧
    ∀ sub ∈ outline.subtrees, (tree.preorder sub.label).toList = sub.preorder

/-! ## 2. Whole sessions

A session is a list of calls, and the induction is on that list from its end.  Nothing is assumed of
the calls: a target may be missing or a leaf, a source may be another one than before, and bounds
may lie anywhere. -/

/-- A call keeps a tree ordered. -/
theorem Call.apply_ordered (call : Call) {tree : Tree} {outline : Rose NodeId}
    (h : tree.Ordered outline) : ∃ outline, (call.apply tree).Ordered outline := by
  unfold Call.apply
  obtain ⟨origin, branch, hbody, -, hresume⟩ | ⟨leaf, -, hresume⟩ | ⟨-, hresume⟩ :=
    call.lexer.resume_cases tree call.target call.source
  · rw [hresume]
    exact ⟨_, call.lexer.extend_ordered h hbody branch call.source⟩
  all_goals
    rw [hresume]
    exact ⟨outline, h⟩

/-- **A tree stays ordered whatever a session does with it.** -/
theorem session_ordered (lexer : Lexer) (source : Source) (calls : List Call) :
    ∃ outline, (session lexer source calls).Ordered outline := by
  induction calls using List.reverseRecOn with
  | nil =>
    obtain ⟨outline, h, -⟩ := lexer.tokenize_ordered source
    exact ⟨outline, h⟩
  | append_singleton calls call ih =>
    obtain ⟨outline, h⟩ := ih
    rw [session, List.foldl_append]
    exact call.apply_ordered h

namespace Tree.Ordered

variable {tree : Tree} {outline : Rose NodeId}

/-- A child in a list of children stands below the node in the outline. -/
theorem exists_of_mem_children (h : tree.Ordered outline) {parent id : NodeId}
    (hin : id ∈ tree.children parent) :
    ∃ sub ∈ outline.subtrees, sub.label = parent ∧ ∃ child ∈ sub.children, child.label = id := by
  have hsize : parent < tree.size := by
    rw [← Tree.node?_isSome]
    cases hnode : tree.node? parent with
    | none => simp [Tree.children, hnode] at hin
    | some node => rfl
  obtain ⟨sub, hsub, rfl⟩ := Rose.mem_preorder.mp (h.mem_preorder.mpr hsize)
  rw [← Array.mem_toList_iff, (h.outlines sub hsub).1] at hin
  exact ⟨sub, hsub, rfl, List.mem_map.mp hin⟩

/-- A child is below its parent only. -/
theorem parent?_of_mem_children (h : tree.Ordered outline) {parent id : NodeId}
    (hin : id ∈ tree.children parent) : tree.parent? id = some parent := by
  obtain ⟨sub, hsub, rfl, child, hchild, rfl⟩ := h.exists_of_mem_children hin
  exact (h.outlines sub hsub).2 child hchild

/-- The two links of the thread agree, also where one of them is missing: no node outside the arena
has links. -/
theorem next?_iff_previous? (h : tree.Ordered outline) (a b : NodeId) :
    tree.next? a = some b ↔ tree.previous? b = some a := by
  have hmem : ∀ {id}, id < tree.size → id ∈ root :: postorderAll outline.children := by
    intro id hid
    exact h.thread_perm.mem_iff.mpr (h.mem_preorder.mpr hid)
  have hnode : ∀ {id : NodeId} {link : Node → Option NodeId} {other : NodeId},
      (tree.node? id).bind link = some other → id < tree.size := by
    intro id link other hlink
    obtain ⟨node, hnode, -⟩ := Option.bind_eq_some_iff.mp hlink
    exact Tree.lt_size_of_node? hnode
  -- a link that is there belongs to a node of the arena, which is on the thread, and so is the node
  -- that it leads to
  constructor
  · intro hnext
    have ha := hmem (hnode hnext)
    exact (h.thread.next?_iff_previous? h.thread_nodup ha (h.thread.mem_of_next? ha hnext)).mp hnext
  · intro hprevious
    have hb := hmem (hnode hprevious)
    exact (h.thread.next?_iff_previous? h.thread_nodup
      (h.thread.mem_of_previous? hb hprevious) hb).mpr hprevious

/-- The walk along the thread is the postorder, after the root. -/
theorem production_eq (h : tree.Ordered outline) :
    tree.production.toList = root :: postorderAll outline.children := by
  refine h.thread.production_eq ?_
  have hlength := h.thread_perm.length_eq
  rw [h.length_eq, List.length_cons] at hlength
  omega

/-- The walk from a node is the preorder of what the outline has there. -/
theorem preorder_eq (h : tree.Ordered outline) {sub : Rose NodeId}
    (hsub : sub ∈ outline.subtrees) : (tree.preorder sub.label).toList = sub.preorder := by
  refine (h.outlines.of_mem hsub).preorder_eq ?_
  rw [← h.length_eq]
  exact (preorder_sublist hsub).length_le

/-- Every node but the root has one place, below a node that came before it. -/
theorem placed (h : tree.Ordered outline) {id : NodeId} (hid : id < tree.size) (hne : id ≠ root) :
    ∃ parent < id, tree.parent? id = some parent ∧
      (tree.children parent).toList.count id = 1 ∧ ∀ other ≠ parent, id ∉ tree.children other := by
  obtain ⟨sub, hsub, child, hchild, rfl⟩ := h.exists_parent hid hne
  obtain ⟨hchildren, hparent⟩ := h.outlines sub hsub
  refine ⟨sub.label, h.increasing sub hsub child hchild, hparent child hchild, ?_, ?_⟩
  · -- the list of children is a part of the preorder, and there each id stands once
    have hnodup : (sub.children.map Rose.label).Nodup := by
      have hall : (sub.label :: preorderAll sub.children).Nodup := by
        obtain ⟨a, below⟩ := sub
        rw [label_node, children_node, ← preorder_node]
        exact h.nodup.sublist (preorder_sublist hsub)
      exact (List.nodup_cons.mp hall).2.sublist (labels_sublist _)
    rw [hchildren]
    exact List.count_eq_one_of_mem hnodup (List.mem_map_of_mem hchild)
  · intro other hother hin
    have := (hparent child hchild).symm.trans (h.parent?_of_mem_children hin)
    exact hother (Option.some.inj this).symm

/-- An ordered tree is consistent. -/
theorem consistent (h : tree.Ordered outline) : tree.Consistent where
  placed := fun id hid hne => h.placed hid hne
  rooted := by
    refine ⟨h.orphan, ?_⟩
    intro id hin
    have := h.parent?_of_mem_children hin
    rw [h.orphan] at this
    cases this
  listed := by
    intro parent id hin
    obtain ⟨sub, hsub, -, child, hchild, rfl⟩ := h.exists_of_mem_children hin
    refine h.mem_preorder.mp (Rose.mem_preorder.mpr ⟨child, ?_, rfl⟩)
    exact mem_subtrees_trans (mem_subtrees_of_mem_children hchild) hsub
  produced := by
    rw [h.production_eq]
    exact h.thread_perm.trans h.ids
  linked := h.next?_iff_previous?
  begun := by
    rw [← Array.getElem?_toList, h.production_eq]
    exact ⟨rfl, h.thread.1⟩
  ended := by
    rw [← Array.getLast?_toList, h.production_eq]
    exact ⟨_, List.getLast?_cons, h.thread.next?_last List.getLast?_cons⟩
  walked := by
    exact ⟨outline, h.label, h.ids, fun sub hsub => (h.outlines sub hsub).1, h.production_eq,
      fun sub hsub => h.preorder_eq hsub⟩

end Tree.Ordered

/-- **A session leaves a consistent tree**: every node has one place among the children of its
parent and one on the thread, and the walks along them are the orders of the tree.  Right after the
first call, the walk from the root meets the nodes in the order of their numbers. -/
theorem session_consistent (lexer : Lexer) (source : Source) (calls : List Call) :
    (session lexer source calls).Consistent ∧
      ((lexer.tokenize source).tree.preorder Tree.root).toList =
        List.range (lexer.tokenize source).tree.size := by
  obtain ⟨outline, h⟩ := session_ordered lexer source calls
  obtain ⟨first, hfirst, hids⟩ := lexer.tokenize_ordered source
  refine ⟨h.consistent, ?_⟩
  rw [← hids, ← hfirst.label]
  exact hfirst.outlines.preorder_eq (Nat.le_of_eq hfirst.length_eq)

end StyleLex
