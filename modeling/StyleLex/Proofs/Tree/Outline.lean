/-
# Outlines of a tree

The outline of a tree is the rose tree of its node ids.  `tree.Outlines outline` ties the two
together, node by node, and the walks through the tree are then the orders of the outline: the
preorder walk from any node (`Outlines.preorder_eq`) and, for a tree that is `Ordered`, the
thread.

`Ordered` is the invariant of all trees that calls leave.  It says where each node is in three ways
that fit together: as a child in the list of its parent, by its id, which is larger than that of its
parent, and on the thread.  The outline is not a part of a tree but what a tree is shown to have;
two outlines of one tree are the same, yet no proof needs that.

The preorder walk keeps a stack of ids still to be visited, and on an outlined tree the stack always
holds the labels of some outlines; so the walk is the preorder of these (`visit_eq`), by induction
on the steps that it has left.
-/
import StyleLex.Proofs.Rose
import StyleLex.Proofs.Tree.Thread

namespace StyleLex
namespace Tree

/-! ## 1. Outlines -/

/-- The children of every node of the outline are the nodes right below it, and name it as their
parent. -/
def Outlines (tree : Tree) (outline : Rose NodeId) : Prop :=
  ∀ sub ∈ outline.subtrees,
    (tree.children sub.label).toList = sub.children.map Rose.label ∧
      ∀ child ∈ sub.children, tree.parent? child.label = some sub.label

variable {tree : Tree} {outline : Rose NodeId}

theorem Outlines.of_mem (h : tree.Outlines outline) {sub : Rose NodeId}
    (hsub : sub ∈ outline.subtrees) : tree.Outlines sub :=
  fun _ hin => h _ (Rose.mem_subtrees_trans hin hsub)

/-- The walk that visits `n` nodes of some outlines is their preorder, if there are no more. -/
theorem visit_eq : ∀ (n : Nat) (outlines : List (Rose NodeId)) (seen : Array NodeId),
    (∀ outline ∈ outlines, tree.Outlines outline) → (Rose.preorderAll outlines).length ≤ n →
    (tree.visit n seen (outlines.map Rose.label)).toList = seen.toList ++ Rose.preorderAll outlines
  | 0, [], _, _, _ => by simp [visit]
  | n + 1, [], _, _, _ => by simp [visit]
  | 0, .node id below :: rest, _, _, hlength => by simp at hlength
  | n + 1, .node id below :: rest, seen, h, hlength => by
    have hself := h (.node id below) List.mem_cons_self
    have hchildren := (hself _ (Rose.mem_subtrees_self _)).1
    have hstack : (tree.children id).toList ++ rest.map Rose.label
        = (below ++ rest).map Rose.label := by
      rw [List.map_append, ← Rose.children_node id below, ← hchildren, Rose.label_node]
    have hbelow : ∀ outline ∈ below ++ rest, tree.Outlines outline := by
      intro outline hin
      rcases List.mem_append.mp hin with hin | hin
      · exact hself.of_mem (Rose.mem_subtrees_of_mem_children (by simpa using hin))
      · exact h outline (List.mem_cons_of_mem _ hin)
    rw [List.map_cons, Rose.label_node, visit, hstack,
      visit_eq n (below ++ rest) (seen.push id) hbelow (by simp at hlength ⊢; omega)]
    simp

/-- **The walk from a node is the preorder of its outline.** -/
theorem Outlines.preorder_eq (h : tree.Outlines outline)
    (hlength : outline.preorder.length ≤ tree.size) :
    (tree.preorder outline.label).toList = outline.preorder := by
  have := visit_eq tree.size [outline] #[] (by simpa using h) (by simpa using hlength)
  simpa [preorder] using this

/-! ## 2. Ordered trees

The ids are a permutation of the numbers below the size: nothing is left over in the arena, and
nothing stands in the outline twice.  The thread is given with nothing before and behind it, so it
begins at the root and ends at the last node of the postorder. -/

/-- A tree whose nodes are those of the outline, numbered downwards, and whose thread runs from
the root through what is below it in postorder. -/
structure Ordered (tree : Tree) (outline : Rose NodeId) : Prop where
  label : outline.label = root
  ids : outline.preorder.Perm (List.range tree.size)
  outlines : tree.Outlines outline
  increasing : ∀ sub ∈ outline.subtrees, ∀ child ∈ sub.children, sub.label < child.label
  orphan : tree.parent? root = none
  thread : tree.Chained none none (root :: Rose.postorderAll outline.children)

namespace Ordered

/-- The outline has every id of the arena and no other. -/
theorem mem_preorder (h : tree.Ordered outline) {id : NodeId} :
    id ∈ outline.preorder ↔ id < tree.size := by
  rw [h.ids.mem_iff, List.mem_range]

/-- No id stands in the outline twice. -/
theorem nodup (h : tree.Ordered outline) : outline.preorder.Nodup :=
  h.ids.nodup_iff.mpr List.nodup_range

/-- The outline has as many nodes as the arena. -/
theorem length_eq (h : tree.Ordered outline) : outline.preorder.length = tree.size := by
  rw [h.ids.length_eq, List.length_range]

/-- The thread has every node of the outline. -/
theorem thread_perm (h : tree.Ordered outline) :
    (root :: Rose.postorderAll outline.children).Perm outline.preorder := by
  obtain ⟨id, below⟩ := outline
  have hroot : id = root := h.label
  subst hroot
  rw [Rose.preorder_node]
  exact (Rose.postorderAll_perm below).cons _

/-- No id stands on the thread twice. -/
theorem thread_nodup (h : tree.Ordered outline) :
    (root :: Rose.postorderAll outline.children).Nodup :=
  h.thread_perm.nodup_iff.mpr h.nodup

/-- Every node but the root stands right below another one. -/
theorem exists_parent (h : tree.Ordered outline) {id : NodeId} (hid : id < tree.size)
    (hroot : id ≠ root) :
    ∃ sub ∈ outline.subtrees, ∃ child ∈ sub.children, child.label = id := by
  obtain ⟨found, hfound, rfl⟩ := Rose.mem_preorder.mp (h.mem_preorder.mpr hid)
  rcases Rose.eq_or_exists_parent hfound with rfl | ⟨sub, hsub, hin⟩
  · exact absurd h.label hroot
  · exact ⟨sub, hsub, found, hin, rfl⟩

end Ordered
end Tree
end StyleLex
