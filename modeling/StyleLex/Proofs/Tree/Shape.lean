/-
# The shape of a tree, from its levels

A walk that tells the level of every label it meets determines the trees it walks through
(`Rose.levelsAll_inj`): the labels below the first one are those up to the next label that is no
deeper.  In an ordered tree the level of a node is its depth, so two ordered trees whose walks
meet the same nodes at the same depths have the same parents and the same children
(`Tree.Ordered.sameShape`).

This is what a dump can tell: it has one line for each node in the order of a walk, and the
indentation of the line is the depth of the node.  No line names a parent.
-/
import StyleLex.Proofs.Depths

namespace StyleLex

/-! ## 1. Levels

Reading levels back is done by the second of the two recursions: the trees of a list begin at the
entries with the least level, and what stands between two of them is deeper. -/

namespace Rose

variable {α : Type}

mutual

/-- The labels of a tree with their levels, every one before those below it. -/
def levels (n : Nat) : Rose α → List (α × Nat)
  | node a below => (a, n) :: levelsAll (n + 1) below

def levelsAll (n : Nat) : List (Rose α) → List (α × Nat)
  | [] => []
  | tree :: rest => levels n tree ++ levelsAll n rest

end

mutual

/-- Nothing in a tree is above its root. -/
theorem le_of_mem_levels : ∀ {n : Nat} {tree : Rose α}, ∀ entry ∈ levels n tree, n ≤ entry.2
  | n, node a below, entry, h => by
    rw [levels, List.mem_cons] at h
    rcases h with rfl | h
    · exact Nat.le_refl n
    · exact Nat.le_of_succ_le (le_of_mem_levelsAll entry h)

theorem le_of_mem_levelsAll : ∀ {n : Nat} {trees : List (Rose α)},
    ∀ entry ∈ levelsAll n trees, n ≤ entry.2
  | n, tree :: rest, entry, h => by
    rw [levelsAll, List.mem_append] at h
    exact h.elim (le_of_mem_levels entry) (le_of_mem_levelsAll entry)

end

/-- What is below the first of some trees is what is deeper than it, up to the next tree. -/
theorem takeWhile_levels (n : Nat) (below rest : List (Rose α)) :
    (levelsAll (n + 1) below ++ levelsAll n rest).takeWhile (fun entry => n < entry.2) =
      levelsAll (n + 1) below := by
  have hbelow : ∀ entry ∈ levelsAll (n + 1) below, decide (n < entry.2) = true :=
    fun entry h => decide_eq_true (le_of_mem_levelsAll entry h)
  rw [List.takeWhile_append_of_pos hbelow]
  cases rest with
  | nil => simp [levelsAll]
  | cons tree further =>
    obtain ⟨a, inside⟩ := tree
    simp [levelsAll, levels]

mutual

/-- A single tree is read back as a list of one. -/
theorem levels_inj : ∀ {n : Nat} {a b : Rose α}, levels n a = levels n b → a = b
  | n, node x below, node y below', h => by
    rw [levels, levels] at h
    obtain ⟨hlabel, hbelow⟩ := List.cons.inj h
    rw [(Prod.mk.inj hlabel).1, levelsAll_inj hbelow]

/-- **Levels determine trees.** -/
theorem levelsAll_inj : ∀ {n : Nat} {as bs : List (Rose α)},
    levelsAll n as = levelsAll n bs → as = bs
  | _, [], [], _ => rfl
  | _, [], node _ _ :: _, h => by simp [levelsAll, levels] at h
  | _, node _ _ :: _, [], h => by simp [levelsAll, levels] at h
  | n, node x below :: rest, node y below' :: rest', h => by
    rw [levelsAll, levelsAll, levels, levels, List.cons_append, List.cons_append] at h
    obtain ⟨hlabel, htail⟩ := List.cons.inj h
    have hcut := congrArg (List.takeWhile fun entry => n < entry.2) htail
    rw [takeWhile_levels, takeWhile_levels] at hcut
    rw [hcut] at htail
    rw [(Prod.mk.inj hlabel).1, levelsAll_inj hcut, levelsAll_inj (List.append_cancel_left htail)]

end

end Rose

/-! ## 2. Trees of one shape

Depths are counted by climbing from a node to the root; levels go down from the root.  They meet in
an ordered tree because the parent of a node is the one below which the outline has it. -/

namespace Tree

variable {tree other : Tree} {outline outline' : Rose NodeId}

/-- Trees with the same nodes, tied together in the same way. -/
structure SameShape (tree other : Tree) : Prop where
  size : tree.size = other.size
  parent? : ∀ id, tree.parent? id = other.parent? id
  children : ∀ id, tree.children id = other.children id

/-- There is no node beyond the size. -/
theorem node?_of_not_lt {id : NodeId} (h : ¬ id < tree.size) : tree.node? id = none := by
  rw [← Option.not_isSome_iff_eq_none, node?_isSome]
  exact h

namespace Ordered

/-- The walk from the root is the preorder of the outline. -/
theorem walk_eq (h : tree.Ordered outline) : (tree.preorder root).toList = outline.preorder := by
  rw [← h.label]
  exact h.outlines.preorder_eq (Nat.le_of_eq h.length_eq)

mutual

/-- Anywhere inside the outline, a walk that begins with the right depth has the right depths below.
-/
theorem levels_of_mem (h : tree.Ordered outline) : ∀ {sub : Rose NodeId},
    sub ∈ outline.subtrees →
    sub.levels (tree.depth sub.label) = sub.preorder.map fun id => (id, tree.depth id)
  | .node id below, hsub => by
    rw [Rose.levels, Rose.preorder_node, List.map_cons, Rose.label_node]
    congr 1
    refine h.levelsAll_of_mem fun child hchild => ⟨?_, ?_⟩
    · have hin : child ∈ (Rose.node id below).subtrees := Rose.mem_subtrees_of_mem_children hchild
      exact Rose.mem_subtrees_trans hin hsub
    · exact h.depth_child ((h.outlines _ hsub).2 child hchild)

theorem levelsAll_of_mem (h : tree.Ordered outline) : ∀ {n : Nat} {trees : List (Rose NodeId)},
    (∀ sub ∈ trees, sub ∈ outline.subtrees ∧ tree.depth sub.label = n) →
    Rose.levelsAll n trees = (Rose.preorderAll trees).map fun id => (id, tree.depth id)
  | _, [], _ => by simp [Rose.levelsAll]
  | n, sub :: rest, hall => by
    obtain ⟨hsub, hdepth⟩ := hall sub List.mem_cons_self
    rw [Rose.levelsAll, Rose.preorderAll_cons, List.map_append, ← h.levels_of_mem hsub, hdepth,
      h.levelsAll_of_mem fun sub hin => hall sub (List.mem_cons_of_mem _ hin)]

end

/-- **The levels of an outline are the depths in the tree.** -/
theorem levels_eq (h : tree.Ordered outline) :
    outline.levels 0 = outline.preorder.map fun id => (id, tree.depth id) := by
  have := h.levels_of_mem (Rose.mem_subtrees_self outline)
  rwa [h.label, h.depth_root] at this

/-- The outline says who is whose parent. -/
theorem parent?_congr (h : tree.Ordered outline) (h' : other.Ordered outline) (id : NodeId) :
    tree.parent? id = other.parent? id := by
  by_cases hid : id < tree.size
  · by_cases hroot : id = root
    · rw [hroot, h.orphan, h'.orphan]
    · obtain ⟨sub, hsub, child, hchild, rfl⟩ := h.exists_parent hid hroot
      rw [(h.outlines sub hsub).2 child hchild, (h'.outlines sub hsub).2 child hchild]
  · have hother : ¬ id < other.size := by rwa [← h'.length_eq, h.length_eq]
    rw [Tree.parent?, Tree.parent?, node?_of_not_lt hid, node?_of_not_lt hother]

/-- **An outline is a shape.** -/
theorem sameShape_of_outline (h : tree.Ordered outline) (h' : other.Ordered outline) :
    tree.SameShape other where
  size := h.length_eq.symm.trans h'.length_eq
  parent? := h.parent?_congr h'
  children id := by
    by_cases hid : id < tree.size
    · obtain ⟨sub, hsub, rfl⟩ := Rose.mem_preorder.mp (h.mem_preorder.mpr hid)
      rw [← Array.toList_inj, (h.outlines sub hsub).1, (h'.outlines sub hsub).1]
    · have hother : ¬ id < other.size := by rwa [← h'.length_eq, h.length_eq]
      rw [Tree.children, Tree.children, node?_of_not_lt hid, node?_of_not_lt hother]

/-- **Ordered trees whose walks meet the same nodes at the same depths have one shape.** -/
theorem sameShape (h : tree.Ordered outline) (h' : other.Ordered outline')
    (hwalk : outline.preorder = outline'.preorder)
    (hdepth : ∀ id ∈ outline.preorder, tree.depth id = other.depth id) : tree.SameShape other := by
  have hlevels : outline.levels 0 = outline'.levels 0 := by
    rw [h.levels_eq, h'.levels_eq, ← hwalk]
    exact List.map_congr_left fun id hid => by rw [hdepth id hid]
  exact h.sameShape_of_outline (Rose.levels_inj hlevels ▸ h')

end Ordered
end Tree
end StyleLex
