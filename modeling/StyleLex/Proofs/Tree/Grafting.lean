/-
# Grafting

A call adds to one branch of an ordered tree.  Its nodes go on the thread behind what is below the
branch and, but for the root, in front of the branch itself (`Ordered.exists_site`), so the tree is
ordered again: what was read is grafted onto its outline (`Ordered.grow`).

The arena puts new nodes behind an anchor that it computes from the branch: its last child, or, if
it has none, the node before it on the thread, or the root for the root itself.  In each of these
three cases the anchor is the last node of what stands on the thread before the new nodes, and the
outline says that this is where a postorder has them.  So the three cases are settled once, in
`exists_site`, and whatever a call adds afterwards is described by the two parts of the thread
alone.
-/
import StyleLex.Proofs.Tree.Growth
import StyleLex.Proofs.Tree.Outline

namespace StyleLex

open Rose

/-! ## 1. The place

In postorder a branch stands right behind everything below it.  So what is before it ends with its
last child, if it has one, and otherwise with whatever was there before the branch, which its own
link backward names. -/

namespace Tree
namespace Ordered

variable {tree : Tree} {outline : Rose NodeId} {p : NodeId}

/-- The node after which a call begins to put nodes on the thread is the last one below the branch,
or else the one before it. -/
theorem threadAnchor_root (h : tree.Ordered outline) :
    (root :: postorderAll outline.children).getLast? = some (tree.threadAnchor root) := by
  have hself := (h.outlines _ (mem_subtrees_self outline)).1
  rw [h.label] at hself
  have hlast : (tree.children root).back? = (postorderAll outline.children).getLast? := by
    rw [getLast?_postorderAll, ← hself, Array.getLast?_toList]
  rw [threadAnchor, hlast]
  cases hpost : (postorderAll outline.children).getLast? with
  | none => simp [List.getLast?_eq_none_iff.mp hpost]
  | some last => simp [List.getLast?_cons, hpost]

/-- What stands on the thread before a branch ends with what is below it. -/
theorem exists_front (h : tree.Ordered outline) {sub : Rose NodeId} (hsub : sub ∈ outline.subtrees)
    (hne : sub.label ≠ root) {before after : List NodeId}
    (hthread : root :: postorderAll outline.children = before ++ sub.label :: after) :
    ∃ front, before = root :: front ++ postorderAll sub.children := by
  have hin : sub ∈ subtreesAll outline.children := by
    rcases mem_subtrees.mp hsub with rfl | hin
    · exact absurd h.label hne
    · exact hin
  obtain ⟨front, back, hsplit⟩ := postorder_within_all hin
  have heq : before ++ sub.label :: after =
      (root :: front ++ postorderAll sub.children) ++ sub.label :: back := by
    rw [← hthread, ← hsplit, postorder_eq]
    simp
  have hnodup := h.thread_nodup
  rw [hthread] at hnodup
  obtain ⟨hfront, hback⟩ := not_or.mp fun hor =>
    (List.nodup_middle.mp hnodup).notMem (List.mem_append.mpr hor)
  exact ⟨front, ((List.append_cons_inj_of_notMem hfront hback).mp heq).1⟩

/-- The same for any other branch: its last child, or the node that its link backward names. -/
theorem threadAnchor_below (h : tree.Ordered outline) {sub : Rose NodeId}
    (hsub : sub ∈ outline.subtrees) (hne : sub.label ≠ root) {before after : List NodeId}
    (hthread : root :: postorderAll outline.children = before ++ sub.label :: after) :
    before.getLast? = some (tree.threadAnchor sub.label) := by
  obtain ⟨front, hbefore⟩ := h.exists_front hsub hne hthread
  have hchildren := (h.outlines _ hsub).1
  have hlast : (tree.children sub.label).back? = (postorderAll sub.children).getLast? := by
    rw [getLast?_postorderAll, ← hchildren, Array.getLast?_toList]
  rw [threadAnchor, hlast]
  cases hpost : (postorderAll sub.children).getLast? with
  | some last =>
    rw [hbefore, List.getLast?_append, hpost]
    rfl
  | none =>
    have hprevious : tree.previous? sub.label = before.getLast? := by
      have hchained := h.thread
      rw [hthread] at hchained
      rw [hchained.previous?_eq, Option.or_none]
    have hsome : before.getLast? = some (before.getLast (by simp [hbefore])) :=
      List.getLast?_eq_some_getLast _
    have hbind : ((tree.node? sub.label).bind (·.previous)) = before.getLast? := hprevious
    simp only [if_neg hne, hbind]
    rw [hsome]
    rfl

/-! ## 2. The graft

A site of an ordered tree knows the thread as it will be for any items grafted on, because grafting
inserts in one place whatever is grafted. -/

/-- The site at which a call adds to an ordered tree. -/
structure IsSite (outline : Rose NodeId) (site : Site) : Prop where
  sound : site.Sound
  thread : site.given.Chained none none (site.before ++ site.after)
  tail : site.before.getLast? = some (site.given.threadAnchor site.base)
  grafted : ∀ fresh, root :: postorderAll (outline.graft site.base fresh).children =
    site.before ++ postorderAll fresh ++ site.after
  /-- What is below the branch is right before. -/
  below : ∀ sub ∈ outline.subtrees, sub.label = site.base →
    ∃ front, site.before = root :: front ++ postorderAll sub.children
  /-- The branch is right behind, but for the root. -/
  above : site.after.head? = if site.base = root then none else some site.base
  whole : root :: postorderAll outline.children = site.before ++ site.after

/-- The place in an ordered tree where a call adds to the branch `p`, and the thread afterwards. -/
theorem exists_site (h : tree.Ordered outline) (hp : p < tree.size) :
    ∃ site : Site, site.given = tree ∧ site.base = p ∧ IsSite outline site := by
  have hlt : ∀ id ∈ root :: postorderAll outline.children, id < tree.size := by
    intro id hid
    exact h.mem_preorder.mp (h.thread_perm.mem_iff.mp hid)
  have hpreorder : outline.preorder = root :: preorderAll outline.children := by
    obtain ⟨a, below⟩ := outline
    obtain rfl : a = root := h.label
    exact preorder_node _ below
  have hnodup := h.nodup
  rw [hpreorder, List.nodup_cons] at hnodup
  obtain ⟨hfresh, hbelow⟩ := hnodup
  by_cases hroot : p = root
  · -- new children of the root stand at the end of the thread
    subst hroot
    refine ⟨⟨tree, root, root :: postorderAll outline.children, []⟩, rfl, rfl, ?_⟩
    constructor
    case sound =>
      refine ⟨hp, ?_, ?_⟩
      · simpa using h.thread_nodup
      · simpa using hlt
    case whole => simp
    case thread => simpa using h.thread
    case tail => exact h.threadAnchor_root
    case grafted =>
      intro fresh
      rw [children_graft, graftAll_of_not_mem _ hfresh, h.label]
      simp
    case below =>
      intro sub hsub hlabel
      rcases mem_subtrees.mp hsub with rfl | hin
      · exact ⟨[], rfl⟩
      · exact absurd (mem_preorderAll.mpr ⟨sub, hin, hlabel⟩) hfresh
    case above => rfl
  · have hin : p ∈ preorderAll outline.children := by
      have := h.mem_preorder.mpr hp
      rw [hpreorder] at this
      exact (List.mem_cons.mp this).resolve_left hroot
    -- below any other branch they stand right before the branch, and the root keeps its place
    obtain ⟨before, after, hold, hnew⟩ := postorderAll_graft outline.children hin hbelow
    have hthread : root :: postorderAll outline.children = (root :: before) ++ p :: after := by
      rw [hold]
      rfl
    have hchained := h.thread
    have hthreadnodup := h.thread_nodup
    rw [hthread] at hchained hthreadnodup
    refine ⟨⟨tree, p, root :: before, p :: after⟩, rfl, rfl, ?_⟩
    constructor
    case sound =>
      refine ⟨hp, hthreadnodup, fun id hid => hlt id ?_⟩
      rw [hthread]
      exact hid
    case whole => exact hthread
    case thread => exact hchained
    case tail =>
      obtain ⟨sub, hsub, rfl⟩ := Rose.mem_preorder.mp (h.mem_preorder.mpr hp)
      exact h.threadAnchor_below hsub hroot hthread
    case grafted =>
      intro fresh
      rw [children_graft, h.label, if_neg (Ne.symm hroot), List.append_nil, hnew fresh]
      simp
    case below =>
      rintro sub hsub rfl
      exact h.exists_front hsub hroot hthread
    case above => simp [hroot]

/-- **What a call leaves behind is ordered again**: its items are grafted onto the outline. -/
theorem grow {site : Site} (h : site.given.Ordered outline) {source : Array UInt8}
    {items : List Item} (hbase : site.base < site.given.size)
    (hthread : root :: postorderAll (outline.graft site.base
      (items.map (Rose.map Label.id))).children =
        site.before ++ Item.linked items ++ site.after)
    (hgrown : Grown source site tree items) :
    tree.Ordered (outline.graft site.base (items.map (Rose.map Label.id))) := by
  have hids : preorderAll (items.map (Rose.map Label.id)) = Item.ids items := preorderAll_map _ _
  have hfresh : ∀ id ∈ Item.ids items, site.given.size ≤ id :=
    fun id hid => (hgrown.mem_ids.mp hid).1
  have hold : ∀ sub ∈ outline.subtrees, sub.label < site.given.size := fun sub hsub =>
    h.mem_preorder.mp (Rose.mem_preorder.mpr ⟨sub, hsub, rfl⟩)
  refine
    { label := by rw [label_graft, h.label]
      ids := ?_
      outlines := ?_
      increasing := ?_
      orphan := ?_
      thread := by rw [hthread]; exact hgrown.thread }
  · -- the ids of the given tree are those below its size, and the new ones continue from there
    refine (preorder_graft_perm (h.mem_preorder.mpr hbase) h.nodup).trans ?_
    rw [hids, hgrown.ids]
    refine (h.ids.append_right _).trans (List.Perm.of_eq ?_)
    have hsize : site.given.size + (tree.size - site.given.size) = tree.size := by
      have := hgrown.size
      omega
    rw [List.range_eq_range', List.range_eq_range', ← hsize, ← List.range'_append_1, Nat.zero_add,
      hsize]
  · -- an old node keeps its children, but for the branch that was added to; a new one has the
    -- children of its item
    intro sub hsub
    rcases mem_subtrees_graft hsub with ⟨old, hin, rfl⟩ | hin
    · obtain ⟨hchildren, hparent⟩ := h.outlines old hin
      rw [label_graft, children_graft]
      by_cases hlabel : old.label = site.base
      · rw [if_pos hlabel]
        refine ⟨?_, ?_⟩
        · rw [hlabel, hgrown.children, Array.toList_append, ← hlabel, hchildren]
          simp [Function.comp_def]
        · intro child hchild
          rcases List.mem_append.mp hchild with hchild | hchild
          · obtain ⟨below, hbelow, rfl⟩ := List.mem_map.mp hchild
            have hlt := hold below (mem_subtrees_trans (mem_subtrees_of_mem_children hbelow) hin)
            rw [label_graft, hgrown.parent?_old hlt, hparent below hbelow]
          · obtain ⟨item, hitem, rfl⟩ := List.mem_map.mp hchild
            rw [label_map, (hgrown.held item hitem).parent?_label, hlabel]
      · rw [if_neg hlabel, List.append_nil]
        refine ⟨?_, ?_⟩
        · rw [hgrown.children_old (hold old hin) hlabel, hchildren]
          simp [Function.comp_def]
        · intro child hchild
          obtain ⟨below, hbelow, rfl⟩ := List.mem_map.mp hchild
          have hlt := hold below (mem_subtrees_trans (mem_subtrees_of_mem_children hbelow) hin)
          rw [label_graft, hgrown.parent?_old hlt, hparent below hbelow]
    · rw [subtreesAll_map] at hin
      obtain ⟨found, hfound, rfl⟩ := List.mem_map.mp hin
      obtain ⟨item, hitem, hsub⟩ := mem_subtreesAll.mp hfound
      obtain ⟨parent, hholds⟩ := (hgrown.held item hitem).of_mem hsub
      refine ⟨?_, ?_⟩
      · rw [label_map, children_map, hholds.children_label]
        simp [Function.comp_def]
      · intro child hchild
        rw [children_map] at hchild
        obtain ⟨below, hbelow, rfl⟩ := List.mem_map.mp hchild
        rw [label_map, label_map, ((holds_iff.mp hholds).2 below hbelow).parent?_label]
  · -- an old parent has a smaller id than what was added, and new ids increase downwards
    intro sub hsub child hchild
    rcases mem_subtrees_graft hsub with ⟨old, hin, rfl⟩ | hin
    · rw [label_graft]
      rw [children_graft] at hchild
      rcases List.mem_append.mp hchild with hchild | hchild
      · obtain ⟨below, hbelow, rfl⟩ := List.mem_map.mp hchild
        rw [label_graft]
        exact h.increasing old hin below hbelow
      · split at hchild
        · have hlabel := label_mem_preorderAll hchild
          rw [hids] at hlabel
          exact Nat.lt_of_lt_of_le (hold old hin) (hfresh _ hlabel)
        · cases hchild
    · refine label_lt_of_preorder ?_ hin hchild
      rw [hids, hgrown.ids]
      exact List.pairwise_lt_range'
  · have hroot : root < site.given.size := Nat.lt_of_le_of_lt (Nat.zero_le _) hbase
    rw [hgrown.parent?_old hroot, h.orphan]

end Ordered
end Tree

end StyleLex
