/-
# What is tied in, and what is not yet

While an assembly takes its marks, every new node is in one of three places: it was tied in, below
its parent and on the thread; or it is pending; or it is an open branch.  A node in one of the last
two is `Untied`: no list of children names it and no link of the thread leads to it or from it.

Two facts are kept beside what `Realizes` says, and each of them is about the nodes that are *not*
where they might be (`Tree.Bound`): nodes off the thread have no links, and what stands in a list of
children names its parent.  So a node without a parent is in no list.

The invariants of `Realizes` are about what is where it should be.  What a reader of the program
relies on as well is that nothing is anywhere else: a node that is still open must not be found by a
walk.  That cannot be read off a description of what the lists and the thread contain unless the
rest of the arena is known to be free of links, which is what `Tree.Bound` adds.
-/
import StyleLex.Proofs.Session
import StyleLex.Proofs.Tree.Finishing
import StyleLex.Proofs.Tree.Grafting
import StyleLex.Proofs.Tree.Shape

namespace StyleLex

/-! ## 1. Ties -/

namespace Tree

/-- A node that is in the tree and not attached, and not on the thread. -/
structure Untied (tree : Tree) (id : NodeId) : Prop where
  orphan : tree.parent? id = none
  unlisted : ∀ other, id ∉ tree.children other
  previous : tree.previous? id = none
  next : tree.next? id = none

/-- A node that is attached below `parent`, and on the thread. -/
structure TiedBelow (tree : Tree) (parent id : NodeId) : Prop where
  attached : tree.parent? id = some parent
  listed : id ∈ tree.children parent
  linked : ∃ before, tree.previous? id = some before ∧ tree.next? before = some id

/-- A node that is attached somewhere, and on the thread. -/
def Tied (tree : Tree) (id : NodeId) : Prop := ∃ parent, tree.TiedBelow parent id

variable {tree : Tree} {id : NodeId}

/-- No node is both. -/
theorem Untied.not_tied (h : tree.Untied id) : ¬ tree.Tied id := by
  rintro ⟨parent, htied⟩
  cases h.orphan.symm.trans htied.attached

/-- A new node has the parent that it brings. -/
theorem parent?_add (tree : Tree) (node : Node) (id : NodeId) :
    (tree.add node).parent? id = if id = tree.size then node.parent else tree.parent? id := by
  rw [parent?, node?_add]
  split <;> rfl

/-- And the children that it brings. -/
theorem children_add (tree : Tree) (node : Node) (id : NodeId) :
    (tree.add node).children id = if id = tree.size then node.children else tree.children id := by
  rw [children, node?_add]
  split <;> rfl

theorem lt_size_of_parent? {parent : NodeId} (h : tree.parent? id = some parent) :
    id < tree.size := by
  obtain ⟨node, hnode, -⟩ := Option.bind_eq_some_iff.mp h
  exact lt_size_of_node? hnode

theorem lt_size_of_mem_children {child : NodeId} (h : child ∈ tree.children id) :
    id < tree.size := by
  rw [← node?_isSome]
  cases hnode : tree.node? id with
  | none => simp [children, hnode] at h
  | some node => rfl

/-- A node that brings no links leaves nodes without links so. -/
theorem links_add (tree : Tree) {node : Node} (hprevious : node.previous = none)
    (hnext : node.next = none) {id : NodeId} (h : tree.previous? id = none ∧ tree.next? id = none) :
    (tree.add node).previous? id = none ∧ (tree.add node).next? id = none := by
  rw [previous?, next?, node?_add]
  split
  · exact ⟨hprevious, hnext⟩
  · exact h

/-- Putting a node on the thread moves no link off the thread. -/
theorem Chained.linkAfter_of_notMem {ids : List NodeId} {anchor j : NodeId}
    (h : tree.Chained none none ids) (hanchor : anchor ∈ ids) (hsize : ∀ j ∈ ids, j < tree.size)
    (hid : id < tree.size) (hnew : id ∉ ids) (hj : j ∉ ids) (hne : j ≠ id) :
    (tree.linkAfter anchor id).previous? j = tree.previous? j ∧
      (tree.linkAfter anchor id).next? j = tree.next? j := by
  have hfurther : ∀ further, tree.next? anchor = some further → further ∈ ids :=
    fun further hnext => h.mem_of_next? hanchor hnext
  have hother : id ≠ anchor := fun heq => hnew (heq ▸ hanchor)
  have hapart : j ≠ anchor := fun heq => hj (heq ▸ hanchor)
  rw [previous?_linkAfter hid (fun hnext => hnew (hfurther id hnext))
      fun further hnext => hsize further (hfurther further hnext),
    next?_linkAfter hother hid (hsize anchor hanchor), if_neg hne, if_neg hapart, if_neg hne,
    if_neg fun hnext => hj (hfurther j hnext)]
  exact ⟨rfl, rfl⟩

/-- Behind some node, a node on the thread is linked both ways. -/
theorem Chained.exists_previous {front fresh back : List NodeId}
    (h : tree.Chained none none (front ++ fresh ++ back)) (hnodup : (front ++ fresh ++ back).Nodup)
    (hfront : front ≠ []) (hid : id ∈ fresh) :
    ∃ before, tree.previous? id = some before ∧ tree.next? before = some id := by
  have hin : id ∈ front ++ fresh ++ back :=
    List.mem_append_left _ (List.mem_append_right _ hid)
  obtain ⟨a, b, rfl⟩ := List.append_of_mem hid
  have hsplit : front ++ (a ++ id :: b) ++ back = (front ++ a) ++ id :: (b ++ back) := by
    simp
  obtain ⟨before, hlast⟩ : ∃ before, (front ++ a).getLast? = some before :=
    ⟨_, List.getLast?_eq_some_getLast (by simp [hfront])⟩
  have hprevious : tree.previous? id = some before := by
    rw [hsplit] at h
    rw [h.previous?_eq, Option.or_none, hlast]
  refine ⟨before, hprevious, ?_⟩
  exact (h.next?_iff_previous? hnodup (h.mem_of_previous? hin hprevious) hin).mpr hprevious

/-! ## 2. Bound trees

In a tree that no call is working on every node is on the thread, so the first clause says nothing
there (`Ordered.bound`).  It comes to say something with the first node that is added and not yet
linked. -/

/-- Nodes off the thread have no links, and what is listed as a child names its parent. -/
structure Bound (tree : Tree) (thread : List NodeId) : Prop where
  unlinked : ∀ id ∉ thread, tree.previous? id = none ∧ tree.next? id = none
  listed : ∀ id, ∀ child ∈ tree.children id, tree.parent? child = some id

variable {thread : List NodeId}

/-- Without a parent, and off the thread, a node is tied to nothing. -/
theorem Bound.untied (h : tree.Bound thread) (horphan : tree.parent? id = none)
    (hid : id ∉ thread) : tree.Untied id where
  orphan := horphan
  unlisted := by
    intro other hin
    cases horphan.symm.trans (h.listed other id hin)
  previous := (h.unlinked id hid).1
  next := (h.unlinked id hid).2

/-- A new node without children and links keeps a tree bound: it is off the thread and has no links.
-/
theorem Bound.add (h : tree.Bound thread) {node : Node} (hchildren : node.children = #[])
    (hprevious : node.previous = none) (hnext : node.next = none) :
    (tree.add node).Bound thread where
  unlinked := fun id hid => tree.links_add hprevious hnext (h.unlinked id hid)
  listed := by
    intro id child hchild
    rw [children_add] at hchild
    split at hchild
    · rw [hchildren] at hchild
      cases Array.mem_toList_iff.mpr hchild
    · have hold := h.listed id child hchild
      rw [parent?_add, if_neg (Nat.ne_of_lt (lt_size_of_parent? hold)), hold]

/-- A node that is refreshed keeps its place. -/
theorem Bound.refreshed (h : tree.Bound thread) {tree' : Tree} {source : Array UInt8}
    (hrefreshed : Refreshed source tree id tree') : tree'.Bound thread where
  unlinked := by
    intro j hj
    rw [hrefreshed.previous, hrefreshed.next]
    exact h.unlinked j hj
  listed := by
    intro j child hchild
    have hj : j < tree.size := hrefreshed.size ▸ lt_size_of_mem_children hchild
    rw [hrefreshed.children_eq hj] at hchild
    have hold := h.listed j child hchild
    rw [hrefreshed.parent?_eq (lt_size_of_parent? hold), hold]

/-- In an ordered tree every node is on the thread. -/
theorem Ordered.bound {outline : Rose NodeId} (h : tree.Ordered outline) :
    tree.Bound (root :: Rose.postorderAll outline.children) where
  unlinked := by
    intro id hid
    have hnode : tree.node? id = none := node?_of_not_lt fun hlt =>
      hid (h.thread_perm.mem_iff.mpr (h.mem_preorder.mpr hlt))
    rw [previous?, next?, hnode]
    exact ⟨rfl, rfl⟩
  listed := fun _ _ hchild => h.parent?_of_mem_children hchild

end Tree

/-! ## 3. Taking marks

Of the steps of an assembly only the completion of the pending child writes links and lists; it
moves the child from the one side to the other, and gives it its parent at the same time as its
place in the list. -/

/-- The whole thread, with what an assembly has put on it. -/
def Site.thread (site : Site) (links : List NodeId) : List NodeId :=
  site.before ++ links ++ site.after

namespace Realizes

variable {source : Array UInt8} {site : Site} {assembly : Assembly} {draft : Draft} {item : Item}

/-- The pending child is in the arena. -/
theorem pending_lt (h : Realizes source site assembly draft) (hpending : draft.pending = some item) :
    item.label.id < assembly.tree.size :=
  Tree.lt_size_of_body? (h.loose item (Draft.mem_loose hpending)).1

/-- The pending child is not on the thread. -/
theorem pending_notMem (h : Realizes source site assembly draft) (hsite : site.Sound)
    (hpending : draft.pending = some item) : item.label.id ∉ site.thread draft.links := by
  have hfresh := h.loose_fresh hsite (pending_mem_ids hpending)
  have hlast := (h.apart hsite).last item (Draft.mem_loose hpending)
  simp only [Site.thread, List.mem_append, not_or] at hfresh ⊢
  exact ⟨⟨hfresh.1, hlast⟩, hfresh.2⟩

/-- The pending child has no parent yet. -/
theorem pending_orphan (h : Realizes source site assembly draft)
    (hpending : draft.pending = some item) : assembly.tree.parent? item.label.id = none := by
  rw [Tree.parent?_eq, (h.loose item (Draft.mem_loose hpending)).1]
  rfl

/-- Tying in the pending child gives it a parent, and no other node. -/
theorem parent?_settle (h : Realizes source site assembly draft) (hsite : site.Sound)
    (hpending : draft.pending = some item) (stop : Position) (id : NodeId) :
    (assembly.settle stop).tree.parent? id =
      if item.label.id = id then some draft.frame.id else assembly.tree.parent? id := by
  rw [Tree.parent?_eq, h.body?_settle hsite hpending, Tree.parent?_eq]
  split
  · rename_i heq
    obtain ⟨node, hnode⟩ := Tree.exists_node (heq ▸ h.pending_lt hpending)
    rw [Tree.body?_of_node? hnode]
    rfl
  · split
    · cases assembly.tree.body? id <;> rfl
    · rfl

/-- The innermost branch gets one more child, and no other node does. -/
theorem children_settle (h : Realizes source site assembly draft) (hsite : site.Sound)
    (hpending : draft.pending = some item) (stop : Position) (id : NodeId) :
    (assembly.settle stop).tree.children id =
      if draft.frame.id = id then (assembly.tree.children id).push item.label.id
      else assembly.tree.children id := by
  have hne := h.pending_ne hsite hpending List.mem_cons_self
  rw [Tree.children_eq, h.body?_settle hsite hpending, Tree.children_eq]
  by_cases hid : draft.frame.id = id
  · rw [if_neg (hid ▸ hne), if_pos hid, if_pos hid, ← hid, h.frames _ List.mem_cons_self]
    rfl
  · rw [if_neg hid, if_neg hid]
    split
    · cases assembly.tree.body? id <;> rfl
    · rfl

/-- Tying in the pending child moves no link off the thread. -/
theorem unlinked_settle (h : Realizes source site assembly draft) (hsite : site.Sound)
    (hbound : assembly.tree.Bound (site.thread draft.links)) (hpending : draft.pending = some item)
    (stop : Position) {id : NodeId} (hid : id ∉ site.thread (draft.links ++ [item.label.id])) :
    (assembly.settle stop).tree.previous? id = none ∧
      (assembly.settle stop).tree.next? id = none := by
  simp only [Site.thread, List.mem_append, List.mem_singleton, not_or] at hid
  obtain ⟨⟨hbefore, hlinks, hne⟩, hafter⟩ := hid
  have hold : id ∉ site.thread draft.links := by
    simp only [Site.thread, List.mem_append, not_or]
    exact ⟨⟨hbefore, hlinks⟩, hafter⟩
  have htail : assembly.tail ∈ site.thread draft.links :=
    List.mem_append_left _ (List.mem_of_getLast? h.tail)
  have hthread : Tree.Chained ((assembly.tree.modify item.label.id fun node =>
      { node with span := { node.span with stop := stop } }).attach assembly.branch item.label.id)
      none none (site.thread draft.links) :=
    h.thread.congr (fun j _ => Tree.previous?_untied _ assembly.branch item.label.id stop j)
      fun j _ => Tree.next?_untied _ assembly.branch item.label.id stop j
  obtain ⟨hprevious, hnext⟩ := hthread.linkAfter_of_notMem htail
    (fun j hj => by simpa using h.thread_lt hsite hj) (by simpa using h.pending_lt hpending)
    (h.pending_notMem hsite hpending) hold hne
  rw [Tree.previous?_untied, (hbound.unlinked id hold).1] at hprevious
  rw [Tree.next?_untied, (hbound.unlinked id hold).2] at hnext
  rw [Assembly.settle_of_some (h.pending_eq hpending)]
  exact ⟨hprevious, hnext⟩

/-- **Tying in the pending child keeps a tree bound.** -/
theorem bound_settle (h : Realizes source site assembly draft) (hsite : site.Sound)
    (hbound : assembly.tree.Bound (site.thread draft.links)) (stop : Position) :
    (assembly.settle stop).tree.Bound (site.thread (draft.settle stop).links) := by
  have hlinks := draft.links_settle stop
  cases hpending : draft.pending with
  | none =>
    rw [Draft.loose_of_none hpending, List.map_nil, List.append_nil] at hlinks
    have hnone : assembly.pending = none := by rw [h.pending, hpending, Option.map_none]
    rw [hlinks, Assembly.settle_of_none hnone]
    exact hbound
  | some item =>
    rw [Draft.loose_of_some hpending, List.map_singleton] at hlinks
    rw [hlinks]
    refine ⟨fun id hid => h.unlinked_settle hsite hbound hpending stop hid, ?_⟩
    intro id child hchild
    rw [h.children_settle hsite hpending] at hchild
    rw [h.parent?_settle hsite hpending]
    -- a child that was listed before had a parent, and the pending one has none, so they differ
    have hold : child ∈ assembly.tree.children id →
        (if item.label.id = child then some draft.frame.id else assembly.tree.parent? child) =
          some id := by
      intro hin
      have hparent := hbound.listed id child hin
      rw [if_neg, hparent]
      rintro rfl
      cases (h.pending_orphan hpending).symm.trans hparent
    split at hchild
    · rename_i heq
      rcases Array.mem_push.mp hchild with hchild | rfl
      · exact hold hchild
      · rw [if_pos rfl, heq]
    · exact hold hchild

/-- **Taking a mark keeps a tree bound.** -/
theorem bound_take (h : Realizes source site assembly draft) (hsite : site.Sound)
    (hbound : assembly.tree.Bound (site.thread draft.links)) {mark : Mark}
    (hfits : draft.Fits mark) :
    (assembly.take source mark).tree.Bound (site.thread (draft.take mark).links) := by
  have hsettled := fun stop => h.bound_settle hsite hbound stop
  cases mark with
  | leaf leaf valid start =>
    rw [Draft.take, Draft.links_addLeaf (Draft.loose_settle start draft)]
    exact (hsettled start).add rfl rfl rfl
  | opened branch start =>
    rw [Draft.take, Draft.links_openBranch (Draft.loose_settle start draft)]
    exact (hsettled start).add rfl rfl rfl
  | closed branch valid stop =>
    have hclosed := (hsettled stop).refreshed
      (refreshed_close source _ (assembly.settle stop).branch branch valid)
    rw [Draft.take, Draft.links_closeBranch (Draft.loose_settle stop draft)]
    rw [Assembly.take, Assembly.complete_eq]
    split <;> exact hclosed

/-- All marks of a scan keep a tree bound. -/
theorem bound_takeAll (hsite : site.Sound) : ∀ (marks : List Mark) {assembly : Assembly}
    {draft : Draft}, Realizes source site assembly draft →
    assembly.tree.Bound (site.thread draft.links) → draft.Admits marks →
    (assembly.takeAll source marks).tree.Bound (site.thread (draft.takeAll marks).links)
  | [], _, _, _, hbound, _ => hbound
  | _ :: rest, _, _, h, hbound, hadmits =>
    bound_takeAll hsite rest (h.take hsite hadmits.1) (h.bound_take hsite hbound hadmits.1)
      hadmits.2

end Realizes

/-! ## 4. Where the new nodes are

Every node that a scan has allocated is in exactly one of the three places, and each place has
its own reason: on the thread is what some branch lists, pending is the node completed last, and
the open branches are the rest. -/

namespace Assembly

/-- The open branches, from the inside out. -/
def path (assembly : Assembly) : List NodeId := assembly.branch :: assembly.outer

/-- The open branches inside the one that is added to. -/
def inner (assembly : Assembly) : List NodeId := assembly.path.dropLast

/-- Completing a child opens and closes nothing. -/
theorem path_settle (assembly : Assembly) (stop : Position) :
    (assembly.settle stop).path = assembly.path := by
  cases hpending : assembly.pending with
  | none => rw [settle_of_none hpending]
  | some id =>
    rw [settle_of_some hpending]
    rfl

/-- No mark closes the branch that is added to. -/
theorem getLast?_path_take (source : Array UInt8) (assembly : Assembly) (mark : Mark) :
    (assembly.take source mark).path.getLast? = assembly.path.getLast? := by
  cases mark with
  | leaf leaf valid start => exact congrArg List.getLast? (assembly.path_settle start)
  | opened branch start =>
    rw [← assembly.path_settle start]
    exact List.getLast?_cons_cons
  | closed branch valid stop =>
    rw [← assembly.path_settle stop, take, complete_eq]
    generalize assembly.settle stop = settled
    obtain ⟨tree, tail, id, outer, pending, attached⟩ := settled
    cases outer with
    | nil => rfl
    | cons around further => exact List.getLast?_cons_cons.symm

/-- The same for all marks of a scan. -/
theorem getLast?_path_takeAll (source : Array UInt8) (marks : List Mark) (assembly : Assembly) :
    (assembly.takeAll source marks).path.getLast? = assembly.path.getLast? := by
  induction marks generalizing assembly with
  | nil => rfl
  | cons mark rest ih => exact (ih _).trans (assembly.getLast?_path_take source mark)

end Assembly

/-- The nodes that an assembly ties in while it takes some marks, in order: each mark says where
the pending child ends. -/
def Assembly.linkedBy (source : Array UInt8) : Assembly → List Mark → List NodeId
  | _, [] => []
  | assembly, mark :: rest =>
    assembly.pending.toList ++ linkedBy source (assembly.take source mark) rest

/-- What is on the thread is what is below the open branches, and below the pending child. -/
theorem Draft.mem_links {draft : Draft} {id : NodeId} : id ∈ draft.links ↔
    (∃ frame ∈ draft.frames, id ∈ Item.ids frame.done) ∨
      ∃ item ∈ draft.loose, id ∈ Item.ids item.children := by
  have hframes : ∀ frames : List Frame,
      id ∈ frameLinks frames ↔ ∃ frame ∈ frames, id ∈ Item.ids frame.done := by
    intro frames
    induction frames with
    | nil => simp [frameLinks]
    | cons frame outer ih =>
      rw [frameLinks, List.mem_append, ih, (Item.linked_perm _).mem_iff]
      simp [or_comm]
  have hloose : id ∈ Item.linked (draft.loose.flatMap Rose.children) ↔
      ∃ item ∈ draft.loose, id ∈ Item.ids item.children := by
    cases hpending : draft.pending with
    | none => simp [loose_of_none hpending]
    | some item => simp [loose_of_some hpending, (Item.linked_perm _).mem_iff]
  rw [links, List.mem_append, hframes, hloose]

/-- A mark puts on the thread what was pending, and nothing else. -/
theorem Draft.links_take (draft : Draft) (mark : Mark) :
    (draft.take mark).links = draft.links ++ draft.loose.map (·.label.id) := by
  cases mark with
  | leaf leaf valid start =>
    rw [take, links_addLeaf (loose_settle start draft), links_settle]
  | opened branch start =>
    rw [take, links_openBranch (loose_settle start draft), links_settle]
  | closed branch valid stop =>
    rw [take, links_closeBranch (loose_settle stop draft), links_settle]

/-- In items that are held, everything is listed by its parent if the outermost ones are. -/
theorem Tree.HoldsAll.exists_parent {tree : Tree} {source : Array UInt8} {parent : NodeId}
    {items : List Item} (h : tree.HoldsAll source (some parent) items)
    (hlisted : ∀ item ∈ items, item.label.id ∈ tree.children parent) {id : NodeId}
    (hid : id ∈ Item.ids items) :
    ∃ parent, tree.parent? id = some parent ∧ id ∈ tree.children parent := by
  obtain ⟨sub, hsub, rfl⟩ := Item.mem_ids.mp hid
  rcases Rose.mem_or_exists_parentAll hsub with hin | ⟨around, haround, hin⟩
  · exact ⟨parent, (holdsAll_iff.mp h sub hin).parent?_label, hlisted sub hin⟩
  · obtain ⟨_, hholds⟩ := h.of_mem haround
    refine ⟨around.label.id, ((holds_iff.mp hholds).2 sub hin).parent?_label, ?_⟩
    rw [← Array.mem_toList_iff, hholds.children_label]
    exact List.mem_map_of_mem hin

namespace Realizes

variable {source : Array UInt8} {site : Site} {assembly : Assembly} {draft : Draft} {item : Item}

/-- Assembly and draft agree about what is pending. -/
theorem toList_pending (h : Realizes source site assembly draft) :
    assembly.pending.toList = draft.loose.map (·.label.id) := by
  rw [h.pending, Draft.loose]
  cases draft.pending <;> rfl

/-- What marks put on the thread is what they found pending, one node after the other. -/
theorem links_takeAll (hsite : site.Sound) : ∀ (marks : List Mark) {assembly : Assembly}
    {draft : Draft}, Realizes source site assembly draft → draft.Admits marks →
    (draft.takeAll marks).links = draft.links ++ assembly.linkedBy source marks
  | [], _, draft, _, _ => (List.append_nil draft.links).symm
  | mark :: rest, assembly, draft, h, hadmits => by
    rw [Draft.takeAll_cons, links_takeAll hsite rest (h.take hsite hadmits.1) hadmits.2,
      Draft.links_take, Assembly.linkedBy, h.toList_pending, List.append_assoc]

/-- The open branches but the one that is added to are new. -/
theorem fresh_frame (h : Realizes source site assembly draft) (hsite : site.Sound)
    {frame : Draft.Frame} (hframe : frame ∈ draft.frames.dropLast) :
    site.given.size ≤ frame.id ∧ frame.id < assembly.tree.size := by
  have hin : frame ∈ draft.frames := List.dropLast_subset _ hframe
  rcases h.numbered.mem_ids.mp (Draft.frame_mem_ids hin) with hbase | hnew
  · have hnodup := (h.apart hsite).frames
    rw [h.numbered.ids_frames] at hnodup
    exact absurd (List.mem_singleton.mpr hbase)
      ((List.nodup_append'.mp hnodup).2.2 (List.mem_map_of_mem hframe))
  · rw [h.size]
    exact hnew

/-- The pending child is new. -/
theorem fresh_pending (h : Realizes source site assembly draft) (hsite : site.Sound)
    (hpending : draft.pending = some item) :
    site.given.size ≤ item.label.id ∧ item.label.id < assembly.tree.size := by
  rcases h.numbered.mem_ids.mp (Draft.loose_subset (pending_mem_ids hpending)) with hbase | hnew
  · obtain ⟨frame, hframe, hid⟩ := h.base_mem
    exact absurd (hbase.trans hid.symm) (h.pending_ne hsite hpending hframe)
  · rw [h.size]
    exact hnew

/-- **An open branch is tied to nothing**, but for the one that is added to. -/
theorem untied_frame (h : Realizes source site assembly draft) (hsite : site.Sound)
    (hbound : assembly.tree.Bound (site.thread draft.links)) {frame : Draft.Frame}
    (hframe : frame ∈ draft.frames.dropLast) : assembly.tree.Untied frame.id := by
  have hin : frame ∈ draft.frames := List.dropLast_subset _ hframe
  refine hbound.untied ?_ ?_
  · obtain ⟨branch, start, horigin⟩ := h.fresh frame hframe
    rw [Tree.parent?_eq, h.frames frame hin, Draft.Frame.node, horigin]
    rfl
  · have hold : frame.id ∉ site.before ++ site.after := fun hid =>
      Nat.not_lt_of_le (h.fresh_frame hsite hframe).1 (hsite.old _ hid)
    simp only [Site.thread, List.mem_append, not_or] at hold ⊢
    exact ⟨⟨hold.1, (h.apart hsite).unlinked frame hin⟩, hold.2⟩

/-- **The pending child is tied to nothing.** -/
theorem untied_pending (h : Realizes source site assembly draft) (hsite : site.Sound)
    (hbound : assembly.tree.Bound (site.thread draft.links)) (hpending : draft.pending = some item) :
    assembly.tree.Untied item.label.id :=
  hbound.untied (h.pending_orphan hpending) (h.pending_notMem hsite hpending)

/-- What is on the thread behind some node is linked. -/
theorem exists_previous (h : Realizes source site assembly draft) (hsite : site.Sound)
    (hbefore : site.before ≠ []) {id : NodeId} (hid : id ∈ draft.links) :
    ∃ before, assembly.tree.previous? id = some before ∧
      assembly.tree.next? before = some id :=
  h.thread.exists_previous (h.thread_nodup hsite) hbefore hid

/-- **What was put on the thread is tied in.** -/
theorem tied (h : Realizes source site assembly draft) (hsite : site.Sound)
    (hbefore : site.before ≠ []) {id : NodeId} (hid : id ∈ draft.links) :
    assembly.tree.Tied id := by
  obtain ⟨parent, hparent, hlisted⟩ : ∃ parent,
      assembly.tree.parent? id = some parent ∧ id ∈ assembly.tree.children parent := by
    rcases Draft.mem_links.mp hid with ⟨frame, hframe, hin⟩ | ⟨item, hitem, hin⟩
    · refine (Tree.holdsAll_iff.mpr (h.done frame hframe)).exists_parent ?_ hin
      intro item hitem
      rw [Tree.children_eq, h.frames frame hframe]
      exact Array.mem_append_right _ (List.mem_toArray.mpr (List.mem_map_of_mem hitem))
    · obtain ⟨hself, hbelow⟩ := h.loose item hitem
      refine (Tree.holdsAll_iff.mpr hbelow).exists_parent ?_ hin
      intro child hchild
      rw [Tree.children_eq, hself]
      exact List.mem_toArray.mpr (List.mem_map_of_mem hchild)
  exact ⟨parent, hparent, hlisted, h.exists_previous hsite hbefore hid⟩

/-- **The children of an open branch are tied below it**, but for the one that is added to, which
may have had children before. -/
theorem tiedBelow_frame (h : Realizes source site assembly draft) (hsite : site.Sound)
    (hbefore : site.before ≠ []) {frame : Draft.Frame} (hframe : frame ∈ draft.frames.dropLast)
    {child : NodeId} (hchild : child ∈ assembly.tree.children frame.id) :
    assembly.tree.TiedBelow frame.id child := by
  have hin : frame ∈ draft.frames := List.dropLast_subset _ hframe
  obtain ⟨branch, start, horigin⟩ := h.fresh frame hframe
  have hdone := hchild
  rw [Tree.children_eq, h.frames frame hin, Option.map_some, Option.getD_some, Draft.Frame.node,
    horigin] at hdone
  obtain ⟨item, hitem, rfl⟩ : ∃ item ∈ frame.done, item.label.id = child := by
    simpa [Draft.opening] using hdone
  refine ⟨(h.done frame hin item hitem).parent?_label, hchild, h.exists_previous hsite hbefore ?_⟩
  exact Draft.mem_links.mpr (Or.inl ⟨frame, hin, Item.id_mem_ids hitem⟩)

/-- The tail is the node tied in last, or else the one that the thread was left at. -/
theorem tail_eq (h : Realizes source site assembly draft) {anchor : NodeId}
    (hanchor : site.before.getLast? = some anchor) :
    assembly.tail = draft.links.getLast?.getD anchor := by
  have htail := h.tail
  rw [List.getLast?_append, hanchor] at htail
  cases hlast : draft.links.getLast? with
  | none =>
    rw [hlast] at htail
    exact (Option.some.inj htail).symm
  | some last =>
    rw [hlast] at htail
    exact (Option.some.inj htail).symm

/-- **Every new node is in one place**: on the thread, or pending, or an open branch. -/
theorem mem_places (h : Realizes source site assembly draft) {id : NodeId}
    (hnew : site.given.size ≤ id) (hlt : id < assembly.tree.size) (hsite : site.Sound) :
    id ∈ draft.links ∨ assembly.pending = some id ∨ id ∈ draft.frames.dropLast.map (·.id) := by
  have hin : id ∈ draft.ids := h.numbered.mem_ids.mpr (Or.inr ⟨hnew, h.size ▸ hlt⟩)
  rcases List.mem_append.mp (draft.ids_perm_links.mem_iff.mp hin) with hframe | hrest
  · right; right
    rw [h.numbered.ids_frames] at hframe
    refine (List.mem_append.mp hframe).resolve_right fun hbase => ?_
    exact Nat.not_lt_of_le hnew (List.mem_singleton.mp hbase ▸ hsite.base)
  · rcases List.mem_append.mp hrest with hlinks | hloose
    · exact Or.inl hlinks
    · rw [← h.toList_pending] at hloose
      exact Or.inr (Or.inl (Option.mem_toList.mp hloose))

end Realizes
end StyleLex
