/-
# An assembly builds its draft

An assembly and a draft take the same marks.  `Realizes` says that they agree: the open branches
are in the tree with the children that are complete, everything below them is held by the tree,
and the thread runs through what was tied in, at one place of the old thread.  Taking a mark keeps
them in agreement (`Realizes.take`), so a tree can be read off its draft.

What the tree held before is the same as it was, but for the branch that is added to.

The agreement has one clause for each place in which a node can be.  A branch that is open stands in
the arena with the children that are complete so far (`frames`), but no parent yet and off the
thread; a child that is complete is held with everything below it (`done`); the node that waits is
there with all but its end and its parent (`loose`); every other node is as it was given (`old`).
The thread is the old one with the links of the draft put in at one place (`thread`), and the next
node goes behind the last of them (`tail`).

Each step of an assembly changes a few nodes, and a draft whose ids are apart says that they are not
the nodes of any other clause; that is why every step starts by asking for `Draft.Apart`.
-/
import StyleLex.Proofs.Tree.Holding
import StyleLex.Proofs.Tree.Thread

namespace StyleLex

/-! ## 1. The steps of an assembly -/

/-- The node, ending at `stop` below a parent. -/
def Node.settle (parent : NodeId) (stop : Position) (node : Node) : Node :=
  { node with span := { node.span with stop := stop }, parent := some parent }

/-- The node as another branch. -/
def Node.become (branch : Branch) (valid : Bool) (node : Node) : Node :=
  { node with kind := .branch branch, valid := valid }

namespace Tree

/-- Ties `id` in below `branch`, and after `tail` on the thread. -/
def tie (tree : Tree) (branch tail id : NodeId) (stop : Position) : Tree :=
  ((tree.modify id fun node => { node with span := { node.span with stop := stop } }).attach
    branch id).linkAfter tail id

@[simp] theorem size_tie (tree : Tree) (branch tail id : NodeId) (stop : Position) :
    (tree.tie branch tail id stop).size = tree.size := by
  simp [tie]

/-- Tying a node in changes it and its parent. -/
theorem body?_tie (tree : Tree) {branch id : NodeId} (h : id ≠ branch) (tail : NodeId)
    (stop : Position) (j : NodeId) :
    (tree.tie branch tail id stop).body? j =
      if id = j then (tree.body? j).map (Node.settle branch stop)
      else if branch = j then (tree.body? j).map (addChild id)
      else tree.body? j := by
  have hbody : ∀ node : Node, Node.body { node with span := { node.span with stop := stop } } =
      { node.body with span := { node.body.span with stop := stop } } := fun _ => rfl
  rw [tie, body?_linkAfter, body?_attach _ h, body?_modify _ _ _ hbody]
  by_cases hid : id = j
  · subst hid
    rw [if_pos rfl, if_pos rfl, if_pos rfl, Option.map_map]
    rfl
  · rw [if_neg hid, if_neg hid, if_neg hid]

/-- Setting an end and attaching leave the links alone, so only the last part of tying in moves any.
-/
theorem next?_untied (tree : Tree) (branch id : NodeId) (stop : Position) (j : NodeId) :
    ((tree.modify id fun node => { node with span := { node.span with stop := stop } }).attach
      branch id).next? j = tree.next? j := by
  rw [next?_attach, next?_modify]
  intro node
  rfl

/-- The same for links backward. -/
theorem previous?_untied (tree : Tree) (branch id : NodeId) (stop : Position) (j : NodeId) :
    ((tree.modify id fun node => { node with span := { node.span with stop := stop } }).attach
      branch id).previous? j = tree.previous? j := by
  rw [previous?_attach, previous?_modify]
  intro node
  rfl

/-- What closes a branch: its kind is settled, and its value if it is a name. -/
def close (tree : Tree) (source : Array UInt8) (id : NodeId) (branch : Branch) (valid : Bool) :
    Tree :=
  (tree.modify id (Node.become branch valid)).evaluate source id

variable {tree : Tree} {source : Array UInt8} {branch : Branch} {valid : Bool} {id j : NodeId}

@[simp] theorem size_close (tree : Tree) (source : Array UInt8) (id : NodeId) (branch : Branch)
    (valid : Bool) : (tree.close source id branch valid).size = tree.size := by
  simp [close]

@[simp] theorem next?_close (tree : Tree) (source : Array UInt8) (id : NodeId) (branch : Branch)
    (valid : Bool) (j : NodeId) :
    (tree.close source id branch valid).next? j = tree.next? j := by
  rw [close, next?_evaluate, next?_modify]
  intro node
  rfl

@[simp] theorem previous?_close (tree : Tree) (source : Array UInt8) (id : NodeId)
    (branch : Branch) (valid : Bool) (j : NodeId) :
    (tree.close source id branch valid).previous? j = tree.previous? j := by
  rw [close, previous?_evaluate, previous?_modify]
  intro node
  rfl

theorem body?_become (tree : Tree) (id : NodeId) (branch : Branch) (valid : Bool) (j : NodeId) :
    (tree.modify id (Node.become branch valid)).body? j =
      if id = j then (tree.body? j).map (Node.become branch valid) else tree.body? j :=
  body?_modify _ _ _ fun _ => rfl

/-- What kind a branch turns out to be does not matter to its children. -/
theorem children_become (tree : Tree) (id : NodeId) (branch : Branch) (valid : Bool)
    (j : NodeId) : (tree.modify id (Node.become branch valid)).children j = tree.children j := by
  rw [children_eq, children_eq, body?_become]
  split
  · cases tree.body? j <;> rfl
  · rfl

/-- The branch itself gets its kind, its flag and, for a name, its value. -/
theorem body?_close_self {node : Node} (h : tree.body? id = some node)
    (hown : id ∉ tree.children id) :
    (tree.close source id branch valid).body? id =
      some { Node.become branch valid node with
        kind := .branch (withValue
          ((tree.modify id (Node.become branch valid)).joinedText source id) branch) } := by
  refine body?_evaluate_self ?_ rfl ?_
  · rw [body?_become, if_pos rfl, h]
    rfl
  · rw [children_become]
    exact hown

/-- Closing a branch looks at its children and at no other node. -/
theorem body?_close_of_notMem (hne : id ≠ j) (h : j ∉ tree.children id) :
    (tree.close source id branch valid).body? j = tree.body? j := by
  rw [close, body?_evaluate_of_notMem hne, body?_become, if_neg hne]
  rw [children_become]
  exact h

/-- A child may have been read for the value of its branch, and then it keeps its text. -/
theorem kept_close (hne : id ≠ j) {node : Node} (h : tree.body? j = some node) :
    ∃ kept, (tree.close source id branch valid).body? j = some kept ∧
      node.Kept source kept := by
  refine kept_evaluate source hne ?_
  rw [body?_become, if_neg hne, h]

end Tree

namespace Assembly

/-- With nothing waiting there is nothing to complete. -/
theorem settle_of_none {assembly : Assembly} (h : assembly.pending = none) (stop : Position) :
    assembly.settle stop = assembly := by
  obtain ⟨tree, tail, branch, outer, pending, attached⟩ := assembly
  cases h
  rfl

/-- What waits is tied in below the innermost branch and becomes the end of what was put on the
thread. -/
theorem settle_of_some {assembly : Assembly} {id : NodeId} (h : assembly.pending = some id)
    (stop : Position) :
    assembly.settle stop =
      { assembly with
        tree := assembly.tree.tie assembly.branch assembly.tail id stop
        tail := id
        pending := none
        attached := assembly.attached + 1 } := by
  obtain ⟨tree, tail, branch, outer, pending, attached⟩ := assembly
  cases h
  rfl

theorem add_eq (assembly : Assembly) (node : Node) :
    assembly.add node = { assembly with tree := assembly.tree.add node } := rfl

theorem complete_eq (assembly : Assembly) (source : Array UInt8) (branch : Branch)
    (valid : Bool) :
    assembly.complete source branch valid =
      { assembly with
        tree := assembly.tree.close source assembly.branch branch valid } := rfl

end Assembly

/-! ## 2. Agreement

A site is where a call adds: the tree as it was given, the branch, and the thread cut in two at the
place where new nodes will stand.  All of that stays fixed during a call, and only the assembly and
its draft move. -/

/-- The node of an open branch, with the children that are complete. -/
def Draft.Frame.node (frame : Draft.Frame) : Node :=
  { frame.origin with
    children := frame.origin.children ++ (frame.done.map (·.label.id)).toArray }

/-- A place in a tree: a branch to add to, and the thread before and behind what is added. -/
structure Site where
  given : Tree
  base : NodeId
  before : List NodeId
  after : List NodeId

/-- The branch is in the tree, and so is the thread. -/
structure Site.Sound (site : Site) : Prop where
  base : site.base < site.given.size
  nodup : (site.before ++ site.after).Nodup
  old : ∀ id ∈ site.before ++ site.after, id < site.given.size

/-- The draft with which an assembly begins. -/
def Draft.into (tree : Tree) (parent : NodeId) (origin : Node) : Draft where
  next := tree.size
  frame := { id := parent, origin := origin }

@[simp] theorem Draft.links_into (tree : Tree) (parent : NodeId) (origin : Node) :
    (Draft.into tree parent origin).links = [] := by
  simp [into, links, frames, frameLinks, loose]

/-- An assembly agrees with a draft at a site: everything that the draft has is in the arena, where
the draft says, and everything else is as it was given. -/
structure Realizes (source : Array UInt8) (site : Site) (assembly : Assembly) (draft : Draft) :
    Prop where
  numbered : draft.Numbered site.base site.given.size
  size : assembly.tree.size = draft.next
  branch : assembly.branch = draft.frame.id
  outer : assembly.outer = draft.outer.map (·.id)
  pending : assembly.pending = draft.pending.map (·.label.id)
  /-- Every branch but the one that is added to was begun by a mark. -/
  fresh : ∀ frame ∈ draft.frames.dropLast,
    ∃ branch start, frame.origin = Draft.opening branch start
  /-- The one that is added to began as it was. -/
  began : ∀ frame, draft.frames.getLast? = some frame →
    site.given.body? site.base = some frame.origin
  frames : ∀ frame ∈ draft.frames, assembly.tree.body? frame.id = some frame.node
  done : ∀ frame ∈ draft.frames, ∀ item ∈ frame.done,
    assembly.tree.Holds source (some frame.id) item
  loose : ∀ item ∈ draft.loose,
    assembly.tree.body? item.label.id = some (item.entry source none) ∧
      ∀ child ∈ item.children, assembly.tree.Holds source (some item.label.id) child
  old : ∀ id < site.given.size, id ≠ site.base →
    assembly.tree.body? id = site.given.body? id
  thread : assembly.tree.Chained none none (site.before ++ draft.links ++ site.after)
  tail : (site.before ++ draft.links).getLast? = some assembly.tail

namespace Realizes

variable {source : Array UInt8} {site : Site} {assembly : Assembly} {draft : Draft}

/-- The ids of an assembly are apart, because they are new. -/
theorem apart (h : Realizes source site assembly draft) (hsite : site.Sound) : draft.Apart :=
  Draft.apart (h.numbered.nodup hsite.base)

/-- Nothing waits in the assembly if nothing does in the draft. -/
theorem loose_of_none (h : Realizes source site assembly draft) (hloose : draft.loose = []) :
    assembly.pending = none := by
  rw [h.pending]
  cases hpending : draft.pending with
  | none => rfl
  | some item => simp [Draft.loose_of_some hpending] at hloose

/-- The nodes of the draft are new, but for the branch that is added to. -/
theorem old_notMem (h : Realizes source site assembly draft) {id : NodeId}
    (hold : id < site.given.size) (hbase : id ≠ site.base) : id ∉ draft.ids := by
  intro hin
  rcases h.numbered.mem_ids.mp hin with rfl | hin
  · exact hbase rfl
  · exact absurd hold (Nat.not_lt_of_le hin.1)

/-- The branch that is added to is open. -/
theorem base_mem (h : Realizes source site assembly draft) :
    ∃ frame ∈ draft.frames, frame.id = site.base :=
  ⟨_, List.getLast_mem (List.cons_ne_nil draft.frame draft.outer), h.numbered.base_eq⟩

/-- The pending child and what is below it are not on the old thread. -/
theorem loose_fresh (h : Realizes source site assembly draft) (hsite : site.Sound) {id : NodeId}
    (hid : id ∈ Item.ids draft.loose) : id ∉ site.before ++ site.after := by
  intro hin
  obtain ⟨frame, hframe, hbase⟩ := h.base_mem
  refine h.old_notMem (hsite.old id hin) ?_ (Draft.loose_subset hid)
  rintro rfl
  exact (h.apart hsite).loose frame hframe (hbase ▸ hid)

/-- What was put on the thread was not in the tree before. -/
theorem fresh_links (h : Realizes source site assembly draft) (hsite : site.Sound) {id : NodeId}
    (hid : id ∈ draft.links) : site.given.size ≤ id ∧ id < assembly.tree.size := by
  have hin : id ∈ draft.ids :=
    draft.ids_perm_links.mem_iff.mpr (List.mem_append_right _ (List.mem_append_left _ hid))
  rcases h.numbered.mem_ids.mp hin with rfl | hin
  · obtain ⟨frame, hframe, hbase⟩ := h.base_mem
    exact absurd (hbase ▸ hid) ((h.apart hsite).unlinked frame hframe)
  · rw [h.size]
    exact hin

/-- No node is on the thread twice. -/
theorem thread_nodup (h : Realizes source site assembly draft) (hsite : site.Sound) :
    (site.before ++ draft.links ++ site.after).Nodup := by
  obtain ⟨hbefore, hafter, hdisjoint⟩ := List.nodup_append'.mp hsite.nodup
  have hold : ∀ id ∈ site.before ++ site.after, id ∉ draft.links := by
    intro id hid hin
    exact absurd (hsite.old id hid) (Nat.not_lt_of_le (h.fresh_links hsite hin).1)
  refine List.nodup_append'.mpr ⟨List.nodup_append'.mpr ⟨hbefore, (h.apart hsite).links, ?_⟩,
    hafter, ?_⟩
  · intro id hid
    exact hold id (List.mem_append_left _ hid)
  · intro id hid hin
    rcases List.mem_append.mp hid with hid | hid
    · exact hdisjoint hid hin
    · exact hold id (List.mem_append_right _ hin) hid

/-- Every node on the thread is in the tree. -/
theorem thread_lt (h : Realizes source site assembly draft) (hsite : site.Sound) {id : NodeId}
    (hid : id ∈ site.before ++ draft.links ++ site.after) : id < assembly.tree.size := by
  have hsize : site.given.size ≤ assembly.tree.size := h.size ▸ h.numbered.1
  have hold : id ∈ site.before ++ site.after → id < assembly.tree.size :=
    fun hin => Nat.lt_of_lt_of_le (hsite.old id hin) hsize
  rcases List.mem_append.mp hid with hid | hid
  · rcases List.mem_append.mp hid with hid | hid
    · exact hold (List.mem_append_left _ hid)
    · exact (h.fresh_links hsite hid).2
  · exact hold (List.mem_append_right _ hid)

/-- A node put behind the last one that was put on the thread stands there. -/
theorem thread_tie (h : Realizes source site assembly draft) (hsite : site.Sound)
    (branch : NodeId) (stop : Position) {id : NodeId} (hid : id < assembly.tree.size)
    (hnew : id ∉ site.before ++ draft.links ++ site.after) :
    (assembly.tree.tie branch assembly.tail id stop).Chained none none
      (site.before ++ (draft.links ++ [id]) ++ site.after) := by
  obtain ⟨front, hfront⟩ := List.getLast?_eq_some_iff.mp h.tail
  have hthread := h.thread
  have hnodup := h.thread_nodup hsite
  have hsize : ∀ j ∈ site.before ++ draft.links ++ site.after, j < assembly.tree.size :=
    fun j => h.thread_lt hsite
  have hlist : site.before ++ draft.links ++ site.after = front ++ assembly.tail :: site.after := by
    rw [hfront]
    simp
  have hlist' : site.before ++ (draft.links ++ [id]) ++ site.after =
      front ++ assembly.tail :: id :: site.after := by
    rw [← List.append_assoc, hfront]
    simp
  rw [hlist] at hthread hnodup hsize hnew
  rw [hlist']
  refine Tree.Chained.linkAfter ?_ hnodup ?_ ?_ hnew
  · refine hthread.congr ?_ ?_
    · intro j _
      exact Tree.previous?_untied _ _ _ _ _
    · intro j _
      exact Tree.next?_untied _ _ _ _ _
  · intro j hj
    simpa using hsize j hj
  · simpa using hid

/-! ## 3. Each step keeps the agreement

There are four steps, as there are four operations of a draft, and taking a mark is completing the
pending child and then one of the other three.  Only `settle` touches the thread, and only `close`
touches texts; the two openings add a node that nothing else names. -/

section Settling

variable {item : Item}

/-- What waits in the draft waits in the assembly. -/
theorem pending_eq (h : Realizes source site assembly draft) (hpending : draft.pending = some item) :
    assembly.pending = some item.label.id := by
  rw [h.pending, hpending]
  rfl

/-- Its id is one of those of the draft. -/
theorem pending_mem_ids (hpending : draft.pending = some item) :
    item.label.id ∈ Item.ids draft.loose := by
  rw [Draft.loose_of_some hpending, Item.ids_singleton]
  exact List.mem_cons_self

/-- The pending child is none of the open branches. -/
theorem pending_ne (h : Realizes source site assembly draft) (hsite : site.Sound)
    (hpending : draft.pending = some item) {frame : Draft.Frame} (hframe : frame ∈ draft.frames) :
    item.label.id ≠ frame.id := by
  intro he
  exact (h.apart hsite).loose frame hframe (he ▸ pending_mem_ids hpending)

/-- Tying in the pending child changes the child and its branch. -/
theorem body?_settle (h : Realizes source site assembly draft) (hsite : site.Sound)
    (hpending : draft.pending = some item) (stop : Position) (j : NodeId) :
    (assembly.settle stop).tree.body? j =
      if item.label.id = j then (assembly.tree.body? j).map (Node.settle draft.frame.id stop)
      else if draft.frame.id = j then (assembly.tree.body? j).map (Tree.addChild item.label.id)
      else assembly.tree.body? j := by
  have hne := h.pending_ne hsite hpending List.mem_cons_self
  rw [Assembly.settle_of_some (h.pending_eq hpending), h.branch]
  exact Tree.body?_tie assembly.tree hne assembly.tail stop j

/-- It changes nothing else. -/
theorem body?_settle_of_ne (h : Realizes source site assembly draft) (hsite : site.Sound)
    (hpending : draft.pending = some item) (stop : Position) {j : NodeId}
    (hitem : item.label.id ≠ j) (hframe : draft.frame.id ≠ j) :
    (assembly.settle stop).tree.body? j = assembly.tree.body? j := by
  rw [h.body?_settle hsite hpending, if_neg hitem, if_neg hframe]

/-- The open branches have the children that are complete now. -/
theorem frames_settle (h : Realizes source site assembly draft) (hsite : site.Sound)
    (hpending : draft.pending = some item) (stop : Position) :
    ∀ frame ∈ (draft.settle stop).frames,
      (assembly.settle stop).tree.body? frame.id = some frame.node := by
  have hinner : draft.frame ∈ draft.frames := List.mem_cons_self
  rw [Draft.frames_settle, Draft.loose_of_some hpending]
  intro frame hframe
  rcases List.mem_cons.mp hframe with rfl | hframe
  · have hself : (assembly.settle stop).tree.body? draft.frame.id =
        some (Tree.addChild item.label.id draft.frame.node) := by
      rw [h.body?_settle hsite hpending, if_neg (h.pending_ne hsite hpending hinner), if_pos rfl,
        h.frames _ hinner]
      rfl
    rw [hself]
    simp [Draft.Frame.node, Tree.addChild]
  · have hin : frame ∈ draft.frames := List.mem_cons_of_mem _ hframe
    rw [h.body?_settle_of_ne hsite hpending stop (h.pending_ne hsite hpending hin)
      ((h.apart hsite).frame_ne hframe)]
    exact h.frames frame hin

/-- Children that were complete stay as they are. -/
theorem holds_settle (h : Realizes source site assembly draft) (hsite : site.Sound)
    (hpending : draft.pending = some item) (stop : Position) {frame : Draft.Frame}
    (hframe : frame ∈ draft.frames) {child : Item} (hchild : child ∈ frame.done) :
    (assembly.settle stop).tree.Holds source (some frame.id) child := by
  have hapart := h.apart hsite
  refine (h.done frame hframe child hchild).of_body?_eq fun j hj => ?_
  have hj : j ∈ Item.ids frame.done := Item.ids_subset hchild hj
  refine h.body?_settle_of_ne hsite hpending stop ?_ ?_
  · rintro rfl
    exact hapart.pending frame hframe _ hj (pending_mem_ids hpending)
  · rintro rfl
    exact hapart.done _ List.mem_cons_self frame hframe hj

/-- The pending child becomes one of them. -/
theorem holds_pending (h : Realizes source site assembly draft) (hsite : site.Sound)
    (hpending : draft.pending = some item) (stop : Position) :
    (assembly.settle stop).tree.Holds source (some draft.frame.id) (Item.endAt stop item) := by
  have hapart := h.apart hsite
  have hin := Draft.mem_loose hpending
  obtain ⟨hitem, hbelow⟩ := h.loose item hin
  refine Tree.holds_iff.mpr ⟨⟨_, ?_, Or.inl rfl⟩, ?_⟩
  · rw [Item.id_endAt, h.body?_settle hsite hpending, if_pos rfl, hitem, Item.entry_endAt]
    rfl
  · rw [Item.children_endAt, Item.id_endAt]
    intro child hchild
    refine (hbelow child hchild).of_body?_eq fun j hj => ?_
    have hj : j ∈ Item.ids item.children := Item.ids_subset hchild hj
    refine h.body?_settle_of_ne hsite hpending stop ?_ ?_
    · rintro rfl
      exact hapart.below item hin hj
    · rintro rfl
      refine hapart.loose _ List.mem_cons_self ?_
      rw [Draft.loose_of_some hpending, Item.ids_singleton]
      exact List.mem_cons_of_mem _ hj

/-- The pending child is put on the thread. -/
theorem thread_settle (h : Realizes source site assembly draft) (hsite : site.Sound)
    (hpending : draft.pending = some item) (stop : Position) :
    (assembly.settle stop).tree.Chained none none
      (site.before ++ (draft.links ++ [item.label.id]) ++ site.after) := by
  have hin := Draft.mem_loose hpending
  have hid := pending_mem_ids hpending
  rw [Assembly.settle_of_some (h.pending_eq hpending)]
  refine h.thread_tie hsite _ _ (Tree.lt_size_of_body? (h.loose item hin).1) ?_
  intro hmem
  rcases List.mem_append.mp hmem with hmem | hmem
  · rcases List.mem_append.mp hmem with hmem | hmem
    · exact h.loose_fresh hsite hid (List.mem_append_left _ hmem)
    · exact (h.apart hsite).last item hin hmem
  · exact h.loose_fresh hsite hid (List.mem_append_right _ hmem)

end Settling

/-- **The pending child is tied in**; nothing else changes but its parent. -/
theorem settle (h : Realizes source site assembly draft) (hsite : site.Sound)
    (stop : Position) : Realizes source site (assembly.settle stop) (draft.settle stop) := by
  cases hpending : draft.pending with
  | none =>
    have hdraft : draft.settle stop = draft := by
      unfold Draft.settle
      rw [hpending]
    have hnone : assembly.pending = none := by
      rw [h.pending, hpending]
      rfl
    rw [hdraft, Assembly.settle_of_none hnone]
    exact h
  | some item =>
    have hlinks := draft.links_settle stop
    rw [Draft.loose_of_some hpending, List.map_singleton] at hlinks
    have hassembly := Assembly.settle_of_some (h.pending_eq hpending) stop
    -- the pending child changes, its branch gets one more child, and the thread one more node; each
    -- of the clauses left open asks whether it speaks of one of these two
    refine
      { numbered := h.numbered.settle stop
        size := by rw [hassembly, Tree.size_tie, h.size, Draft.next_settle]
        branch := by rw [hassembly, h.branch, Draft.id_frame_settle]
        outer := by rw [hassembly, h.outer, Draft.outer_settle]
        pending := by rw [hassembly, Draft.pending_settle]; rfl
        fresh := ?_
        began := ?_
        frames := h.frames_settle hsite hpending stop
        done := ?_
        loose := by simp [Draft.loose_settle]
        old := ?_
        thread := ?_
        tail := ?_ }
    · intro frame hframe
      have horigin := List.mem_map_of_mem (f := (·.origin)) hframe
      rw [List.map_dropLast, Draft.origins_settle, ← List.map_dropLast] at horigin
      obtain ⟨old, hold, horigin⟩ := List.mem_map.mp horigin
      rw [← horigin]
      exact h.fresh old hold
    · intro frame hlast
      have horigin := congrArg (Option.map (·.origin)) hlast
      rw [← List.getLast?_map, Draft.origins_settle, List.getLast?_map, Option.map_some] at horigin
      obtain ⟨old, hold, horigin⟩ := Option.map_eq_some_iff.mp horigin
      rw [← horigin]
      exact h.began old hold
    · rw [Draft.frames_settle, Draft.loose_of_some hpending]
      intro frame hframe child hchild
      rcases List.mem_cons.mp hframe with rfl | hframe
      · rcases List.mem_append.mp hchild with hchild | hchild
        · exact h.holds_settle hsite hpending stop List.mem_cons_self hchild
        · obtain rfl := List.mem_singleton.mp hchild
          exact h.holds_pending hsite hpending stop
      · exact h.holds_settle hsite hpending stop (List.mem_cons_of_mem _ hframe) hchild
    · intro id hold hbase
      have hnew := h.old_notMem hold hbase
      rw [h.body?_settle_of_ne hsite hpending stop, h.old id hold hbase]
      · rintro rfl
        exact hnew (Draft.loose_subset (pending_mem_ids hpending))
      · rintro rfl
        exact hnew (Draft.frame_mem_ids List.mem_cons_self)
    · rw [hlinks]
      exact h.thread_settle hsite hpending stop
    · rw [hlinks, hassembly, ← List.append_assoc, List.getLast?_concat]

/-- A new node does not stand on the thread. -/
theorem thread_add (h : Realizes source site assembly draft) (hsite : site.Sound) (node : Node) :
    (assembly.tree.add node).Chained none none (site.before ++ draft.links ++ site.after) :=
  h.thread.congr (fun _ hid => Tree.previous?_add_of_lt node (h.thread_lt hsite hid))
    fun _ hid => Tree.next?_add_of_lt node (h.thread_lt hsite hid)

/-- Nor does it change what was given. -/
theorem old_add (h : Realizes source site assembly draft) (node : Node) {id : NodeId}
    (hold : id < site.given.size) (hbase : id ≠ site.base) :
    (assembly.tree.add node).body? id = site.given.body? id := by
  obtain ⟨found, hfound⟩ := Tree.exists_node hold
  have hbody := Tree.body?_of_node? hfound
  rw [hbody]
  exact Tree.body?_add_of_some node (by rw [h.old id hold hbase, hbody])

/-- A leaf is a new node, and becomes the pending child. -/
theorem addLeaf (h : Realizes source site assembly draft) (hsite : site.Sound)
    (hloose : draft.loose = []) (leaf : Leaf) (valid : Bool) (start : Position) :
    Realizes source site
      { assembly with
        tree := assembly.tree.add { kind := .leaf leaf, span := Span.point start, valid := valid }
        pending := some assembly.tree.size }
      (draft.addLeaf leaf valid start) := by
  refine
    { numbered := h.numbered.addLeaf hloose leaf valid start
      size := by rw [Tree.size_add, h.size]; rfl
      branch := h.branch
      outer := h.outer
      pending := by rw [h.size]; rfl
      fresh := h.fresh
      began := h.began
      frames := fun frame hframe => Tree.body?_add_of_some _ (h.frames frame hframe)
      done := fun frame hframe item hitem => (h.done frame hframe item hitem).add _
      loose := ?_
      old := fun id hold hbase => h.old_add _ hold hbase
      thread := ?_
      tail := ?_ }
  · intro item hitem
    obtain rfl := List.mem_singleton.mp hitem
    refine ⟨?_, by simp⟩
    rw [Tree.body?_add, Rose.label_node, if_pos h.size.symm]
    rfl
  · rw [Draft.links_addLeaf hloose]
    exact h.thread_add hsite _
  · rw [Draft.links_addLeaf hloose]
    exact h.tail

/-- A branch is a new node, and becomes the innermost branch. -/
theorem openBranch (h : Realizes source site assembly draft) (hsite : site.Sound)
    (hloose : draft.loose = []) (branch : Branch) (start : Position) :
    Realizes source site
      { assembly with
        tree := assembly.tree.add { kind := .branch branch, span := Span.point start }
        branch := assembly.tree.size
        outer := assembly.branch :: assembly.outer }
      (draft.openBranch branch start) := by
  have hframes : (draft.openBranch branch start).frames =
      ⟨draft.next, Draft.opening branch start, []⟩ :: draft.frames := rfl
  refine
    { numbered := h.numbered.openBranch hloose branch start
      size := by rw [Tree.size_add, h.size]; rfl
      branch := h.size
      outer := by rw [h.branch, h.outer]; rfl
      pending := h.loose_of_none hloose
      fresh := ?_
      began := fun frame hlast => h.began frame (by
        rwa [hframes, Draft.frames, List.getLast?_cons_cons] at hlast)
      frames := ?_
      done := ?_
      loose := by intro item hitem; cases hitem
      old := fun id hold hbase => h.old_add _ hold hbase
      thread := ?_
      tail := ?_ }
  · intro frame hframe
    rw [hframes, Draft.frames, List.dropLast_cons_cons] at hframe
    rcases List.mem_cons.mp hframe with rfl | hframe
    · exact ⟨branch, start, rfl⟩
    · exact h.fresh frame hframe
  · intro frame hframe
    rcases List.mem_cons.mp (hframes ▸ hframe) with rfl | hframe
    · rw [Tree.body?_add, if_pos h.size.symm]
      rfl
    · exact Tree.body?_add_of_some _ (h.frames frame hframe)
  · intro frame hframe item hitem
    rcases List.mem_cons.mp (hframes ▸ hframe) with rfl | hframe
    · cases hitem
    · exact (h.done frame hframe item hitem).add _
  · rw [Draft.links_openBranch hloose]
    exact h.thread_add hsite _
  · rw [Draft.links_openBranch hloose]
    exact h.tail

/-- The children of the innermost branch are those that it began with and those that are
complete. -/
theorem children_branch (h : Realizes source site assembly draft) :
    assembly.tree.children assembly.branch =
      draft.frame.origin.children ++ (draft.frame.done.map (·.label.id)).toArray := by
  rw [Tree.children_eq, h.branch, h.frames _ List.mem_cons_self]
  rfl

/-- Closing the innermost branch changes no other node, but for texts that are kept. -/
theorem holds_close (h : Realizes source site assembly draft) (hsite : site.Sound)
    (branch : Branch) (valid : Bool) {frame : Draft.Frame} (hframe : frame ∈ draft.frames)
    {item : Item} (hitem : item ∈ frame.done) :
    (assembly.tree.close source assembly.branch branch valid).Holds source (some frame.id)
      item := by
  refine (h.done frame hframe item hitem).transport fun id hid body hbody => ?_
  refine Tree.kept_close ?_ hbody
  rintro rfl
  rw [h.branch] at hid
  exact (h.apart hsite).done _ List.mem_cons_self frame hframe (Item.ids_subset hitem hid)

/-- A closed branch has the node of its item. -/
theorem body?_close (h : Realizes source site assembly draft) (hsite : site.Sound)
    (branch : Branch) (valid : Bool) (hfresh : ∃ began start,
      draft.frame.origin = Draft.opening began start) :
    (assembly.tree.close source assembly.branch branch valid).body? assembly.branch =
      some ((Draft.closing branch valid draft.frame).entry source none) := by
  obtain ⟨began, start, horigin⟩ := hfresh
  have hframe : draft.frame ∈ draft.frames := List.mem_cons_self
  have hself := h.frames _ hframe
  have hchildren : (assembly.tree.children draft.frame.id).toList =
      draft.frame.done.map (·.label.id) := by
    rw [← h.branch, h.children_branch, horigin]
    simp [Draft.opening]
  have hown : draft.frame.id ∉ assembly.tree.children draft.frame.id := by
    intro hin
    rw [← Array.mem_toList_iff, hchildren] at hin
    obtain ⟨item, hitem, hid⟩ := List.mem_map.mp hin
    exact (h.apart hsite).done _ hframe _ hframe (hid ▸ Item.id_mem_ids hitem)
  have htext : (assembly.tree.modify draft.frame.id
      (Node.become branch valid)).joinedText source draft.frame.id =
        Item.textAll source draft.frame.done := by
    refine Tree.joinedText_eq (by rw [Tree.children_become, hchildren]) fun item hitem =>
      (h.done _ hframe item hitem).of_body?_eq fun id hid => ?_
    rw [Tree.body?_become, if_neg]
    rintro rfl
    exact (h.apart hsite).done _ hframe _ hframe (Item.ids_subset hitem hid)
  rw [h.branch, Tree.body?_close_self hself hown, htext]
  simp [Draft.closing, Item.entry, Item.kind, Node.become, Draft.Frame.node, horigin,
    Draft.opening]

/-- A branch that closes becomes the pending child of the branch around it. -/
theorem closeBranch (h : Realizes source site assembly draft) (hsite : site.Sound)
    (hloose : draft.loose = []) {around : Draft.Frame} {further : List Draft.Frame}
    (houter : draft.outer = around :: further) (branch : Branch) (valid : Bool) :
    Realizes source site
      { assembly with
        tree := assembly.tree.close source assembly.branch branch valid
        branch := around.id
        outer := further.map (·.id)
        pending := some assembly.branch }
      (draft.closeBranch branch valid) := by
  have hdraft := Draft.closeBranch_of_outer houter branch valid
  have hframes : draft.frames = draft.frame :: around :: further := by
    rw [Draft.frames, houter]
  have hfresh : ∃ began start, draft.frame.origin = Draft.opening began start :=
    h.fresh _ (by rw [hframes, List.dropLast_cons_cons]; exact List.mem_cons_self)
  have hbehind : ∀ frame ∈ around :: further, frame ∈ draft.frames := by
    intro frame hframe
    rw [hframes]
    exact List.mem_cons_of_mem _ hframe
  have hapart := h.apart hsite
  -- closing reads the children of the branch, so what has to be shown of every other node of the
  -- draft is that it is none of these children
  have hchildren : ∀ id, id ∉ draft.ids ∨ id ∈ draft.frames.map (·.id) →
      id ∉ assembly.tree.children assembly.branch := by
    obtain ⟨began, start, horigin⟩ := hfresh
    intro id hid hin
    rw [h.children_branch, horigin, ← Array.mem_toList_iff] at hin
    obtain ⟨item, hitem, rfl⟩ := List.mem_map.mp (by simpa [Draft.opening] using hin)
    have hdone := Item.id_mem_ids hitem
    rcases hid with hid | hid
    · exact hid (Draft.done_mem_ids List.mem_cons_self hdone)
    · obtain ⟨frame, hframe, heq⟩ := List.mem_map.mp hid
      exact hapart.done frame hframe _ List.mem_cons_self (heq ▸ hdone)
  refine
    { numbered := h.numbered.closeBranch hloose branch valid
      size := by rw [Tree.size_close, h.size, Draft.next_closeBranch]
      branch := by rw [hdraft]
      outer := by rw [hdraft]
      pending := by rw [hdraft, h.branch]; rfl
      fresh := ?_
      began := fun frame hlast => h.began frame (by
        rw [hframes, List.getLast?_cons_cons]
        rwa [hdraft] at hlast)
      frames := ?_
      done := ?_
      loose := ?_
      old := ?_
      thread := ?_
      tail := by rw [Draft.links_closeBranch hloose]; exact h.tail }
  · rw [hdraft]
    intro frame hframe
    refine h.fresh frame ?_
    rw [hframes, List.dropLast_cons_cons]
    exact List.mem_cons_of_mem _ hframe
  · rw [hdraft]
    intro frame hframe
    have hin := hbehind frame hframe
    have hne : assembly.branch ≠ frame.id := by
      rw [h.branch]
      exact hapart.frame_ne (houter ▸ hframe)
    rw [Tree.body?_close_of_notMem hne (hchildren _ (Or.inr (List.mem_map_of_mem hin))),
      h.frames frame hin]
  · rw [hdraft]
    intro frame hframe item hitem
    exact h.holds_close hsite branch valid (hbehind frame hframe) hitem
  · rw [hdraft]
    intro item hitem
    obtain rfl := List.mem_singleton.mp hitem
    refine ⟨?_, ?_⟩
    · rw [← h.body?_close hsite branch valid hfresh, h.branch]
      rfl
    · intro child hchild
      exact h.holds_close hsite branch valid List.mem_cons_self hchild
  · intro id hold hbase
    have hnew := h.old_notMem hold hbase
    have hne : assembly.branch ≠ id := by
      rintro rfl
      rw [h.branch] at hnew
      exact hnew (Draft.frame_mem_ids List.mem_cons_self)
    rw [Tree.body?_close_of_notMem hne (hchildren id (Or.inl hnew)), h.old id hold hbase]
  · rw [Draft.links_closeBranch hloose]
    exact h.thread.congr (fun _ _ => Tree.previous?_close _ _ _ _ _ _)
      fun _ _ => Tree.next?_close _ _ _ _ _ _

/-- **Taking a mark keeps the agreement.** -/
theorem take (h : Realizes source site assembly draft) (hsite : site.Sound) {mark : Mark}
    (hfits : draft.Fits mark) :
    Realizes source site (assembly.take source mark) (draft.take mark) := by
  cases mark with
  | leaf leaf valid start =>
    have := (h.settle hsite start).addLeaf hsite (Draft.loose_settle start draft) leaf valid start
    simpa [Assembly.take, Assembly.add_eq, Draft.take] using this
  | opened branch start =>
    have := (h.settle hsite start).openBranch hsite (Draft.loose_settle start draft) branch start
    simpa [Assembly.take, Assembly.add_eq, Draft.take] using this
  | closed branch valid stop =>
    cases houter : draft.outer with
    | nil => exact absurd houter hfits
    | cons around further =>
      have hsettled := h.settle hsite stop
      have houter' : (draft.settle stop).outer = around :: further := by
        rw [Draft.outer_settle, houter]
      have hassembly : (assembly.settle stop).outer = around.id :: further.map (·.id) := by
        rw [hsettled.outer, houter']
        rfl
      have := hsettled.closeBranch hsite (Draft.loose_settle stop draft) houter' branch valid
      simpa [Assembly.take, Assembly.complete_eq, hassembly, Draft.take] using this

/-- An assembly that has taken all marks agrees with the draft that has. -/
theorem takeAll (hsite : site.Sound) : ∀ (marks : List Mark) {assembly : Assembly}
    {draft : Draft}, Realizes source site assembly draft → draft.Admits marks →
    Realizes source site (assembly.takeAll source marks) (draft.takeAll marks)
  | [], _, _, h, _ => h
  | mark :: rest, assembly, draft, h, hadmits => by
    have htaken : Realizes source site ((assembly.take source mark).takeAll source rest)
        ((draft.take mark).takeAll rest) :=
      takeAll hsite rest (h.take hsite hadmits.1) hadmits.2
    exact htaken

/-! ## 4. From beginning to end

At the end the branch that was added to is the innermost one again.  It is settled as branches are
when they close, except that a name or a hash is evaluated anew over all its children; then its end
is set.  What is left of the draft is the list of complete children, and this is what a call has
added. -/

/-- An assembly begins in agreement with the empty draft. -/
theorem start {origin : Node}
    (horigin : site.given.body? site.base = some origin)
    (hthread : site.given.Chained none none (site.before ++ site.after))
    (htail : site.before.getLast? = some (site.given.threadAnchor site.base)) :
    Realizes source site (Assembly.into site.given site.base)
      (Draft.into site.given site.base origin) where
  numbered := by
    refine ⟨Nat.le_refl _, ?_⟩
    simp [Draft.into, Draft.ids, Draft.frames, Draft.frameIds, Draft.loose]
  size := rfl
  branch := rfl
  outer := rfl
  pending := rfl
  fresh := by
    intro frame hframe
    cases hframe
  began := by
    intro frame hlast
    cases hlast
    exact horigin
  frames := by
    intro frame hframe
    obtain rfl := List.mem_singleton.mp hframe
    simpa [Assembly.into, Draft.Frame.node, Draft.into] using horigin
  done := by
    intro frame hframe item hitem
    obtain rfl := List.mem_singleton.mp hframe
    cases hitem
  loose := by
    intro item hitem
    cases hitem
  old := fun _ _ _ => rfl
  thread := by simpa [Assembly.into] using hthread
  tail := by simpa [Assembly.into] using htail

end Realizes

/-- What a call leaves behind: the items below the branch that was added to, after the children
that were there, and everything else as it was. -/
structure Grown (source : Array UInt8) (site : Site) (tree : Tree) (items : List Item) :
    Prop where
  size : site.given.size ≤ tree.size
  ids : Item.ids items = List.range' site.given.size (tree.size - site.given.size)
  held : ∀ item ∈ items, tree.Holds source (some site.base) item
  parent : tree.parent? site.base = site.given.parent? site.base
  children : tree.children site.base =
    site.given.children site.base ++ (items.map (·.label.id)).toArray
  old : ∀ id ≠ site.base, ∀ body, site.given.body? id = some body →
    ∃ kept, tree.body? id = some kept ∧ body.Kept source kept
  thread : tree.Chained none none (site.before ++ Item.linked items ++ site.after)

/-- The tree in which a branch was settled, before its end is set: no other node was changed, but
for texts that were kept, and the branch has its place. -/
structure Refreshed (source : Array UInt8) (tree : Tree) (id : NodeId) (tree' : Tree) : Prop where
  size : tree'.size = tree.size
  next : ∀ j, tree'.next? j = tree.next? j
  previous : ∀ j, tree'.previous? j = tree.previous? j
  kept : ∀ j ≠ id, ∀ node, tree.body? j = some node →
    ∃ kept, tree'.body? j = some kept ∧ node.Kept source kept
  self : ∀ node, tree.body? id = some node →
    ∃ node', tree'.body? id = some node' ∧ node'.parent = node.parent ∧
      node'.children = node.children

/-- Evaluating a name refreshes it. -/
theorem refreshed_evaluate (source : Array UInt8) (tree : Tree) (id : NodeId) :
    Refreshed source tree id (tree.evaluate source id) where
  size := Tree.size_evaluate tree source id
  next := Tree.next?_evaluate tree source id
  previous := Tree.previous?_evaluate tree source id
  kept := fun _ hne _ h => Tree.kept_evaluate source (Ne.symm hne) h
  self := fun _ h => Tree.exists_body?_evaluate source h

/-- So does closing a branch. -/
theorem refreshed_close (source : Array UInt8) (tree : Tree) (id : NodeId) (branch : Branch)
    (valid : Bool) : Refreshed source tree id (tree.close source id branch valid) where
  size := Tree.size_close tree source id branch valid
  next := Tree.next?_close tree source id branch valid
  previous := Tree.previous?_close tree source id branch valid
  kept := fun _ hne _ h => Tree.kept_close (Ne.symm hne) h
  self := by
    intro node h
    have hbecome : (tree.modify id (Node.become branch valid)).body? id =
        some (Node.become branch valid node) := by
      rw [Tree.body?_become, if_pos rfl, h]
      rfl
    obtain ⟨node', hnode', hparent, hchildren⟩ := Tree.exists_body?_evaluate source hbecome
    exact ⟨node', hnode', hparent, hchildren⟩

/-- The end of an assembly. -/
theorem Assembly.finish_tree (source : Array UInt8) (assembly : Assembly) (branch : Branch)
    (stop : Position) :
    ∃ tree', Refreshed source (assembly.settle stop).tree (assembly.settle stop).branch tree' ∧
      (assembly.finish source branch stop).tree =
        tree'.modify (assembly.settle stop).branch fun node =>
          { node with span := { node.span with stop := stop } } := by
  cases branch with
  | hash hash =>
    exact ⟨_, refreshed_close source _ _ (.hash hash.settle) hash.settle.isValid, rfl⟩
  | _ => exact ⟨_, refreshed_evaluate source _ _, rfl⟩

/-- Setting where a node ends changes its span and no more. -/
theorem Tree.body?_stop (tree : Tree) (id j : NodeId) (stop : Position) :
    (tree.modify id fun node => { node with span := { node.span with stop := stop } }).body? j =
      if id = j then
        (tree.body? j).map fun node => { node with span := { node.span with stop := stop } }
      else tree.body? j :=
  Tree.body?_modify _ _ _ fun _ => rfl

namespace Realizes

variable {source : Array UInt8} {site : Site} {assembly : Assembly} {draft : Draft}

/-- With no branch open inside it, the innermost branch is the one that is added to. -/
theorem outermost (h : Realizes source site assembly draft) (houter : draft.outer = []) :
    draft.frame.id = site.base ∧ assembly.branch = site.base ∧
      assembly.tree.body? site.base = some draft.frame.node ∧
      site.given.body? site.base = some draft.frame.origin := by
  have hframes : draft.frames = [draft.frame] := by
    rw [Draft.frames, houter]
  have hbase : draft.frame.id = site.base := by
    obtain ⟨frame, hframe, hid⟩ := h.base_mem
    rw [hframes] at hframe
    obtain rfl := List.mem_singleton.mp hframe
    exact hid
  refine ⟨hbase, h.branch.trans hbase, ?_, h.began draft.frame (by simp [hframes])⟩
  rw [← hbase]
  exact h.frames draft.frame (by simp [hframes])

/-- **What an assembly leaves behind is what its draft holds.** -/
theorem finish (h : Realizes source site assembly draft) (hsite : site.Sound)
    (houter : draft.outer = []) (branch : Branch) (stop : Position) :
    Grown source site (assembly.finish source branch stop).tree
      (draft.settle stop).frame.done := by
  obtain ⟨tree', hrefreshed, htree⟩ := assembly.finish_tree source branch stop
  have hs := h.settle hsite stop
  generalize assembly.settle stop = settled at *
  generalize hd : draft.settle stop = d at *
  have hframes : d.frames = [d.frame] := by
    rw [Draft.frames, ← hd, Draft.outer_settle, houter]
  have hloose : d.loose = [] := by
    rw [← hd]
    exact Draft.loose_settle stop draft
  obtain ⟨hbase, hbranch, hself, horigin⟩ := hs.outermost (by rw [← hd, Draft.outer_settle, houter])
  have hbody := fun j => tree'.body?_stop settled.branch j stop
  obtain ⟨base, hbase', hparent, hchildren⟩ := hrefreshed.self _ (hbranch ▸ hself)
  have hkept : ∀ j ≠ site.base, ∀ node, settled.tree.body? j = some node →
      ∃ kept, (assembly.finish source branch stop).tree.body? j = some kept ∧
        node.Kept source kept := by
    intro j hne node hnode
    rw [htree, hbody, if_neg (by rw [hbranch]; exact Ne.symm hne)]
    exact hrefreshed.kept j (by rw [hbranch]; exact hne) node hnode
  have hlinks : d.links = Item.linked d.frame.done := by
    simp [Draft.links, hframes, Draft.frameLinks, hloose]
  -- from here on the draft is gone: its only branch is the one that was added to, and nothing waits
  refine
    { size := ?_
      ids := ?_
      held := ?_
      parent := ?_
      children := ?_
      old := ?_
      thread := ?_ }
  · rw [htree, Tree.size_modify, hrefreshed.size, hs.size]
    exact hs.numbered.1
  · have hids := hs.numbered.2
    rw [Draft.ids, hframes, hloose] at hids
    simp only [Draft.frameIds, List.nil_append, Item.ids_nil, List.append_nil,
      List.cons.injEq] at hids
    rw [hids.2, htree, Tree.size_modify, hrefreshed.size, hs.size]
  · intro item hitem
    have hin : d.frame ∈ d.frames := by simp [hframes]
    rw [← hbase]
    refine (hs.done d.frame hin item hitem).transport fun id hid node hnode => ?_
    refine hkept id ?_ node hnode
    rintro rfl
    exact (hs.apart hsite).done d.frame hin d.frame hin (hbase ▸ Item.ids_subset hitem hid)
  · rw [Tree.parent?_eq, Tree.parent?_eq, horigin, htree, hbody, if_pos hbranch, ← hbranch, hbase']
    exact hparent
  · rw [Tree.children_eq, Tree.children_eq, horigin, htree, hbody, if_pos hbranch, ← hbranch,
      hbase']
    exact hchildren
  · intro id hne body hold
    refine hkept id hne body ?_
    rw [hs.old id (Tree.lt_size_of_body? hold) hne, hold]
  · rw [← hlinks]
    refine hs.thread.congr ?_ ?_
    · intro j _
      rw [htree, Tree.previous?_modify _ _ _ (by intro node; rfl), hrefreshed.previous]
    · intro j _
      rw [htree, Tree.next?_modify _ _ _ (by intro node; rfl), hrefreshed.next]

end Realizes

namespace Grown

variable {source : Array UInt8} {site : Site} {tree : Tree} {items : List Item}

/-- The nodes of the items are those that were not there before. -/
theorem mem_ids (h : Grown source site tree items) {id : NodeId} :
    id ∈ Item.ids items ↔ site.given.size ≤ id ∧ id < tree.size := by
  rw [h.ids, List.mem_range'_1, Nat.add_sub_cancel' h.size]

/-- What was in the tree before has the parent that it had. -/
theorem parent?_old (h : Grown source site tree items) {id : NodeId}
    (hid : id < site.given.size) : tree.parent? id = site.given.parent? id := by
  by_cases hbase : id = site.base
  · rw [hbase, h.parent]
  · obtain ⟨node, hnode⟩ := Tree.exists_node hid
    have hbody := Tree.body?_of_node? hnode
    obtain ⟨kept, hkept, hstep⟩ := h.old id hbase _ hbody
    rw [Tree.parent?_eq, Tree.parent?_eq, hkept, hbody]
    rcases hstep with rfl | rfl <;> rfl

/-- And the children, but for the branch that was added to. -/
theorem children_old (h : Grown source site tree items) {id : NodeId}
    (hid : id < site.given.size) (hbase : id ≠ site.base) :
    tree.children id = site.given.children id := by
  obtain ⟨node, hnode⟩ := Tree.exists_node hid
  have hbody := Tree.body?_of_node? hnode
  obtain ⟨kept, hkept, hstep⟩ := h.old id hbase _ hbody
  rw [Tree.children_eq, Tree.children_eq, hkept, hbody]
  rcases hstep with rfl | rfl <;> rfl

end Grown
end StyleLex
