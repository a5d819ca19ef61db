/-
# Access that checks itself

The operations of the project are total: a node that is not there has no children, a change of it
changes nothing, and a walk that does not end is cut off.  A program that indexes an array has no
such answers; it stops.  Here and in the modules that follow, every operation has a guarded form,
which makes the accesses that the program makes, and stops at the first that is out of place, with
the `Breach` it found.

This module is about the arena: one access (`fetch`, `change`), and the two operations that tie a
node in.  Each has its answer if the ids it is given are those of nodes.  What keeps that so is
that the nodes of a tree name nodes of the tree only (`Tree.Closed`).

A guarded operation does not decide anything: it makes the same accesses in the same order as the
plain one, and where they all succeed it has the same result.  So the lemma about it is always an
equation, `guarded = .ok plain`, under what makes the accesses succeed, and composing two operations
is rewriting with two equations (`Guarded.ok_bind`).
-/
import StyleLex.Proofs.Tree.Growth

namespace StyleLex

/-! ## 1. Breaches

The breaches are the ways in which an operation of the program could stop it.  Loops over lists are
treated once here; with an invariant, if a turn needs something of what the turns before have left.
-/

/-- What must not happen. -/
inductive Breach where
  /-- A node is asked for that is not there. -/
  | node (id : NodeId)
  /-- The piece from `start` to `stop` is cut out of a sequence that is no longer than `length`. -/
  | slice (start stop length : Nat)
  /-- A span is made that ends before it begins. -/
  | span (start stop : Position)
  /-- The closer is asked for of a byte that opens nothing. -/
  | opener (b : UInt8)
  /-- The table of a context is asked for with what is not one context. -/
  | context (set : ContextSet)
  /-- More is taken away than is there. -/
  | difference (a b : Nat)
  /-- A loop goes on for longer than there is anything to go through. -/
  | endless
  deriving DecidableEq, Repr

/-- What a computation gives, unless a breach stopped it. -/
abbrev Guarded (α : Type) : Type := Except Breach α

namespace Guarded

/-- What has an answer goes on with it. -/
@[simp] theorem ok_bind {α β : Type} (a : α) (f : α → Guarded β) :
    ((Except.ok a : Guarded α) >>= f) = f a := rfl

/-- A loop whose turns all have an answer has one, where an invariant says that they do. -/
theorem foldlM_ok {α β : Type} {P : β → Prop} {guarded : β → α → Guarded β} {plain : β → α → β}
    (items : List α) (b : β) (hb : P b)
    (h : ∀ b, P b → ∀ a ∈ items, guarded b a = .ok (plain b a) ∧ P (plain b a)) :
    items.foldlM guarded b = .ok (items.foldl plain b) ∧ P (items.foldl plain b) := by
  induction items generalizing b with
  | nil => exact ⟨rfl, hb⟩
  | cons a rest ih =>
    obtain ⟨hturn, hkept⟩ := h b hb a List.mem_cons_self
    rw [List.foldlM_cons, hturn, ok_bind, List.foldl_cons]
    exact ih _ hkept fun b hb a ha => h b hb a (List.mem_cons_of_mem _ ha)

/-- The same without an invariant. -/
theorem foldlM_eq {α β : Type} {guarded : β → α → Guarded β} {plain : β → α → β} {items : List α}
    (h : ∀ b, ∀ a ∈ items, guarded b a = .ok (plain b a)) (b : β) :
    items.foldlM guarded b = .ok (items.foldl plain b) :=
  (foldlM_ok (P := fun _ => True) items b trivial fun b _ a ha => ⟨h b a ha, trivial⟩).1

/-- The same for a list of answers. -/
theorem mapM_eq {α β : Type} {guarded : α → Guarded β} {plain : α → β} {items : List α}
    (h : ∀ a ∈ items, guarded a = .ok (plain a)) : items.mapM guarded = .ok (items.map plain) := by
  induction items with
  | nil => rfl
  | cons a rest ih =>
    have hrest := ih fun b hb => h b (List.mem_cons_of_mem _ hb)
    rw [List.mapM_cons, h a List.mem_cons_self, ok_bind, hrest]
    rfl

/-- The items for which a question is answered with yes. -/
def select {α : Type} (question : α → Guarded Bool) : List α → Guarded (List α)
  | [] => pure []
  | a :: rest => do
    let holds ← question a
    let others ← select question rest
    pure (if holds then a :: others else others)

/-- If every question has an answer, selecting is filtering. -/
theorem select_eq {α : Type} {question : α → Guarded Bool} {plain : α → Bool} {items : List α}
    (h : ∀ a ∈ items, question a = .ok (plain a)) :
    select question items = .ok (items.filter plain) := by
  induction items with
  | nil => rfl
  | cons a rest ih =>
    have hrest := ih fun b hb => h b (List.mem_cons_of_mem _ hb)
    rw [select, h a List.mem_cons_self, ok_bind, hrest, ok_bind, List.filter_cons]
    rfl

/-! ## 2. One access

The two accesses that everything else is made of: to read a node, and to change one. -/

/-- The node with an id. -/
def fetch (tree : Tree) (id : NodeId) : Guarded Node :=
  match tree.node? id with
  | some node => .ok node
  | none => .error (.node id)

/-- Changes one node. -/
def change (tree : Tree) (id : NodeId) (f : Node → Node) : Guarded Tree :=
  if id < tree.size then .ok (tree.modify id f) else .error (.node id)

/-- A node that is there is found. -/
theorem fetch_eq {tree : Tree} {id : NodeId} {node : Node} (h : tree.node? id = some node) :
    fetch tree id = .ok node := by
  rw [fetch, h]

/-- So it can be changed. -/
theorem change_eq {tree : Tree} {id : NodeId} (h : id < tree.size) (f : Node → Node) :
    change tree id f = .ok (tree.modify id f) :=
  if_pos h

/-- In a tree of nothing but a root, the second node is not there. -/
example : fetch (Tree.new none Position.origin) 1 = .error (.node 1) := rfl

/-- All of several nodes are found if each is there. -/
theorem fetchAll_eq {tree : Tree} {ids : List NodeId} (h : ∀ id ∈ ids, id < tree.size) :
    ids.mapM (fetch tree) = .ok (ids.filterMap tree.node?) := by
  induction ids with
  | nil => rfl
  | cons id rest ih =>
    obtain ⟨node, hnode⟩ := Tree.exists_node (h id List.mem_cons_self)
    have hrest := ih fun j hj => h j (List.mem_cons_of_mem id hj)
    rw [List.mapM_cons, fetch_eq hnode, ok_bind, hrest, List.filterMap_cons_some hnode]
    rfl

/-! ## 3. Tying in

Attaching and linking touch up to three nodes each.  The third one, behind the anchor on the thread,
is known from the anchor only, so it has to be a node as well. -/

/-- Makes a node the last child of another. -/
def attach (tree : Tree) (parent child : NodeId) : Guarded Tree := do
  let placed ← change tree child fun node => { node with parent := some parent }
  change placed parent (Tree.addChild child)

/-- Puts a node on the thread, behind an anchor. -/
def linkAfter (tree : Tree) (anchor id : NodeId) : Guarded Tree := do
  let before ← fetch tree anchor
  let new ← change tree id fun node =>
    { node with previous := some anchor, next := before.next }
  let linked ← change new anchor fun node => { node with next := some id }
  match before.next with
  | some further => change linked further fun node => { node with previous := some id }
  | none => pure linked

/-- The node behind which the next child of a branch is put on the thread. -/
def threadAnchor (tree : Tree) (parent : NodeId) : Guarded NodeId := do
  let node ← fetch tree parent
  pure <|
    match node.children.back? with
    | some last => last
    | none => if parent = Tree.root then parent else node.previous.getD parent

variable {tree : Tree}

/-- A node is attached if both nodes are there. -/
theorem attach_eq {parent child : NodeId} (hparent : parent < tree.size)
    (hchild : child < tree.size) : attach tree parent child = .ok (tree.attach parent child) := by
  rw [attach, change_eq hchild, ok_bind, change_eq (by simpa using hparent)]
  rfl

/-- A node is put on the thread if what stands behind the anchor is there. -/
theorem linkAfter_eq {anchor id : NodeId} (hanchor : anchor < tree.size) (hid : id < tree.size)
    (hfurther : ∀ further, tree.next? anchor = some further → further < tree.size) :
    linkAfter tree anchor id = .ok (tree.linkAfter anchor id) := by
  obtain ⟨node, hnode⟩ := Tree.exists_node hanchor
  have hnext : tree.next? anchor = node.next := by rw [Tree.next?, hnode]; rfl
  rw [linkAfter, fetch_eq hnode, ok_bind, change_eq hid, ok_bind,
    change_eq (by simpa using hanchor), ok_bind]
  cases hfollowing : node.next with
  | none =>
    rw [Tree.linkAfter_of_none (hnext.trans hfollowing)]
    rfl
  | some further =>
    have hsize := hfurther further (hnext.trans hfollowing)
    rw [Tree.linkAfter_of_some (hnext.trans hfollowing)]
    exact change_eq (by simpa using hsize) _

/-- Tying in is attaching and linking. -/
def tie (tree : Tree) (branch tail id : NodeId) (stop : Position) : Guarded Tree := do
  let ended ← change tree id fun node => { node with span := { node.span with stop := stop } }
  let attached ← attach ended branch id
  linkAfter attached tail id

/-- So a node is tied in if all that is touched is there. -/
theorem tie_eq {branch tail id : NodeId} (hbranch : branch < tree.size) (htail : tail < tree.size)
    (hid : id < tree.size)
    (hfurther : ∀ further, tree.next? tail = some further → further < tree.size)
    (stop : Position) : tie tree branch tail id stop = .ok (tree.tie branch tail id stop) := by
  rw [tie, change_eq hid, ok_bind, attach_eq (by simpa using hbranch) (by simpa using hid), ok_bind,
    linkAfter_eq (by simpa using htail) (by simpa using hid)]
  · rfl
  · intro further hnext
    rw [Tree.next?_untied] at hnext
    simpa using hfurther further hnext

/-- A branch that is there has an anchor. -/
theorem threadAnchor_eq {parent : NodeId} (h : parent < tree.size) :
    threadAnchor tree parent = .ok (tree.threadAnchor parent) := by
  obtain ⟨node, hnode⟩ := Tree.exists_node h
  rw [threadAnchor, fetch_eq hnode, ok_bind, Tree.threadAnchor, Tree.children, hnode]
  rfl

end Guarded

/-! ## 4. Closed trees

The condition under which whatever a node names can be fetched.  Each operation on trees keeps it;
the first two are the general ones, and the others are made of them. -/

/-- The ids that a node names lie below `n`. -/
structure Node.Names (n : Nat) (node : Node) : Prop where
  parent : ∀ id, node.parent = some id → id < n
  previous : ∀ id, node.previous = some id → id < n
  next : ∀ id, node.next = some id → id < n
  children : ∀ id ∈ node.children, id < n

/-- In a larger tree more may be named. -/
theorem Node.Names.mono {n m : Nat} {node : Node} (h : node.Names n) (hle : n ≤ m) :
    node.Names m where
  parent := fun id hid => Nat.lt_of_lt_of_le (h.parent id hid) hle
  previous := fun id hid => Nat.lt_of_lt_of_le (h.previous id hid) hle
  next := fun id hid => Nat.lt_of_lt_of_le (h.next id hid) hle
  children := fun id hid => Nat.lt_of_lt_of_le (h.children id hid) hle

/-- The nodes of a tree name nodes of the tree. -/
def Tree.Closed (tree : Tree) : Prop := ∀ id node, tree.node? id = some node → node.Names tree.size

namespace Tree.Closed

variable {tree : Tree}

/-- A change that names nodes of the tree keeps it closed. -/
theorem modify (h : tree.Closed) (id : NodeId) {change : Node → Node}
    (hchange : ∀ node : Node, node.Names tree.size → (change node).Names tree.size) :
    (tree.modify id change).Closed := by
  intro j node hnode
  rw [size_modify]
  rw [node?_modify] at hnode
  split at hnode
  · obtain ⟨before, hbefore, rfl⟩ := Option.map_eq_some_iff.mp hnode
    exact hchange before (h j before hbefore)
  · exact h j node hnode

/-- A node may be added that names nodes of the tree. -/
theorem add (h : tree.Closed) {node : Node} (hnode : node.Names tree.size) :
    (tree.add node).Closed := by
  intro j other hother
  rw [size_add]
  rw [node?_add] at hother
  split at hother
  · cases hother
    exact hnode.mono (Nat.le_succ _)
  · exact (h j other hother).mono (Nat.le_succ _)

/-- What stands behind a node on the thread is a node. -/
theorem next_lt (h : tree.Closed) {id further : NodeId} (hnext : tree.next? id = some further) :
    further < tree.size := by
  obtain ⟨node, hnode, hlink⟩ := Option.bind_eq_some_iff.mp hnext
  exact (h id node hnode).next further hlink

/-- A child is a node. -/
theorem children_lt (h : tree.Closed) {parent id : NodeId} (hin : id ∈ tree.children parent) :
    id < tree.size := by
  unfold Tree.children at hin
  cases hnode : tree.node? parent with
  | none => simp [hnode] at hin
  | some node =>
    rw [hnode] at hin
    exact (h parent node hnode).children id hin

/-- Attaching one node to another keeps the tree closed. -/
theorem attach (h : tree.Closed) {parent child : NodeId} (hparent : parent < tree.size)
    (hchild : child < tree.size) : (tree.attach parent child).Closed := by
  have hplaced : (tree.modify child fun node => { node with parent := some parent }).Closed := by
    refine h.modify child fun node hnode => ⟨?_, hnode.previous, hnode.next, hnode.children⟩
    rintro id ⟨⟩
    exact hparent
  refine hplaced.modify parent fun node hnode =>
    ⟨hnode.parent, hnode.previous, hnode.next, ?_⟩
  intro id hid
  rcases Array.mem_push.mp hid with hid | rfl
  · exact hnode.children id hid
  · simpa using hchild

/-- So does putting it on the thread. -/
theorem linkAfter (h : tree.Closed) {anchor id : NodeId} (hanchor : anchor < tree.size)
    (hid : id < tree.size) : (tree.linkAfter anchor id).Closed := by
  have hsplice : ∀ following : Option NodeId, (∀ further, following = some further →
      further < tree.size) → (tree.splice anchor id following).Closed := by
    intro following hfollowing
    have hnew : (tree.modify id fun node =>
        { node with previous := some anchor, next := following }).Closed := by
      refine h.modify id fun node hnode => ⟨hnode.parent, ?_, hfollowing, hnode.children⟩
      rintro other ⟨⟩
      exact hanchor
    refine hnew.modify anchor fun node hnode =>
      ⟨hnode.parent, hnode.previous, ?_, hnode.children⟩
    rintro other ⟨⟩
    simpa using hid
  cases hnext : tree.next? anchor with
  | none =>
    rw [linkAfter_of_none hnext]
    exact hsplice none (by simp)
  | some further =>
    rw [linkAfter_of_some hnext]
    refine (hsplice _ fun _ he => h.next_lt (hnext.trans he)).modify further fun node hnode =>
      ⟨hnode.parent, ?_, hnode.next, hnode.children⟩
    rintro other ⟨⟩
    simpa [splice] using hid

/-- Where a child of a branch is put on the thread, there is a node. -/
theorem threadAnchor_lt (h : tree.Closed) {parent : NodeId} (hparent : parent < tree.size) :
    tree.threadAnchor parent < tree.size := by
  obtain ⟨node, hnode⟩ := exists_node hparent
  unfold threadAnchor
  split
  · rename_i last hlast
    exact h.children_lt (Array.mem_of_back? hlast)
  · split
    · exact hparent
    · rw [hnode, Option.bind_some]
      cases hprevious : node.previous with
      | none => exact hparent
      | some before => exact (h parent node hnode).previous before hprevious

/-- Keeping a text names nothing. -/
theorem remember (h : tree.Closed) (source : Array UInt8) (id : NodeId) :
    (tree.remember source id).Closed := by
  refine h.modify id fun node hnode => ?_
  split
  · exact ⟨hnode.parent, hnode.previous, hnode.next, hnode.children⟩
  · exact hnode

/-- Nor does keeping several. -/
theorem rememberAll (h : tree.Closed) (source : Array UInt8) (ids : Array NodeId) :
    (tree.rememberAll source ids).Closed := by
  unfold Tree.rememberAll
  refine Array.foldl_induction (motive := fun _ (t : Tree) => t.Closed) h ?_
  intro i t ih
  exact ih.remember source ids[i]

/-- Nor does a value. -/
theorem evaluate (h : tree.Closed) (source : Array UInt8) (id : NodeId) :
    (tree.evaluate source id).Closed := by
  cases hname : tree.isName id with
  | false =>
    rw [evaluate_of_not_isName hname]
    exact h
  | true =>
    rw [evaluate_of_isName hname]
    refine (h.rememberAll source _).modify id fun node hnode => ?_
    unfold named
    split
    · exact ⟨hnode.parent, hnode.previous, hnode.next, hnode.children⟩
    · exact hnode

theorem tie (h : tree.Closed) {branch tail id : NodeId} (hbranch : branch < tree.size)
    (htail : tail < tree.size) (hid : id < tree.size) (stop : Position) :
    (tree.tie branch tail id stop).Closed := by
  have hended : (tree.modify id fun node =>
      { node with span := { node.span with stop := stop } }).Closed :=
    h.modify id fun _ hnode => ⟨hnode.parent, hnode.previous, hnode.next, hnode.children⟩
  exact (hended.attach (by simpa using hbranch) (by simpa using hid)).linkAfter
    (by simpa using htail) (by simpa using hid)

/-- Closing a branch names nothing either. -/
theorem close (h : tree.Closed) (source : Array UInt8) (id : NodeId) (branch : Branch)
    (valid : Bool) : (tree.close source id branch valid).Closed := by
  have hmarked : (tree.modify id (Node.become branch valid)).Closed :=
    h.modify id fun _ hnode => ⟨hnode.parent, hnode.previous, hnode.next, hnode.children⟩
  exact hmarked.evaluate source id

end Tree.Closed
end StyleLex
