/-
# Drafts

A draft is what an assembly has built, with no arena: the open branches, each with its complete
children as rose trees, and the child that is complete but for its end.  It takes the same marks.
Statements about what a scan reads are made of drafts, where a node with everything below it is
one value, an `Item`; `StyleLex.Proofs.Tree.Growth` carries them to trees.

The ids of a draft, read from the outside in, are consecutive (`Numbered`), for a node gets its
id when it begins.

While an assembly works, its arena is in a state that no outline describes: open branches are in the
arena but tied to nothing, and so is the node that was completed last, whose end is not known before
the next mark.  A draft has a place for each of these, and so it says at every moment what the arena
holds and how: `frames` are the open branches, `done` what is complete below each, `loose` the node
that waits.

Two lists describe a draft as an arena sees it.  `ids` are all its nodes in the order in which they
began, `links` those that are on the thread, in its order.  Each operation adds to the end of these
lists or leaves them alone; that is the whole reason why ids are consecutive and why the thread is a
postorder.
-/
import Mathlib.Data.List.Nodup
import StyleLex.Proofs.Rose
import StyleLex.Tree.Assembly

namespace StyleLex

/-! ## 1. Items -/

/-- What the marks say of one node. -/
structure Label where
  id : NodeId
  kind : Kind
  valid : Bool
  span : Span

/-- A node with everything below it. -/
abbrev Item := Rose Label

namespace Item

/-- The item, ending at `stop`. -/
def endAt (stop : Position) : Item → Item
  | .node label below => .node { label with span := { label.span with stop := stop } } below

/-- The ids of some items. -/
def ids (items : List Item) : List NodeId := (Rose.preorderAll items).map Label.id

/-- The ids of some items in the order in which they are put on the thread. -/
def linked (items : List Item) : List NodeId := (Rose.postorderAll items).map Label.id

@[simp] theorem endAt_node (stop : Position) (label : Label) (below : List Item) :
    endAt stop (.node label below) =
      .node { label with span := { label.span with stop := stop } } below := rfl

@[simp] theorem id_endAt (stop : Position) (item : Item) :
    (endAt stop item).label.id = item.label.id := by
  cases item
  rfl

@[simp] theorem kind_label_endAt (stop : Position) (item : Item) :
    (endAt stop item).label.kind = item.label.kind := by
  cases item
  rfl

@[simp] theorem children_endAt (stop : Position) (item : Item) :
    (endAt stop item).children = item.children := by
  cases item
  rfl

@[simp] theorem ids_nil : ids [] = [] := rfl

@[simp] theorem ids_append (a b : List Item) : ids (a ++ b) = ids a ++ ids b := by
  simp [ids]

@[simp] theorem linked_nil : linked [] = [] := by
  simp [linked]

@[simp] theorem linked_append (a b : List Item) : linked (a ++ b) = linked a ++ linked b := by
  simp [linked]

/-- Read one by one, an item comes before everything below it. -/
theorem ids_singleton (item : Item) : ids [item] = item.label.id :: ids item.children := by
  cases item
  simp [ids]

/-- On the thread, it comes after everything below it. -/
theorem linked_singleton (item : Item) :
    linked [item] = linked item.children ++ [item.label.id] := by
  cases item
  simp [linked]

theorem linked_perm (items : List Item) : (linked items).Perm (ids items) :=
  (Rose.postorderAll_perm items).map Label.id

/-- The ids inside an item are those of the items inside it. -/
theorem mem_ids {id : NodeId} {items : List Item} :
    id ∈ ids items ↔ ∃ sub ∈ Rose.subtreesAll items, sub.label.id = id := by
  simp [ids, Rose.preorderAll]

theorem id_mem_ids {item : Item} {items : List Item} (h : item ∈ items) :
    item.label.id ∈ ids items :=
  mem_ids.mpr ⟨item, Rose.mem_subtreesAll.mpr ⟨item, h, Rose.mem_subtrees_self item⟩, rfl⟩

theorem ids_subset {item : Item} {items : List Item} (h : item ∈ items) :
    ids [item] ⊆ ids items := by
  intro id hid
  obtain ⟨sub, hsub, rfl⟩ := mem_ids.mp hid
  rw [Rose.subtreesAll_cons, Rose.subtreesAll_nil, List.append_nil] at hsub
  exact mem_ids.mpr ⟨sub, Rose.mem_subtreesAll.mpr ⟨item, h, hsub⟩, rfl⟩

end Item

/-! ## 2. Drafts

A mark first completes the node that waits, which ends where the mark stands, and then does what it
says: a leaf waits, a branch opens, or the innermost branch closes and waits in its turn. -/

/-- Where a mark stands.  The child before it ends there. -/
def Mark.place : Mark → Position
  | .leaf _ _ start => start
  | .opened _ start => start
  | .closed _ _ stop => stop

/-- An open branch, the node that it began as, and its complete children. -/
structure Draft.Frame where
  id : NodeId
  origin : Node
  done : List Item := []

structure Draft where
  /-- The id of the next node. -/
  next : Nat
  /-- The innermost branch. -/
  frame : Draft.Frame
  /-- The branches around it, from the inside out. -/
  outer : List Draft.Frame := []
  /-- A child of the innermost branch that is complete but for its end. -/
  pending : Option Item := none

namespace Draft

/-- The node with which a branch begins. -/
def opening (branch : Branch) (start : Position) : Node :=
  { kind := .branch branch, span := Span.point start }

/-- Completes the pending child; it ends at `stop`. -/
def settle (stop : Position) (draft : Draft) : Draft :=
  match draft.pending with
  | some item =>
    { draft with
      frame := { draft.frame with done := draft.frame.done ++ [Item.endAt stop item] }
      pending := none }
  | none => draft

/-- Takes a leaf. -/
def addLeaf (leaf : Leaf) (valid : Bool) (start : Position) (draft : Draft) : Draft :=
  { draft with
    next := draft.next + 1
    pending := some (.node ⟨draft.next, .leaf leaf, valid, Span.point start⟩ []) }

/-- Goes inside a new branch. -/
def openBranch (branch : Branch) (start : Position) (draft : Draft) : Draft where
  next := draft.next + 1
  frame := { id := draft.next, origin := opening branch start }
  outer := draft.frame :: draft.outer

/-- The innermost branch as an item, complete but for its end. -/
def closing (branch : Branch) (valid : Bool) (frame : Frame) : Item :=
  .node ⟨frame.id, .branch branch, valid, frame.origin.span⟩ frame.done

/-- Goes back to the branch around the innermost one. -/
def closeBranch (branch : Branch) (valid : Bool) (draft : Draft) : Draft :=
  match draft.outer with
  | around :: further =>
    { draft with
      frame := around
      outer := further
      pending := some (closing branch valid draft.frame) }
  | [] => draft

/-- Takes one mark. -/
def take (draft : Draft) : Mark → Draft
  | .leaf leaf valid start => (draft.settle start).addLeaf leaf valid start
  | .opened branch start => (draft.settle start).openBranch branch start
  | .closed branch valid stop => (draft.settle stop).closeBranch branch valid

/-- Takes all marks of a scan, the oldest first. -/
def takeAll (draft : Draft) (marks : List Mark) : Draft := marks.foldl take draft

/-- The last mark of a list is taken last. -/
theorem takeAll_concat (draft : Draft) (marks : List Mark) (mark : Mark) :
    draft.takeAll (marks ++ [mark]) = (draft.takeAll marks).take mark := by
  simp [takeAll]

@[simp] theorem takeAll_nil (draft : Draft) : draft.takeAll [] = draft := rfl

@[simp] theorem takeAll_cons (draft : Draft) (mark : Mark) (marks : List Mark) :
    draft.takeAll (mark :: marks) = (draft.take mark).takeAll marks := rfl

/-- A mark that closes a branch finds one around it. -/
def Fits (draft : Draft) : Mark → Prop
  | .closed _ _ _ => draft.outer ≠ []
  | _ => True

/-- No mark closes the branch in which the draft was started. -/
def Admits (draft : Draft) : List Mark → Prop
  | [] => True
  | mark :: rest => draft.Fits mark ∧ (draft.take mark).Admits rest

/-- Whether marks can be taken is decided mark by mark, each with what was taken before. -/
theorem admits_concat : ∀ (draft : Draft) (marks : List Mark) (mark : Mark),
    draft.Admits (marks ++ [mark]) ↔ draft.Admits marks ∧ (draft.takeAll marks).Fits mark
  | draft, [], mark => by simp [Admits]
  | draft, first :: rest, mark => by
    rw [List.cons_append, Admits, Admits, admits_concat _ rest, takeAll_cons, and_assoc]

/-- All open branches, from the inside out. -/
def frames (draft : Draft) : List Frame := draft.frame :: draft.outer

/-- The pending child, as a list. -/
def loose (draft : Draft) : List Item := draft.pending.toList

theorem loose_of_none {draft : Draft} (h : draft.pending = none) : draft.loose = [] := by
  simp [loose, h]

theorem loose_of_some {draft : Draft} {item : Item} (h : draft.pending = some item) :
    draft.loose = [item] := by
  simp [loose, h]

theorem mem_loose {draft : Draft} {item : Item} (h : draft.pending = some item) :
    item ∈ draft.loose := by
  rw [loose_of_some h]
  exact List.mem_singleton_self item

@[simp] theorem pending_settle (stop : Position) (draft : Draft) :
    (draft.settle stop).pending = none := by
  unfold settle
  split
  · rfl
  · assumption

@[simp] theorem next_settle (stop : Position) (draft : Draft) :
    (draft.settle stop).next = draft.next := by
  unfold settle
  split <;> rfl

@[simp] theorem next_addLeaf (leaf : Leaf) (valid : Bool) (start : Position) (draft : Draft) :
    (draft.addLeaf leaf valid start).next = draft.next + 1 := rfl

@[simp] theorem next_openBranch (branch : Branch) (start : Position) (draft : Draft) :
    (draft.openBranch branch start).next = draft.next + 1 := rfl

@[simp] theorem outer_settle (stop : Position) (draft : Draft) :
    (draft.settle stop).outer = draft.outer := by
  unfold settle
  split <;> rfl

@[simp] theorem id_frame_settle (stop : Position) (draft : Draft) :
    (draft.settle stop).frame.id = draft.frame.id := by
  unfold settle
  split <;> rfl

@[simp] theorem origin_frame_settle (stop : Position) (draft : Draft) :
    (draft.settle stop).frame.origin = draft.frame.origin := by
  unfold settle
  split <;> rfl

/-- The node that waited is the last complete child of the innermost branch. -/
theorem done_frame_settle (stop : Position) (draft : Draft) :
    (draft.settle stop).frame.done =
      draft.frame.done ++ draft.loose.map (Item.endAt stop) := by
  cases h : draft.pending <;> simp [settle, loose, h]

theorem frames_settle (stop : Position) (draft : Draft) :
    (draft.settle stop).frames =
      { draft.frame with done := draft.frame.done ++ draft.loose.map (Item.endAt stop) } ::
        draft.outer := by
  rw [frames, outer_settle, ← done_frame_settle]
  unfold settle
  split <;> rfl

/-- Completing the pending child changes nothing that a branch began with. -/
theorem origins_settle (stop : Position) (draft : Draft) :
    (draft.settle stop).frames.map (·.origin) = draft.frames.map (·.origin) := by
  rw [frames_settle]
  rfl

/-- Inside another branch, the innermost one becomes the pending child. -/
theorem closeBranch_of_outer {draft : Draft} {around : Frame} {further : List Frame}
    (houter : draft.outer = around :: further) (branch : Branch) (valid : Bool) :
    draft.closeBranch branch valid =
      { draft with
        frame := around
        outer := further
        pending := some (closing branch valid draft.frame) } := by
  rw [closeBranch, houter]

/-- What taking the mark of a closing comes to, inside another branch. -/
theorem take_closed {draft : Draft} {around : Frame} {further : List Frame}
    (houter : draft.outer = around :: further) (branch : Branch) (valid : Bool)
    (stop : Position) :
    draft.take (.closed branch valid stop) =
      { draft.settle stop with
        frame := around
        outer := further
        pending := some (closing branch valid (draft.settle stop).frame) } :=
  closeBranch_of_outer ((outer_settle stop draft).trans houter) branch valid

/-! ## 3. Ids

Ids are read from the outside in: of each open branch its own id, then those of its complete
children, each with everything below it.  What waits comes last, for it belongs to the innermost
branch and began after all its children. -/

/-- The ids of some branches and of their complete children, from the outside in. -/
def frameIds : List Frame → List NodeId
  | [] => []
  | frame :: outer => frameIds outer ++ frame.id :: Item.ids frame.done

/-- All ids of a draft, in the order in which the nodes began. -/
def ids (draft : Draft) : List NodeId := frameIds draft.frames ++ Item.ids draft.loose

/-- The ids on the thread, in its order. -/
def frameLinks : List Frame → List NodeId
  | [] => []
  | frame :: outer => frameLinks outer ++ Item.linked frame.done

/-- All ids of a draft that are on the thread. -/
def links (draft : Draft) : List NodeId :=
  frameLinks draft.frames ++ Item.linked (draft.loose.flatMap Rose.children)

/-- Where items end does not matter to their ids. -/
theorem ids_endAt (stop : Position) (items : List Item) :
    Item.ids (items.map (Item.endAt stop)) = Item.ids items := by
  induction items with
  | nil => rfl
  | cons item rest ih =>
    obtain ⟨label, below⟩ := item
    simpa [Item.ids] using ih

theorem loose_settle (stop : Position) (draft : Draft) : (draft.settle stop).loose = [] :=
  loose_of_none (pending_settle stop draft)

/-- Completing a node moves no id. -/
@[simp] theorem ids_settle (stop : Position) (draft : Draft) :
    (draft.settle stop).ids = draft.ids := by
  simp [ids, frames, frameIds, loose_settle, done_frame_settle, ids_endAt]

/-- Completing a node puts it on the thread, after what was there. -/
theorem links_settle (stop : Position) (draft : Draft) :
    (draft.settle stop).links = draft.links ++ draft.loose.map (·.label.id) := by
  cases h : draft.pending with
  | none => simp [links, frames, frameLinks, loose_settle, done_frame_settle, loose_of_none h]
  | some item =>
    simp [links, frames, frameLinks, loose_settle, done_frame_settle, loose_of_some h,
      Item.linked_singleton]

/-- A leaf takes the next id, and it is read last. -/
theorem ids_addLeaf {draft : Draft} (h : draft.loose = []) (leaf : Leaf) (valid : Bool)
    (start : Position) : (draft.addLeaf leaf valid start).ids = draft.ids ++ [draft.next] := by
  simp [ids, addLeaf, frames, h]
  simp [loose, Item.ids]

/-- A leaf is not on the thread before it is complete. -/
theorem links_addLeaf {draft : Draft} (h : draft.loose = []) (leaf : Leaf) (valid : Bool)
    (start : Position) : (draft.addLeaf leaf valid start).links = draft.links := by
  simp [links, addLeaf, frames, h]
  simp [loose]

/-- A branch takes the next id when it opens. -/
theorem ids_openBranch {draft : Draft} (h : draft.loose = []) (branch : Branch)
    (start : Position) : (draft.openBranch branch start).ids = draft.ids ++ [draft.next] := by
  simp [ids, openBranch, frames, frameIds, h]
  simp [loose]

/-- An open branch is not on the thread. -/
theorem links_openBranch {draft : Draft} (h : draft.loose = []) (branch : Branch)
    (start : Position) : (draft.openBranch branch start).links = draft.links := by
  simp [links, openBranch, frames, frameLinks, h]
  simp [loose]

/-- Closing a branch only moves it from the open ones to what waits: its id is read in the same
place. -/
theorem ids_closeBranch {draft : Draft} (h : draft.loose = []) (branch : Branch)
    (valid : Bool) : (draft.closeBranch branch valid).ids = draft.ids := by
  unfold closeBranch
  split
  · rename_i around further houter
    simp [ids, frames, frameIds, houter, h]
    simp [loose, closing, Item.ids_singleton]
  · rfl

/-- A branch that closes is not on the thread yet, but all of its children are. -/
theorem links_closeBranch {draft : Draft} (h : draft.loose = []) (branch : Branch)
    (valid : Bool) : (draft.closeBranch branch valid).links = draft.links := by
  unfold closeBranch
  split
  · rename_i around further houter
    simp [links, frames, frameLinks, houter, h]
    simp [loose, closing]
  · rfl

/-! ## 4. Consecutive ids

A scan numbers its nodes from the size of the arena on, and the branch that it was started in has an
id from before.  So the ids of a draft are that one and then an interval. -/

/-- The ids of a draft are that of the branch it was started in and then all from `first` on. -/
def Numbered (base : NodeId) (first : Nat) (draft : Draft) : Prop :=
  first ≤ draft.next ∧ draft.ids = base :: List.range' first (draft.next - first)

variable {base : NodeId} {first : Nat} {draft : Draft}

/-- One more node takes the next id. -/
theorem Numbered.next_id (h : Numbered base first draft) :
    draft.ids ++ [draft.next] = base :: List.range' first (draft.next + 1 - first) := by
  have hcount : draft.next + 1 - first = (draft.next - first) + 1 := by
    have := h.1
    omega
  have hlast : first + (draft.next - first) = draft.next := by
    have := h.1
    omega
  rw [h.2, hcount, List.range'_1_concat, hlast]
  rfl

/-- Completing a node gives out no id. -/
theorem Numbered.settle (h : Numbered base first draft) (stop : Position) :
    Numbered base first (draft.settle stop) := by
  simpa [Numbered] using h

/-- A leaf takes the next number. -/
theorem Numbered.addLeaf (h : Numbered base first draft) (hloose : draft.loose = [])
    (leaf : Leaf) (valid : Bool) (start : Position) :
    Numbered base first (draft.addLeaf leaf valid start) := by
  refine ⟨Nat.le_succ_of_le h.1, ?_⟩
  rw [ids_addLeaf hloose, h.next_id]
  rfl

/-- So does a branch that opens. -/
theorem Numbered.openBranch (h : Numbered base first draft) (hloose : draft.loose = [])
    (branch : Branch) (start : Position) :
    Numbered base first (draft.openBranch branch start) := by
  refine ⟨Nat.le_succ_of_le h.1, ?_⟩
  rw [ids_openBranch hloose, h.next_id]
  rfl

@[simp] theorem next_closeBranch (draft : Draft) (branch : Branch) (valid : Bool) :
    (draft.closeBranch branch valid).next = draft.next := by
  unfold closeBranch
  split <;> rfl

/-- A branch that closes keeps its number. -/
theorem Numbered.closeBranch (h : Numbered base first draft) (hloose : draft.loose = [])
    (branch : Branch) (valid : Bool) : Numbered base first (draft.closeBranch branch valid) := by
  rw [Numbered, ids_closeBranch hloose, next_closeBranch]
  exact h

/-! ## 5. Ids apart

What follows from the interval is that no two nodes of a draft share an id, in every form in which
an assembly needs it: a branch is not below another one that is open, nor does it wait, and what is
off the thread is not on it. -/

/-- The ids of a draft by what bears them: the open branches, their complete children, and the
pending child. -/
theorem ids_perm (draft : Draft) :
    draft.ids.Perm (draft.frames.map (·.id) ++
      (draft.frames.flatMap (fun frame => Item.ids frame.done) ++ Item.ids draft.loose)) := by
  have hframes : ∀ frames : List Frame, (frameIds frames).Perm
      (frames.map (·.id) ++ frames.flatMap (fun frame => Item.ids frame.done)) := by
    intro frames
    induction frames with
    | nil => simp [frameIds]
    | cons frame outer ih =>
      rw [frameIds, List.map_cons, List.flatMap_cons, List.cons_append]
      refine List.perm_middle.trans (List.Perm.cons _ ?_)
      refine (ih.append_right _).trans ?_
      rw [List.append_assoc]
      exact List.perm_append_comm.append_left _
  rw [ids, ← List.append_assoc]
  exact (hframes draft.frames).append_right _

theorem loose_subset {id : NodeId} (h : id ∈ Item.ids draft.loose) : id ∈ draft.ids :=
  List.mem_append_right _ h

theorem frame_mem_ids {frame : Frame} (h : frame ∈ draft.frames) : frame.id ∈ draft.ids :=
  draft.ids_perm.mem_iff.mpr (List.mem_append_left _ (List.mem_map_of_mem h))

theorem done_mem_ids {frame : Frame} {id : NodeId} (h : frame ∈ draft.frames)
    (hid : id ∈ Item.ids frame.done) : id ∈ draft.ids :=
  draft.ids_perm.mem_iff.mpr
    (List.mem_append_right _ (List.mem_append_left _ (List.mem_flatMap.mpr ⟨frame, h, hid⟩)))

/-- The same, by what is on the thread and what is not. -/
theorem ids_perm_links (draft : Draft) :
    draft.ids.Perm (draft.frames.map (·.id) ++ (draft.links ++ draft.loose.map (·.label.id))) := by
  have hframes : ∀ frames : List Frame, (frameLinks frames).Perm
      (frames.flatMap fun frame => Item.ids frame.done) := by
    intro frames
    induction frames with
    | nil => simp [frameLinks]
    | cons frame outer ih =>
      rw [frameLinks, List.flatMap_cons]
      exact (ih.append (Item.linked_perm _)).trans List.perm_append_comm
  have hloose : (Item.ids draft.loose).Perm
      (Item.linked (draft.loose.flatMap Rose.children) ++ draft.loose.map (·.label.id)) := by
    cases h : draft.pending with
    | none => simp [loose_of_none h]
    | some item =>
      rw [loose_of_some h, Item.ids_singleton]
      simp only [List.flatMap_cons, List.flatMap_nil, List.append_nil, List.map_cons,
        List.map_nil]
      exact ((Item.linked_perm _).symm.cons _).trans
        (List.perm_append_singleton _ _).symm
  refine draft.ids_perm.trans (List.Perm.append_left _ ?_)
  rw [links, List.append_assoc]
  exact (hframes draft.frames).symm.append hloose

/-- An id is in the draft if it is that of the first branch or was given out since. -/
theorem Numbered.mem_ids (h : Numbered base first draft) {id : NodeId} :
    id ∈ draft.ids ↔ id = base ∨ first ≤ id ∧ id < draft.next := by
  have := h.1
  rw [h.2, List.mem_cons, List.mem_range'_1]
  have hend : first + (draft.next - first) = draft.next := by omega
  rw [hend]

/-- The outermost branch of a draft is the one it was started in. -/
theorem Numbered.base_eq (h : Numbered base first draft) :
    (draft.frames.getLast (List.cons_ne_nil _ _)).id = base := by
  have hhead : ∀ (frames : List Frame) (hne : frames ≠ []),
      ∃ rest, frameIds frames = (frames.getLast hne).id :: rest := by
    intro frames
    induction frames with
    | nil => intro hne; exact absurd rfl hne
    | cons frame outer ih =>
      intro hne
      cases outer with
      | nil => exact ⟨_, rfl⟩
      | cons around further =>
        obtain ⟨rest, hrest⟩ := ih (List.cons_ne_nil _ _)
        rw [frameIds, hrest, List.getLast_cons (List.cons_ne_nil _ _)]
        exact ⟨_, rfl⟩
  obtain ⟨rest, hrest⟩ := hhead draft.frames (List.cons_ne_nil _ _)
  have hids := h.2
  rw [ids, hrest, List.cons_append] at hids
  exact (List.cons.inj hids).1

/-- It is the last one of the open branches. -/
theorem Numbered.ids_frames (h : Numbered base first draft) :
    draft.frames.map (·.id) = draft.frames.dropLast.map (·.id) ++ [base] := by
  have hne : draft.frames ≠ [] := List.cons_ne_nil _ _
  rw [← List.dropLast_append_getLast hne, List.map_append, List.map_singleton, h.base_eq,
    List.dropLast_concat]

theorem Numbered.nodup (h : Numbered base first draft) (hbase : base < first) :
    draft.ids.Nodup := by
  rw [h.2, List.nodup_cons, List.mem_range'_1]
  exact ⟨fun hin => absurd hin.1 (Nat.not_le_of_lt hbase), List.nodup_range'⟩

/-- No two nodes of a draft share an id. -/
structure Apart (draft : Draft) : Prop where
  frames : (draft.frames.map (·.id)).Nodup
  done : ∀ frame ∈ draft.frames, ∀ around ∈ draft.frames, frame.id ∉ Item.ids around.done
  loose : ∀ frame ∈ draft.frames, frame.id ∉ Item.ids draft.loose
  pending : ∀ frame ∈ draft.frames, ∀ id ∈ Item.ids frame.done, id ∉ Item.ids draft.loose
  below : ∀ item ∈ draft.loose, item.label.id ∉ Item.ids item.children
  links : draft.links.Nodup
  unlinked : ∀ frame ∈ draft.frames, frame.id ∉ draft.links
  last : ∀ item ∈ draft.loose, item.label.id ∉ draft.links

/-- **Ids that occur once tell the parts of a draft apart.** -/
theorem apart (h : draft.ids.Nodup) : Apart draft := by
  have hdone : ∀ frame ∈ draft.frames, ∀ id ∈ Item.ids frame.done,
      id ∈ draft.frames.flatMap fun frame => Item.ids frame.done :=
    fun frame hframe id hid => List.mem_flatMap.mpr ⟨frame, hframe, hid⟩
  obtain ⟨h₁, h₂, h₃⟩ := List.nodup_append'.mp (draft.ids_perm.nodup_iff.mp h)
  obtain ⟨-, h₅, h₆⟩ := List.nodup_append'.mp h₂
  obtain ⟨-, h₈, h₉⟩ := List.nodup_append'.mp (draft.ids_perm_links.nodup_iff.mp h)
  obtain ⟨h₁₀, -, h₁₂⟩ := List.nodup_append'.mp h₈
  have hframe : ∀ frame ∈ draft.frames, frame.id ∈ draft.frames.map (·.id) :=
    fun frame hin => List.mem_map_of_mem hin
  -- each clause is a pair of parts of one of the two permutations, which have no id in common
  refine ⟨h₁, ?_, ?_, ?_, ?_, h₁₀, ?_, ?_⟩
  · intro frame hin around haround hid
    exact h₃ (hframe frame hin) (List.mem_append_left _ (hdone around haround _ hid))
  · intro frame hin hid
    exact h₃ (hframe frame hin) (List.mem_append_right _ hid)
  · intro frame hin id hid
    exact h₆ (hdone frame hin id hid)
  · intro item hitem hid
    have hloose : draft.loose = [item] := by
      cases hp : draft.pending with
      | none => simp [loose_of_none hp] at hitem
      | some found =>
        rw [loose_of_some hp, List.mem_singleton] at hitem
        rw [loose_of_some hp, hitem]
    rw [hloose, Item.ids_singleton] at h₅
    exact (List.nodup_cons.mp h₅).1 hid
  · intro frame hin hid
    exact h₉ (hframe frame hin) (List.mem_append_left _ hid)
  · intro item hitem hid
    exact h₁₂ hid (List.mem_map_of_mem hitem)

/-- The innermost branch is none of those around it. -/
theorem Apart.frame_ne (h : Apart draft) {frame : Frame} (hframe : frame ∈ draft.outer) :
    draft.frame.id ≠ frame.id := by
  intro he
  have hframes := h.frames
  rw [Draft.frames, List.map_cons, List.nodup_cons] at hframes
  exact hframes.1 (List.mem_map.mpr ⟨frame, hframe, he.symm⟩)

end Draft
end StyleLex
