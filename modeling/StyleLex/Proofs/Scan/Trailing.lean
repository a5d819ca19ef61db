/-
# Items further on

Two scans that make the same marks, one of them further on in its source, read the same items: those
of the one further on have greater ids, and more bytes before them (`Item.sketch`).  Their drafts
move in step (`Draft.Trails.take`), and items that are the same but for where they stand show the
same kinds and texts, each in its own source (`Item.kind_eq`).

Two applications have this form.  A resumed call reads the rest of a source, with nodes and bytes
before it; and a part of a source that is read by itself is the part of the whole source, further
on.  In both, everything is equal but for two numbers, so the comparison is an equation between
sketches: the sketch of the item that is behind, with the two numbers added, is the sketch of the
other one.

Lines and columns are left out of sketches, for they are not shifted by a constant: the first line
of a part begins in the middle of a line of the whole.
-/
import StyleLex.Proofs.Scan.Layout
import StyleLex.Proofs.Scan.Mirror
import StyleLex.Proofs.Tree.Holding

namespace StyleLex

namespace Scan

/-- The second scan counts bytes from the `origin`-th on, and knows nothing behind its stop. -/
def Gauge.since (scope : Scope) (b : List UInt8) (origin : Nat) : Gauge scope b where
  beyond := none
  Same p q := p.byte = q.byte + origin
  advance := by
    intro p q taken left h
    rw [Position.byte_advanceOver, Position.byte_advanceOver, h]
    omega

end Scan

/-! ## 1. Sketches

A sketch keeps of a label what the comparison is about, and as sketches form a tree like items do,
most of the lemmas are those of `Rose.map`. -/

/-- What a label says, with nothing but bytes for where its node stands. -/
structure Sketch where
  id : NodeId
  kind : Kind
  valid : Bool
  start : Nat
  stop : Nat

/-- A label, with so many more nodes and bytes before it. -/
def Label.behind (nodes bytes : Nat) (label : Label) : Sketch where
  id := label.id + nodes
  kind := label.kind
  valid := label.valid
  start := label.span.start.byte + bytes
  stop := label.span.stop.byte + bytes

/-- What it means for two labels to have the same sketch. -/
theorem Label.behind_eq_iff {nodes bytes : Nat} {label label' : Label} :
    label.behind 0 0 = label'.behind nodes bytes ↔
      label.id = label'.id + nodes ∧ label.kind = label'.kind ∧ label.valid = label'.valid ∧
        label.span.start.byte = label'.span.start.byte + bytes ∧
          label.span.stop.byte = label'.span.stop.byte + bytes := by
  simp [behind]

namespace Item

/-- An item, with so many more nodes and bytes before it. -/
def sketch (nodes bytes : Nat) : Item → Rose Sketch := Rose.map (Label.behind nodes bytes)

/-- Items, with so many more nodes and bytes before them. -/
def sketches (nodes bytes : Nat) (items : List Item) : List (Rose Sketch) :=
  items.map (sketch nodes bytes)

variable {nodes bytes : Nat} {item other : Item} {items others : List Item}

/-- Sketches are made item by item. -/
@[simp] theorem sketches_cons (nodes bytes : Nat) (item : Item) (items : List Item) :
    sketches nodes bytes (item :: items) = sketch nodes bytes item :: sketches nodes bytes items :=
  rfl

/-- And part by part. -/
@[simp] theorem sketches_append (nodes bytes : Nat) (items others : List Item) :
    sketches nodes bytes (items ++ others) =
      sketches nodes bytes items ++ sketches nodes bytes others := List.map_append

/-- The sketch of an item is that of its label, above those of its children. -/
theorem sketch_node (nodes bytes : Nat) (label : Label) (below : List Item) :
    sketch nodes bytes (.node label below) =
      .node (label.behind nodes bytes) (sketches nodes bytes below) := Rose.map_node _ _ _

/-- The label of a sketch. -/
@[simp] theorem label_sketch (nodes bytes : Nat) (item : Item) :
    (sketch nodes bytes item).label = item.label.behind nodes bytes := Rose.label_map _ _

/-- Items with the same sketch have labels that say the same. -/
theorem label_of_sketch (h : item.sketch 0 0 = other.sketch nodes bytes) :
    item.label.behind 0 0 = other.label.behind nodes bytes := by
  have hlabels := congrArg Rose.label h
  rwa [label_sketch, label_sketch] at hlabels

/-- Two items have the same sketch if their labels do, and what is below them does. -/
theorem sketch_eq_iff {label label' : Label} {below below' : List Item} :
    sketch 0 0 (.node label below) = sketch nodes bytes (.node label' below') ↔
      label.behind 0 0 = label'.behind nodes bytes ∧
        sketches 0 0 below = sketches nodes bytes below' := by
  rw [sketch_node, sketch_node, Rose.node.injEq]

/-- Two items that are completed at the same place keep the same sketch. -/
theorem sketch_endAt (h : item.sketch 0 0 = other.sketch nodes bytes) {p q : Position}
    (hsame : p.byte = q.byte + bytes) :
    (endAt p item).sketch 0 0 = (endAt q other).sketch nodes bytes := by
  obtain ⟨label, below⟩ := item
  obtain ⟨label', below'⟩ := other
  rw [sketch_eq_iff] at h
  rw [endAt_node, endAt_node, sketch_eq_iff]
  refine ⟨?_, h.2⟩
  obtain ⟨hid, hkind, hvalid, hstart, -⟩ := Label.behind_eq_iff.mp h.1
  exact Label.behind_eq_iff.mpr ⟨hid, hkind, hvalid, hstart, hsame⟩

/-- So do any number of them. -/
theorem sketches_endAt {p q : Position} (hsame : p.byte = q.byte + bytes) :
    ∀ {items others : List Item}, sketches 0 0 items = sketches nodes bytes others →
    sketches 0 0 (items.map (endAt p)) = sketches nodes bytes (others.map (endAt q))
  | [], [], _ => rfl
  | item :: items, other :: others, h => by
    rw [sketches_cons, sketches_cons, List.cons.injEq] at h
    rw [List.map_cons, List.map_cons, sketches_cons, sketches_cons, sketch_endAt h.1 hsame,
      sketches_endAt hsame h.2]
  | [], _ :: _, h => by cases h
  | _ :: _, [], h => by cases h

/-- The ids of items are those of the items further on, but for how many nodes are before. -/
theorem ids_of_sketches (h : sketches 0 0 items = sketches nodes bytes others) :
    items.map (·.label.id) = others.map (·.label.id + nodes) := by
  have hids := congrArg (List.map fun tree => tree.label.id) h
  simpa [sketches, Function.comp_def, Label.behind] using hids

/-- The item with another flag. -/
def flagged (valid : Bool) : Item → Item
  | .node label below => .node { label with valid := valid } below

/-- Only the flag changes. -/
@[simp] theorem label_flagged (valid : Bool) (item : Item) :
    (flagged valid item).label = { item.label with valid := valid } := by
  cases item
  rfl

/-- The flag that it has changes nothing. -/
theorem flagged_self (item : Item) : item.flagged item.label.valid = item := by
  cases item
  rfl

/-- The last flag counts. -/
theorem flagged_flagged (valid valid' : Bool) (item : Item) :
    (item.flagged valid).flagged valid' = item.flagged valid' := by
  cases item
  rfl

/-! ## 2. Kinds and texts

The text of an item is read from the source by its span, and the kind of a name is its text.  If the
second source is the part of the first one between the two ends, both read the same bytes. -/

variable {whole alone : Array UInt8} {stop : Nat}

/-- The bytes of a span are those of the span further on. -/
theorem read_extract (hle : bytes ≤ stop) (halone : whole.extract bytes stop = alone)
    {span span' : Span} (hstart : span.start.byte = span'.start.byte + bytes)
    (hstop : span.stop.byte = span'.stop.byte + bytes) (hinside : span'.stop.byte ≤ alone.size) :
    span.read whole = span'.read alone := by
  have hsize : span'.stop.byte ≤ stop - bytes := by
    rw [← halone, Array.size_extract] at hinside
    omega
  have hmin : min (bytes + span'.stop.byte) stop = span.stop.byte := by omega
  rw [Span.read, Span.read, Span.slice, Span.slice, ← halone, Array.extract_extract, hmin, hstart,
    Nat.add_comm]

mutual

/-- **Items with the same sketch have the same text**, each in its own source. -/
theorem text_eq (hle : bytes ≤ stop) (halone : whole.extract bytes stop = alone) :
    ∀ {item other : Item}, item.sketch 0 0 = other.sketch nodes bytes →
    (∀ sub ∈ other.subtrees, sub.label.span.stop.byte ≤ alone.size) →
    item.text whole = other.text alone
  | .node label below, .node label' below', h, hinside => by
    obtain ⟨hlabel, hbelow⟩ := sketch_eq_iff.mp h
    obtain ⟨-, hkind, -, hstart, hstop⟩ := Label.behind_eq_iff.mp hlabel
    have htext := textAll_eq hle halone hbelow fun sub hsub =>
      hinside sub (Rose.mem_subtrees.mpr (Or.inr hsub))
    have hread := read_extract hle halone hstart hstop (hinside _ (Rose.mem_subtrees_self _))
    rw [text, text, hkind, htext, hread]

/-- The same for the items of a branch, one after the other. -/
theorem textAll_eq (hle : bytes ≤ stop) (halone : whole.extract bytes stop = alone) :
    ∀ {items others : List Item}, sketches 0 0 items = sketches nodes bytes others →
    (∀ sub ∈ Rose.subtreesAll others, sub.label.span.stop.byte ≤ alone.size) →
    textAll whole items = textAll alone others
  | [], [], _, _ => by rw [textAll, textAll]
  | item :: items, other :: others, h, hinside => by
    rw [sketches_cons, sketches_cons, List.cons.injEq] at h
    rw [Rose.subtreesAll_cons] at hinside
    rw [textAll, textAll,
      text_eq hle halone h.1 fun sub hsub => hinside sub (List.mem_append_left _ hsub),
      textAll_eq hle halone h.2 fun sub hsub => hinside sub (List.mem_append_right _ hsub)]
  | [], _ :: _, h, _ => by cases h
  | _ :: _, [], h, _ => by cases h

end

/-- So they have the same kind. -/
theorem kind_eq (hle : bytes ≤ stop) (halone : whole.extract bytes stop = alone)
    (h : item.sketch 0 0 = other.sketch nodes bytes)
    (hinside : ∀ sub ∈ other.subtrees, sub.label.span.stop.byte ≤ alone.size) :
    item.kind whole = other.kind alone := by
  obtain ⟨label, below⟩ := item
  obtain ⟨label', below'⟩ := other
  obtain ⟨hlabel, hbelow⟩ := sketch_eq_iff.mp h
  rw [kind, kind, (Label.behind_eq_iff.mp hlabel).2.1, textAll_eq hle halone hbelow fun sub hsub =>
    hinside sub (Rose.mem_subtrees.mpr (Or.inr hsub))]

/-- What is inside one of two items with the same sketch has its like inside the other. -/
theorem exists_like (h : item.sketch 0 0 = other.sketch nodes bytes) {sub : Item}
    (hsub : sub ∈ other.subtrees) :
    ∃ like ∈ item.subtrees, sketch 0 0 like = sketch nodes bytes sub := by
  have hin : sub.sketch nodes bytes ∈ (item.sketch 0 0).subtrees := by
    rw [h, sketch, Rose.subtrees_map]
    exact List.mem_map_of_mem hsub
  rw [sketch, Rose.subtrees_map] at hin
  exact List.mem_map.mp hin

end Item

/-! ## 3. Drafts

The drafts of two scans that make the same marks are related frame by frame.  The frame that the
scans were started in is special: the first draft may have items in it from before, which the second
one does not. -/

namespace Draft

/-- Open branches of two drafts, from the inside out, the second one of which has read `nodes` nodes
and `bytes` bytes less: the same are open, with the same children in them, but that the outermost
one of the first draft has the items `front` before. -/
inductive Frames (nodes bytes : Nat) (front : List Item) : List Frame → List Frame → Prop where
  | base {frame other : Frame}
      (done : Item.sketches 0 0 frame.done =
        Item.sketches 0 0 front ++ Item.sketches nodes bytes other.done) :
      Frames nodes bytes front [frame] [other]
  | inner {frame other : Frame} {outer beyond : List Frame} (id : frame.id = other.id + nodes)
      (start : frame.origin.span.start.byte = other.origin.span.start.byte + bytes)
      (stop : frame.origin.span.stop.byte = other.origin.span.stop.byte + bytes)
      (done : Item.sketches 0 0 frame.done = Item.sketches nodes bytes other.done)
      (further : Frames nodes bytes front outer beyond) :
      Frames nodes bytes front (frame :: outer) (other :: beyond)

/-- The second draft is the first one without the items `front` of its outermost branch, and has
read as much less. -/
structure Trails (nodes bytes : Nat) (front : List Item) (draft other : Draft) : Prop where
  next : draft.next = other.next + nodes
  frames : Frames nodes bytes front draft.frames other.frames
  loose : Item.sketches 0 0 draft.loose = Item.sketches nodes bytes other.loose

variable {nodes bytes : Nat} {front : List Item} {draft other : Draft}

/-- Some branch is open in both. -/
theorem Frames.ne_nil {frames others : List Frame} (h : Frames nodes bytes front frames others) :
    frames ≠ [] ∧ others ≠ [] := by
  cases h with
  | base | inner => exact ⟨List.cons_ne_nil _ _, List.cons_ne_nil _ _⟩

/-- More children in the innermost branch. -/
theorem Frames.append {frame frame' : Frame} {outer outer' : List Frame}
    (h : Frames nodes bytes front (frame :: outer) (frame' :: outer')) {more more' : List Item}
    (hmore : Item.sketches 0 0 more = Item.sketches nodes bytes more') :
    Frames nodes bytes front ({ frame with done := frame.done ++ more } :: outer)
      ({ frame' with done := frame'.done ++ more' } :: outer') := by
  cases h with
  | base done =>
    refine .base ?_
    rw [Item.sketches_append, Item.sketches_append, done, hmore, List.append_assoc]
  | inner id start stop done further =>
    refine .inner id start stop ?_ further
    rw [Item.sketches_append, Item.sketches_append, done, hmore]

namespace Trails

/-- Both complete the pending child at the same place. -/
theorem settle (h : Trails nodes bytes front draft other) {p q : Position}
    (hsame : p.byte = q.byte + bytes) :
    Trails nodes bytes front (draft.settle p) (other.settle q) where
  next := by rw [next_settle, next_settle, h.next]
  frames := by
    rw [frames_settle, frames_settle]
    exact h.frames.append (Item.sketches_endAt hsame h.loose)
  loose := by
    rw [loose_settle, loose_settle]
    rfl

/-- Both begin a leaf, and give it the next of their ids. -/
theorem addLeaf (h : Trails nodes bytes front draft other) (leaf : Leaf) (valid : Bool)
    {p q : Position} (hsame : p.byte = q.byte + bytes) :
    Trails nodes bytes front (draft.addLeaf leaf valid p) (other.addLeaf leaf valid q) where
  next := by
    rw [next_addLeaf, next_addLeaf, h.next, Nat.add_right_comm]
  frames := h.frames
  loose := by
    show [Item.sketch _ _ _] = [Item.sketch _ _ _]
    rw [List.cons.injEq, Item.sketch_eq_iff]
    exact ⟨⟨Label.behind_eq_iff.mpr ⟨h.next, rfl, rfl, hsame, hsame⟩, rfl⟩, rfl⟩

/-- Both open a branch. -/
theorem openBranch (h : Trails nodes bytes front draft other) (branch : Branch) {p q : Position}
    (hsame : p.byte = q.byte + bytes) :
    Trails nodes bytes front (draft.openBranch branch p) (other.openBranch branch q) where
  next := by
    rw [next_openBranch, next_openBranch, h.next, Nat.add_right_comm]
  frames := .inner h.next hsame hsame rfl h.frames
  loose := rfl

/-- Both close one; it is never the frame that they were started in unless neither has a branch
around. -/
theorem closeBranch (h : Trails nodes bytes front draft other) (branch : Branch) (valid : Bool) :
    Trails nodes bytes front (draft.closeBranch branch valid) (other.closeBranch branch valid) := by
  obtain ⟨next, frame, outer, pending⟩ := draft
  obtain ⟨next', frame', outer', pending'⟩ := other
  have hframes := h.frames
  cases hframes with
  | base done => exact h
  | inner id start stop done further =>
    obtain ⟨around, outer, rfl⟩ := List.exists_cons_of_ne_nil further.ne_nil.1
    obtain ⟨around', outer', rfl⟩ := List.exists_cons_of_ne_nil further.ne_nil.2
    refine ⟨h.next, further, ?_⟩
    show [Item.sketch _ _ _] = [Item.sketch _ _ _]
    rw [List.cons.injEq, closing, closing, Item.sketch_eq_iff]
    exact ⟨⟨Label.behind_eq_iff.mpr ⟨id, rfl, rfl, start, stop⟩, done⟩, rfl⟩

/-- **What a scan makes of a mark, a scan further on makes of the same mark.** -/
theorem take {scope : Scan.Scope} {b : List UInt8} {mark mark' : Mark}
    (h : Trails nodes bytes front draft other)
    (hmark : (Scan.Gauge.since scope b bytes).Marks mark mark') :
    Trails nodes bytes front (draft.take mark) (other.take mark') := by
  cases hmark with
  | leaf leaf valid same => exact (h.settle same).addLeaf leaf valid same
  | opened branch same => exact (h.settle same).openBranch branch same
  | closed branch valid same => exact (h.settle same).closeBranch branch valid

/-- So the marks of two whole scans are taken in step. -/
theorem takeAll {scope : Scan.Scope} {b : List UInt8} {marks marks' : List Mark}
    (hmarks : List.Forall₂ (Scan.Gauge.since scope b bytes).Marks marks marks') :
    ∀ {draft other : Draft}, Trails nodes bytes front draft other →
      Trails nodes bytes front (draft.takeAll marks) (other.takeAll marks') := by
  induction hmarks with
  | nil => exact fun h => h
  | cons hmark _ ih => exact fun h => ih (h.take hmark)

end Trails

/-- No id is given back. -/
theorem le_next_takeAll : ∀ (marks : List Mark) (draft : Draft),
    draft.next ≤ (draft.takeAll marks).next
  | [], _ => Nat.le_refl _
  | mark :: rest, draft => by
    refine Nat.le_trans ?_ (le_next_takeAll rest (draft.take mark))
    cases mark <;> simp [take]

/-- Where the pending child ends, the next mark says, or the end does. -/
theorem settle_takeAll {p stop : Position} {marks : List Mark}
    (hbegun : (marks = [] ∧ stop = p) ∨ ∃ mark rest, marks = mark :: rest ∧ mark.place = p)
    (draft : Draft) :
    ((draft.settle p).takeAll marks).settle stop = (draft.takeAll marks).settle stop := by
  have htwice : ∀ q, (draft.settle p).settle q = draft.settle p := by
    intro q
    rw [settle, pending_settle]
  rcases hbegun with ⟨rfl, rfl⟩ | ⟨mark, rest, rfl, hplace⟩
  · exact htwice stop
  · have htake : (draft.settle p).take mark = draft.take mark := by
      cases mark with
      | leaf leaf valid start =>
        obtain rfl : start = p := hplace
        rw [take, take, htwice]
      | opened branch start =>
        obtain rfl : start = p := hplace
        rw [take, take, htwice]
      | closed branch valid stop' =>
        obtain rfl : stop' = p := hplace
        rw [take, take, htwice]
    rw [takeAll_cons, takeAll_cons, htake]

/-- A branch that closes is the last child of the branch around it, with the flag that it closes
with. -/
theorem done_closed {around : Frame} {further : List Frame}
    (houter : draft.outer = around :: further) (branch : Branch) (p stop : Position) :
    ∃ item, ∀ valid, ((draft.take (.closed branch valid p)).settle stop).frame.done =
      around.done ++ [Item.flagged valid item] ∧ item.label.kind = .branch branch := by
  refine ⟨Item.endAt stop (closing branch true (draft.settle p).frame), fun valid => ⟨?_, rfl⟩⟩
  rw [take_closed houter]
  rfl

end Draft

end StyleLex
