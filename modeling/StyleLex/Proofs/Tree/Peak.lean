/-
# How deep a draft goes

The peak of a draft is the largest number of branches that stand around and below each other in it,
not counting the one that it was started in (`Draft.peak`).  Every mark moves it as a scan moves
its own count: only a branch that opens may raise it (`Draft.peak_take`).

A scan counts how deep it is in branches and remembers the largest count, before any tree exists.
In the tree this number is the depth of the deepest branch.  The two meet in drafts, which have open
branches, as the scan does, and complete items, as the tree does: the peak looks at both, and so a
branch that closes changes nothing about it.
-/
import StyleLex.Proofs.Tree.Draft

namespace StyleLex

/-! ## 1. The reach of an item

Reach is counted in branches, and leaves do not add to it: a leaf has reach zero wherever it stands.
-/

namespace Item

mutual

/-- The largest number of branches from the item down to one of its branches, with both ends. -/
def reach : Item → Nat
  | .node label below => if label.kind.isBranch then reachAll below + 1 else 0

def reachAll : List Item → Nat
  | [] => 0
  | item :: rest => max (reach item) (reachAll rest)

end

@[simp] theorem reachAll_nil : reachAll [] = 0 := rfl

@[simp] theorem reachAll_append (a b : List Item) :
    reachAll (a ++ b) = max (reachAll a) (reachAll b) := by
  induction a with
  | nil => simp
  | cons item rest ih => simp [reachAll, ih, Nat.max_assoc]

/-- The reach of one item is its own. -/
theorem reachAll_singleton (item : Item) : reachAll [item] = item.reach := by
  simp [reachAll]

@[simp] theorem reach_endAt (stop : Position) (item : Item) :
    (endAt stop item).reach = item.reach := by
  cases item
  rfl

@[simp] theorem reachAll_endAt (stop : Position) (items : List Item) :
    reachAll (items.map (endAt stop)) = reachAll items := by
  induction items with
  | nil => rfl
  | cons item rest ih => simp [reachAll, ih]

end Item

/-! ## 2. The peak of a draft

An open branch stands as deep as there are branches around it, and what is complete below it reaches
down from there. -/

namespace Draft

/-- The peak of some open branches and their complete children. -/
def framesPeak : List Frame → Nat
  | [] => 0
  | frame :: outer => max (framesPeak outer) (outer.length + Item.reachAll frame.done)

/-- The innermost branch counts from all the others. -/
theorem framesPeak_cons (frame : Frame) (outer : List Frame) :
    framesPeak (frame :: outer) =
      max (framesPeak outer) (outer.length + Item.reachAll frame.done) := rfl

/-- The largest number of branches that stand around and below each other. -/
def peak (draft : Draft) : Nat :=
  max (framesPeak draft.frames) (draft.outer.length + Item.reachAll draft.loose)

/-- Where no branch is open, the peak is the reach of what is complete. -/
theorem peak_of_outer {draft : Draft} (houter : draft.outer = []) (h : draft.loose = []) :
    draft.peak = Item.reachAll draft.frame.done := by
  rw [peak, h, frames, houter]
  show max (max 0 (0 + Item.reachAll draft.frame.done)) (0 + 0) = _
  omega

@[simp] theorem peak_settle (stop : Position) (draft : Draft) :
    (draft.settle stop).peak = draft.peak := by
  rw [peak, peak, loose_settle, outer_settle, frames_settle, frames, framesPeak_cons,
    framesPeak_cons, Item.reachAll_append, Item.reachAll_endAt, Item.reachAll_nil]
  omega

/-- A leaf is as deep as its branch and adds nothing. -/
theorem peak_addLeaf {draft : Draft} (h : draft.loose = []) (leaf : Leaf) (valid : Bool)
    (start : Position) : (draft.addLeaf leaf valid start).peak = draft.peak := by
  rw [peak, peak, h]
  show max (framesPeak draft.frames) (draft.outer.length + Item.reachAll [_]) = _
  rw [Item.reachAll_singleton]
  rfl

/-- A branch that opens stands inside all that are open. -/
theorem peak_openBranch {draft : Draft} (h : draft.loose = []) (branch : Branch)
    (start : Position) :
    (draft.openBranch branch start).peak = max draft.peak (draft.outer.length + 1) := by
  rw [peak, peak, h]
  show max (max (framesPeak draft.frames) (draft.frames.length + 0)) (draft.frames.length + 0) = _
  rw [frames, framesPeak_cons, List.length_cons, Item.reachAll_nil]
  omega

/-- A branch that closes stays where it stood. -/
theorem peak_closeBranch {draft : Draft} (h : draft.loose = []) (branch : Branch) (valid : Bool) :
    (draft.closeBranch branch valid).peak = draft.peak := by
  cases houter : draft.outer with
  | nil => rw [closeBranch, houter]
  | cons around further =>
    rw [closeBranch_of_outer houter, peak, peak, h, frames, frames, houter]
    show max (framesPeak (around :: further))
      (further.length + Item.reachAll [closing branch valid draft.frame]) = _
    rw [Item.reachAll_singleton]
    show max _ (further.length + (Item.reachAll draft.frame.done + 1)) = _
    rw [framesPeak_cons draft.frame, List.length_cons, Item.reachAll_nil]
    omega

/-- **Only a branch that opens may raise the peak.** -/
theorem peak_take (draft : Draft) (mark : Mark) :
    (draft.take mark).peak =
      match mark with
      | .opened _ _ => max draft.peak (draft.outer.length + 1)
      | _ => draft.peak := by
  cases mark with
  | leaf leaf valid start =>
    exact (peak_addLeaf (loose_settle start draft) leaf valid start).trans (peak_settle start draft)
  | opened branch start =>
    refine (peak_openBranch (loose_settle start draft) branch start).trans ?_
    rw [peak_settle, outer_settle]
  | closed branch valid stop =>
    exact (peak_closeBranch (loose_settle stop draft) branch valid).trans (peak_settle stop draft)

/-- The number of open branches after a mark. -/
theorem length_outer_take (draft : Draft) (mark : Mark) :
    (draft.take mark).outer.length =
      match mark with
      | .leaf _ _ _ => draft.outer.length
      | .opened _ _ => draft.outer.length + 1
      | .closed _ _ _ => draft.outer.length - 1 := by
  cases mark with
  | leaf leaf valid start =>
    show (draft.settle start).outer.length = _
    rw [outer_settle]
  | opened branch start =>
    show ((draft.settle start).frame :: (draft.settle start).outer).length = _
    rw [List.length_cons, outer_settle]
  | closed branch valid stop =>
    cases houter : draft.outer with
    | nil => rw [take, closeBranch, outer_settle, houter, outer_settle, houter, List.length_nil]
    | cons around further =>
      rw [take_closed houter]
      rfl

end Draft
end StyleLex
