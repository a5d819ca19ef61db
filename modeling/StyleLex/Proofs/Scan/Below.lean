/-
# Nothing below a leaf, and no name below a name

Whatever branch a scan is started in, what it reads keeps to two rules (`Item.Plain`): a leaf has
nothing below it, and no name stands right below a name.  The second one holds since a name is
opened in other branches only (`View.Ready`), and so a name that closes is not the child of one.

Like every rule on what stands below what, it follows the open branches of a scan and the frames
of its draft side by side (`View.Plain.step`).

Of the schema this is the part that does not depend on where the scan began.  A resumed call may
begin in a name or in a group, and its items are put into a tree that exists; to know that ids and
values come out right it is enough that names do not contain names.

The proof relates two lists, the branches that are open in the scan and the frames of the draft,
entry by entry.  A step changes the first entry, adds one or removes one, on both sides.
-/
import StyleLex.Proofs.Scan.Drafting

namespace StyleLex

/-! ## 1. Plain items

`Plain` is about an item and all that is inside; `Bears` is about a branch and one child, so it can
be asked while the branch is open. -/

/-- Is the node a name, which gets its value from its children? -/
def Kind.isName : Kind → Bool
  | .branch found => found.isName
  | .leaf _ => false

/-- A leaf has nothing below it, and a name has no name right below it. -/
def Item.Plain (item : Item) : Prop :=
  ∀ sub ∈ item.subtrees,
    (sub.label.kind.isBranch = false → sub.children = []) ∧
    (sub.label.kind.isName = true → ∀ child ∈ sub.children, child.label.kind.isName = false)

/-- Completing an item changes nothing below it. -/
theorem Item.Plain.endAt {item : Item} (h : item.Plain) (stop : Position) :
    (Item.endAt stop item).Plain := by
  obtain ⟨label, below⟩ := item
  exact Rose.forall_mem_subtrees.mpr (Rose.forall_mem_subtrees.mp h)

/-- May the item stand right below the branch? -/
def Branch.Bears (branch : Branch) (item : Item) : Prop :=
  item.Plain ∧ (branch.isName = true → item.label.kind.isName = false)

/-- What a hash has gathered does not matter. -/
theorem Branch.Bears.alike {branch other : Branch} {item : Item} (h : branch.Bears item)
    (alike : branch.Alike other) : other.Bears item :=
  ⟨h.1, fun hname => h.2 (alike.isName_eq.trans hname)⟩

/-- Nor does the end of the child. -/
theorem Branch.Bears.endAt {branch : Branch} {item : Item} (h : branch.Bears item)
    (stop : Position) : branch.Bears (Item.endAt stop item) :=
  ⟨h.1.endAt stop, by rw [Item.kind_label_endAt]; exact h.2⟩

/-- A leaf may stand below any branch. -/
theorem Branch.bears_leaf (branch : Branch) (id : NodeId) (leaf : Leaf) (valid : Bool)
    (span : Span) : branch.Bears (.node ⟨id, .leaf leaf, valid, span⟩ []) :=
  ⟨Rose.forall_mem_subtrees.mpr ⟨⟨fun _ => rfl, nofun⟩, nofun⟩, fun _ => rfl⟩

/-- A branch that closes is plain if it bears its children. -/
theorem Item.plain_closing {branch : Branch} {valid : Bool} {frame : Draft.Frame}
    (h : ∀ item ∈ frame.done, branch.Bears item) : (Draft.closing branch valid frame).Plain := by
  refine Rose.forall_mem_subtrees.mpr ⟨?_, fun child hchild => (h child hchild).1⟩
  exact ⟨nofun, fun hname child hchild => (h child hchild).2 hname⟩

/-! ## 2. Open branches

The child that was read last is pending: it is loose in the draft and becomes a child of the
innermost branch with the next mark. -/

namespace Scan

variable {scope : Scope} {view after : View} {start : Draft}

/-- Every open branch bears what is complete in it, and the innermost one the child read last. -/
structure View.Plain (start : Draft) (view : View) : Prop where
  frames : List.Forall₂ (fun branch drafted => ∀ item ∈ drafted.done, Branch.Bears branch item)
    ((view.frame :: view.outer).map (·.branch)) (view.draft start).frames
  loose : ∀ item ∈ (view.draft start).loose, view.frame.branch.Bears item

namespace View.Plain

/-- The branches further out are not touched by completing the pending child. -/
theorem outer (h : view.Plain start) (stop : Position) :
    List.Forall₂ (fun branch drafted => ∀ item ∈ drafted.done, Branch.Bears branch item)
      (view.outer.map (·.branch)) ((view.draft start).settle stop).outer := by
  rw [Draft.outer_settle]
  exact (List.forall₂_cons.mp h.frames).2

/-- The innermost branch bears the child read last when that has its end. -/
theorem settle (h : view.Plain start) {branch : Branch} (alike : view.frame.branch.Alike branch)
    (stop : Position) : ∀ item ∈ ((view.draft start).settle stop).frame.done,
      branch.Bears item := by
  intro item hitem
  rw [Draft.done_frame_settle, List.mem_append, List.mem_map] at hitem
  rcases hitem with hitem | ⟨last, hlast, rfl⟩
  · exact ((List.forall₂_cons.mp h.frames).1 item hitem).alike alike
  · exact ((h.loose last hlast).endAt stop).alike alike

/-- **Every step keeps to the rules.** -/
theorem step (h : view.Plain start) (hready : view.Ready) (hstep : Step scope view after) :
    after.Plain start := by
  -- a step changes the first entry of the two lists, puts one before it or takes it away
  cases hstep with
  | @leaf leaf valid branch n ahead positive alike sound =>
    refine ⟨?_, ?_⟩
    · rw [draft_consume, draft_addLeaf]
      exact .cons (h.settle alike _) (h.outer _)
    · rw [draft_consume, draft_addLeaf]
      intro item hitem
      obtain rfl := List.mem_singleton.mp hitem
      exact Branch.bears_leaf branch _ leaf valid _
  | grow => exact ⟨h.frames, h.loose⟩
  | @opened branch ahead proper fits inside begins =>
    refine ⟨?_, ?_⟩
    · rw [draft_consume, draft_openBranch]
      exact .cons nofun (.cons (h.settle (.refl _) _) (h.outer _))
    · rw [draft_consume, draft_openBranch]
      nofun
  | @closed branch valid n around further outer alike ends complete =>
    have houter := (List.forall₂_cons.mp h.frames).2
    have hnested := hready.nested
    rw [outer] at houter hnested
    cases hdrafted : (view.draft start).outer with
    | nil =>
      rw [hdrafted] at houter
      cases houter
    | cons surround beyond =>
      rw [hdrafted] at houter
      have hdraft := draft_closed hdrafted branch valid around further scope n
      refine ⟨?_, ?_⟩
      · rw [hdraft]
        exact houter
      · rw [hdraft]
        intro item hitem
        obtain rfl := List.mem_singleton.mp hitem
        refine ⟨Item.plain_closing (h.settle alike _), fun haround => ?_⟩
        -- a name around would be narrow, and a name stands in no narrow branch
        show branch.isName = false
        rw [← alike.isName_eq, Bool.eq_false_iff]
        intro hname
        have hwide := hnested.1 (by rw [Branch.isNarrow, hname, Bool.true_or])
        have hname' : around.branch.isName = true := haround
        rw [Branch.isNarrow, hname'] at hwide
        cases hwide
  | halted => exact ⟨h.frames, h.loose⟩

end View.Plain
end Scan

/-! ## 3. Whole scans

The scan may begin in any branch: nothing is complete in the draft then, so there is nothing that
the branch would have to bear. -/

/-- **What a call reads keeps to the rules**, and the branch that it was read in bears it. -/
theorem Lexer.draft_plain (lexer : Lexer) (branch : Branch) (source : Source) {start : Draft}
    (houter : start.outer = []) (hpending : start.pending = none) (hdone : start.frame.done = []) :
    ∀ item ∈ (lexer.draft start branch source).frame.done, branch.Bears item := by
  have hdraft : (initial branch source).view.draft start = start := rfl
  have hstart : (initial branch source).view.Plain start := by
    refine ⟨?_, ?_⟩
    · rw [hdraft, Draft.frames, houter]
      refine .cons ?_ .nil
      rw [hdone]
      exact List.forall_mem_nil _
    · rw [hdraft, Draft.loose_of_none hpending]
      exact List.forall_mem_nil _
  obtain ⟨-, hplain, -⟩ := Scan.run_induction (initial_fresh branch source) hstart
    fun _ _ hready _ (hstep : Scan.Step (lexer.scope source) _ _) h => h.step hready hstep
  rw [← scan_eq lexer] at hplain
  intro item hitem
  obtain ⟨hbelow, hbears⟩ := hplain.settle (.refl _) _ item hitem
  exact ⟨hbelow, fun hname => hbears ((lexer.scan_alike branch source).isName_eq.symm.trans hname)⟩

end StyleLex
