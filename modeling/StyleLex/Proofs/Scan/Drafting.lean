/-
# A scan and its draft

The marks of a scan make a draft, and the two move in step: the draft is as deep as the scan, and
no mark closes the branch that the scan was started in (`Paced.step`).  So the marks of a whole
scan can be assembled (`Lexer.scan_admits`).

Two stacks are compared here: that of the scan, whose frames say how a branch is to be read, and
that of the draft, whose frames hold the items that were made so far.  A mark pushes on both or pops
from both.  A mark that closes the caller's branch would make the draft pop from an empty stack; it
is excluded because a scan has no step for it: `closed` needs a branch around, and otherwise the
scan halts.

With this, the assembly of a tree may be replaced by the draft (`Proofs/Tree/Draft`), and the draft
by the steps of the scan.
-/
import StyleLex.Lexer
import StyleLex.Proofs.Scan.Progress
import StyleLex.Proofs.Tree.Draft

namespace StyleLex
namespace Scan

variable {scope : Scope} {view after : View} {start : Draft}

/-! ## 1. The draft of a view

The marks of a view are the latest first, so the draft takes them in reverse.  One step adds at most
one mark, and the draft takes one mark more. -/

/-- What the marks of a view make of a draft. -/
def View.draft (view : View) (start : Draft) : Draft := start.takeAll view.marks.reverse

/-- Consuming bytes marks nothing. -/
@[simp] theorem draft_consume (scope : Scope) (n : Nat) (view : View) (start : Draft) :
    (view.consume scope n).draft start = view.draft start := rfl

/-- A leaf is one mark. -/
theorem draft_addLeaf (leaf : Leaf) (valid : Bool) (branch : Branch) (view : View)
    (start : Draft) :
    (view.addLeaf leaf valid branch).draft start =
      (view.draft start).take (.leaf leaf valid view.position) := by
  simp [View.draft, View.addLeaf, Draft.takeAll_concat]

/-- So is the beginning of a branch. -/
theorem draft_openBranch (branch : Branch) (view : View) (start : Draft) :
    (view.openBranch branch).draft start =
      (view.draft start).take (.opened branch view.position) := by
  simp [View.draft, View.openBranch, Draft.takeAll_concat]

/-- So is its end. -/
theorem draft_closeBranch (branch : Branch) (valid : Bool) (around : Frame)
    (further : List Frame) (view : View) (start : Draft) :
    (view.closeBranch branch valid around further).draft start =
      (view.draft start).take (.closed branch valid view.position) := by
  simp [View.draft, View.closeBranch, Draft.takeAll_concat]

/-- **A branch that closes becomes the last child of the branch around it,** ended where the scan
stands, and waits there: bytes that belong to it may still come. -/
theorem draft_closed {surround : Draft.Frame} {beyond : List Draft.Frame}
    (houter : (view.draft start).outer = surround :: beyond) (branch : Branch) (valid : Bool)
    (around : Frame) (further : List Frame) (scope : Scope) (n : Nat) :
    ((view.closeBranch branch valid around further).consume scope n).draft start =
      { (view.draft start).settle view.position with
        frame := surround
        outer := beyond
        pending := some (Draft.closing branch valid
          ((view.draft start).settle view.position).frame) } := by
  rw [draft_consume, draft_closeBranch, Draft.take_closed houter]

/-! ## 2. In step

The invariant has two parts that need each other: the depths are equal because no mark was refused,
and no mark is refused because the depths are equal. -/

/-- The draft is as deep as the scan, and its marks can be assembled. -/
structure Paced (start : Draft) (view : View) : Prop where
  admits : start.Admits view.marks.reverse
  depth : (view.draft start).outer.length = view.outer.length

/-- **Every step keeps the scan and its draft in step.** -/
theorem Paced.step (h : Paced start view) (hstep : Step scope view after) :
    Paced start after := by
  cases hstep with
  | @leaf leaf valid branch n ahead positive alike sound =>
    refine ⟨?_, ?_⟩
    · show start.Admits (Mark.leaf leaf valid view.position :: view.marks).reverse
      rw [List.reverse_cons, Draft.admits_concat]
      exact ⟨h.admits, trivial⟩
    · rw [draft_consume, draft_addLeaf]
      simpa [Draft.take, Draft.addLeaf, View.addLeaf, View.consume] using h.depth
  | grow => exact ⟨h.admits, h.depth⟩
  | @opened branch ahead proper fits inside begins =>
    refine ⟨?_, ?_⟩
    · show start.Admits (Mark.opened branch view.position :: view.marks).reverse
      rw [List.reverse_cons, Draft.admits_concat]
      exact ⟨h.admits, trivial⟩
    · rw [draft_consume, draft_openBranch]
      simpa [Draft.take, Draft.openBranch, View.openBranch, View.consume] using h.depth
  | @closed branch valid n around further outer alike ends complete =>
    have hdepth : (view.draft start).outer.length = further.length + 1 := by
      rw [h.depth, outer, List.length_cons]
    -- the scan has a branch around, so the draft has a frame to go back to
    cases hdraft : (view.draft start).outer with
    | nil =>
      rw [hdraft] at hdepth
      cases hdepth
    | cons frame frames =>
      refine ⟨?_, ?_⟩
      · show start.Admits (Mark.closed branch valid view.position :: view.marks).reverse
        rw [List.reverse_cons, Draft.admits_concat]
        refine ⟨h.admits, ?_⟩
        show (view.draft start).outer ≠ []
        rw [hdraft]
        exact List.cons_ne_nil _ _
      · rw [draft_consume, draft_closeBranch]
        rw [hdraft, List.length_cons] at hdepth
        simpa [Draft.take, Draft.closeBranch, hdraft, View.closeBranch, View.consume] using hdepth
  | halted => exact ⟨h.admits, h.depth⟩

end Scan

/-! ## 3. Whole scans

For a whole scan the draft begins with nothing open, and so the scan ends with nothing open but the
caller's branch. -/

namespace Lexer

open Scan

/-- The state in which a scan begins. -/
def initial (branch : Branch) (source : Source) : State where
  rest := source.range
  position := source.start
  frame := { branch := branch, start := source.start }

/-- The draft of what a call reads, complete. -/
def draft (lexer : Lexer) (start : Draft) (branch : Branch) (source : Source) : Draft :=
  (start.takeAll (lexer.scan branch source).marks.reverse).settle
    (lexer.scan branch source).position

/-- In the beginning nothing is open but the caller's branch, and nothing was read. -/
theorem initial_fresh (branch : Branch) (source : Source) : (initial branch source).Fresh :=
  ⟨rfl, rfl, rfl⟩

/-- A scan is a run from there; this is how the results about runs are applied to lexers. -/
theorem scan_eq (lexer : Lexer) (branch : Branch) (source : Source) :
    lexer.scan branch source = run (lexer.scope source) (initial branch source) := rfl

/-- **The marks of a scan can be assembled**, and at the end no branch is open but the one that
the scan was started in. -/
theorem scan_admits (lexer : Lexer) (branch : Branch) (source : Source) {start : Draft}
    (houter : start.outer = []) :
    start.Admits (lexer.scan branch source).marks.reverse ∧
      (start.takeAll (lexer.scan branch source).marks.reverse).outer = [] := by
  have hstart : Paced start (initial branch source).view := ⟨trivial, by
    show start.outer.length = 0
    rw [houter]
    rfl⟩
  obtain ⟨hdone, hpaced, -⟩ := run_induction (initial_fresh branch source) hstart
    fun _ _ _ _ hstep h => h.step hstep
  rw [← scan_eq lexer] at hdone hpaced
  refine ⟨hpaced.admits, List.length_eq_zero_iff.mp ?_⟩
  have hdepth := hpaced.depth
  rw [show (lexer.scan branch source).view.outer = [] from hdone] at hdepth
  exact hdepth

/-- A scan ends in the branch that it was started in; only a hash may have gathered more. -/
theorem scan_alike (lexer : Lexer) (branch : Branch) (source : Source) :
    branch.Alike (lexer.scan branch source).frame.branch := by
  have hstart : branch.Alike (outermost (initial branch source).view.frame
      (initial branch source).view.outer).branch := .refl branch
  have hsteps : ∀ before after : View, before.Ready → before.halted = false ∨ before.rest = [] →
      Step (lexer.scope source) before after →
      branch.Alike (outermost before.frame before.outer).branch →
      branch.Alike (outermost after.frame after.outer).branch :=
    fun _ _ _ _ hstep h => h.trans hstep.outermost_alike
  obtain ⟨houter, halike, -⟩ := run_induction (initial_fresh branch source)
    (P := fun view => branch.Alike (outermost view.frame view.outer).branch) hstart hsteps
  rw [scan_eq]
  simpa only [State.view, houter, outermost] using halike

end Lexer
end StyleLex
