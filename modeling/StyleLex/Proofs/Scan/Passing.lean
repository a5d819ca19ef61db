/-
# Where a scan passes

Between two items of the root the scan stood in the root: it stood there with all items up to the
first one complete, and began another child next (`Passes`).  So it did before the first item, and
the last one ends where the scan does (`Lexer.exists_passes`, `Lexer.exists_passes_next`).

The lemmas about cuts need a state of the scan that stands in the root with nothing open, whereas
what is known of a finished tree are its items.  This module leads from the items back to such
states.  A child of the root is added to its items when the next one begins, and for that step the
scan had to stand in the root.  So an item at the front of the finished list was added by one
particular step, and the state before this step is the one that passes it.

The last item is added by no step, since nothing begins behind it; it is completed at the end of the
input, where no cut is made.
-/
import StyleLex.Proofs.Extension
import StyleLex.Proofs.Scan.Cutting
import StyleLex.Proofs.Scan.Layout

namespace StyleLex

/-! ## 1. The branch that a draft was started in

Only a mark that is made in the root changes the items of the root.  Everything else is read inside
another branch, and becomes part of an item that is not complete yet. -/

namespace Draft

/-- The outermost of some open branches. -/
def outermost : Frame → List Frame → Frame
  | frame, [] => frame
  | _, around :: further => outermost around further

/-- The branch that the draft was started in. -/
def base (draft : Draft) : Frame := outermost draft.frame draft.outer

/-- With nothing open, the innermost branch is the one that the draft was started in. -/
theorem base_of_outer {draft : Draft} (h : draft.outer = []) : draft.base = draft.frame := by
  rw [base, h, outermost]

/-- What is read inside another branch is not one of its children yet. -/
theorem base_take {draft : Draft} (h : draft.outer ≠ []) (mark : Mark) :
    (draft.take mark).base = draft.base := by
  obtain ⟨around, further, houter⟩ := List.exists_cons_of_ne_nil h
  cases mark with
  | leaf leaf valid start =>
    show outermost (draft.settle start).frame (draft.settle start).outer = _
    rw [outer_settle, base, houter]
    rfl
  | opened branch start =>
    show outermost _ ((draft.settle start).frame :: (draft.settle start).outer) = _
    rw [outer_settle, base, houter]
    rfl
  | closed branch valid stop =>
    rw [take_closed houter, base, base, houter]
    rfl

end Draft

namespace Scan

variable {scope : Scope} {input : List UInt8} {view after : View} {state : State} {start : Draft}

/-- A step that makes a mark in the branch that the scan was started in begins a child there, and
adds the one before. -/
theorem Step.base_of_mark (h : Step scope view after) (hpaced : Paced start view)
    (houter : view.outer = []) (hmark : after.marks ≠ view.marks) :
    view.rest ≠ [] ∧
      (after.draft start).base.done = ((view.draft start).settle view.position).frame.done := by
  have hdraft : (view.draft start).outer = [] := by
    refine List.length_eq_zero_iff.mp (hpaced.depth.trans ?_)
    rw [houter]
    rfl
  cases h with
  | leaf ahead =>
    refine ⟨ahead, ?_⟩
    rw [draft_consume, draft_addLeaf, Draft.base_of_outer]
    · rfl
    · exact (Draft.outer_settle _ _).trans hdraft
  | grow => exact absurd rfl hmark
  | opened ahead =>
    refine ⟨ahead, ?_⟩
    rw [draft_consume, draft_openBranch]
    show (Draft.outermost _ (_ :: ((view.draft start).settle view.position).outer)).done = _
    rw [Draft.outer_settle, hdraft]
    rfl
  | closed outer =>
    rw [houter] at outer
    cases outer
  | halted => exact absurd rfl hmark

/-- A step adds no child to the branch that the scan was started in, or it is made there and begins
a child. -/
theorem Step.base (h : Step scope view after) (hpaced : Paced start view) :
    (after.draft start).base.done = (view.draft start).base.done ∨
      view.outer = [] ∧ after.marks ≠ view.marks := by
  by_cases hmark : after.marks = view.marks
  · exact Or.inl (by rw [View.draft, View.draft, hmark])
  by_cases houter : view.outer = []
  · exact Or.inr ⟨houter, hmark⟩
  have hdraft : (view.draft start).outer ≠ [] := by
    intro hnil
    have hdepth := hpaced.depth
    rw [hnil] at hdepth
    exact houter (List.length_eq_zero_iff.mp hdepth.symm)
  refine Or.inl ?_
  cases h with
  | leaf => rw [draft_consume, draft_addLeaf, Draft.base_take hdraft]
  | grow => rfl
  | opened => rw [draft_consume, draft_openBranch, Draft.base_take hdraft]
  | closed => rw [draft_consume, draft_closeBranch, Draft.base_take hdraft]
  | halted => rfl

/-! ## 2. Passing

`Passes` gathers what is known of the state before a child of the root begins: where it stands, what
was read, and that it will make a mark.  The induction of `exists_passes` is on the number of turns,
from the last one backwards, until the turn is found that added the item. -/

/-- The state stands in the root where some items are complete that were read so far, and begins a
child next. -/
structure Passes (scope : Scope) (input : List UInt8) (start : Draft) (state : State)
    (front : List Item) : Prop where
  outer : state.outer = []
  root : state.frame.branch = .root
  rest : state.rest = input.drop state.position.byte
  done : ((state.view.draft start).settle state.position).frame.done = front
  pending : state.frame.pending = front.getLast?.map (·.label.kind)
  place : state.position.byte = (front.getLast?.map (·.label.span.stop.byte)).getD 0
  running : state.finished = false
  mark : (readNext scope state).marks ≠ state.marks

/-- The last turn of several. -/
theorem steps_last (scope : Scope) (n : Nat) (state : State) :
    steps scope (n + 1) state =
      if (steps scope n state).finished then steps scope n state
      else readNext scope (steps scope n state) := by
  rw [steps_add scope n 1, steps]
  rfl

/-- A scan that stands in the root and begins a child passes what it has read. -/
theorem passes_of_mark (hlaid : state.view.Laid scope.dialect input start)
    (houter : state.outer = []) (hrunning : state.finished = false)
    (hmark : (readNext scope state).marks ≠ state.marks) :
    Passes scope input start state
      ((state.view.draft start).settle state.position).frame.done := by
  have hstacked := hlaid.stacked
  rw [show state.view.outer = [] from houter] at hstacked
  cases hbeyond : (state.view.draft start).outer with
  | cons surround beyond =>
    rw [hbeyond] at hstacked
    exact hstacked.elim
  | nil =>
    rw [hbeyond] at hstacked
    obtain ⟨hfills, hroot, hbegan⟩ := hstacked
    have habut := hfills.abut
    rw [hroot, hbegan] at habut
    exact ⟨houter, hroot, hlaid.rest, rfl, hlaid.last, habut.eq_end, hrunning, hmark⟩

/-- The main loop keeps the draft laid out and in step. -/
theorem steps_laid (hready : state.view.Ready)
    (hlaid : state.view.Laid scope.dialect input start) (hpaced : Paced start state.view) (n : Nat) :
    (steps scope n state).view.Ready ∧
      (steps scope n state).view.Laid scope.dialect input start ∧
        Paced start (steps scope n state).view :=
  steps_induction
    (fun _ _ hready _ _ hstep (h : View.Laid scope.dialect input start _ ∧ Paced start _) =>
      ⟨h.1.step hready hstep, h.2.step hstep⟩)
    n state hready ⟨hlaid, hpaced⟩

/-- **Where a child of the root was completed, the scan passed it.** -/
theorem exists_passes (hready : state.view.Ready)
    (hlaid : state.view.Laid scope.dialect input start) (hpaced : Paced start state.view)
    {first : List Item} (hfirst : (state.view.draft start).base.done = first) (more : List Item)
    {item : Item} :
    ∀ (n : Nat) (back : List Item),
      ((steps scope n state).view.draft start).base.done = first ++ more ++ item :: back →
      ∃ m, Passes scope input start (steps scope m state) (first ++ more ++ [item]) := by
  intro n
  induction n with
  | zero =>
    intro back hitems
    have hlength := congrArg List.length (hfirst.symm.trans hitems)
    simp at hlength
  | succ n ih =>
    intro back hitems
    obtain ⟨-, hlaid', hpaced'⟩ := steps_laid hready hlaid hpaced n
    rw [steps_last] at hitems
    cases hfinished : (steps scope n state).finished with
    | true =>
      rw [hfinished, if_pos rfl] at hitems
      exact ih back hitems
    | false =>
      rw [hfinished, if_neg Bool.false_ne_true] at hitems
      obtain ⟨ahead, -⟩ := running_iff.mp hfinished
      have hstep := readNext_step scope ahead
      -- a turn that adds nothing is passed over; one that does adds the item or a later one
      rcases hstep.base hpaced' with hsame | ⟨houter, hmark⟩
      · exact ih back (hsame ▸ hitems)
      · have hdone := (hstep.base_of_mark hpaced' houter hmark).2.symm.trans hitems
        have hbase : ((steps scope n state).view.draft start).base =
            ((steps scope n state).view.draft start).frame := by
          refine Draft.base_of_outer (List.length_eq_zero_iff.mp (hpaced'.depth.trans ?_))
          rw [houter]
          rfl
        have hsettled := hdone
        rw [Draft.done_frame_settle] at hsettled
        cases hpending : ((steps scope n state).view.draft start).pending with
        | none =>
          rw [Draft.loose_of_none hpending, List.map_nil, List.append_nil] at hsettled
          exact ih back (hbase ▸ hsettled)
        | some found =>
          rw [Draft.loose_of_some hpending, List.map_singleton] at hsettled
          rcases List.eq_nil_or_concat back with rfl | ⟨back, last, rfl⟩
          · exact ⟨n, hdone ▸ passes_of_mark hlaid' houter hfinished hmark⟩
          · -- the child that is added here comes later
            rw [List.concat_eq_append, ← List.cons_append, ← List.append_assoc] at hsettled
            exact ih back (hbase ▸ List.append_inj_left' hsettled rfl)

/-- A scan that passes an item stands where the item ends. -/
theorem Passes.stands {front : List Item} {item : Item}
    (h : Passes scope input start state (front ++ [item])) :
    state.position.byte = item.label.span.stop.byte ∧
      state.frame.pending = some item.label.kind := by
  have hplace := h.place
  have hpending := h.pending
  rw [List.getLast?_concat] at hplace hpending
  exact ⟨hplace, hpending⟩

/-- From where a scan passes, it begins the next child. -/
theorem Passes.base_next {front : List Item} (h : Passes scope input start state front)
    (hpaced : Paced start state.view) :
    ((readNext scope state).view.draft start).base.done = front := by
  obtain ⟨ahead, -⟩ := running_iff.mp h.running
  rw [← h.done]
  exact ((readNext_step scope ahead).base_of_mark hpaced h.outer h.mark).2

/-- What closes at the end of the input adds no child to the root. -/
theorem base_closeAll (scope : Scope) (hready : state.view.Ready) (hrest : state.rest = [])
    (hpaced : Paced start state.view) :
    ((closeAll state.outer.length state).view.draft start).base.done =
      (state.view.draft start).base.done := by
  have hclose : ∀ before after : State, before.view.Ready → before.rest = [] →
      before.closeAtEnd? = some after →
      Paced start before.view ∧
        (before.view.draft start).base.done = (state.view.draft start).base.done →
      Paced start after.view ∧
        (after.view.draft start).base.done = (state.view.draft start).base.done := by
    intro before after _ hnil hclosed h
    have hstep := closeAtEnd?_step scope hnil hclosed
    refine ⟨h.1.step hstep, ?_⟩
    rcases hstep.base h.1 with hsame | ⟨houter, hmark⟩
    · exact hsame.trans h.2
    · exact absurd hnil (hstep.base_of_mark h.1 houter hmark).1
  obtain ⟨-, -, -, hbase⟩ := closeAll_ready scope hclose state.outer.length state hready hrest rfl
    ⟨hpaced, rfl⟩
  exact hbase

end Scan

/-! ## 3. Whole scans

The same for the scan of a whole source from its first byte, which begins in the root with nothing
read. -/

namespace Lexer

open Scan

/-- The draft with which the tree of a source begins. -/
def blank (source : Source) : Draft :=
  Draft.into (Tree.new source.filename source.start) Tree.root (rootOf source)

variable {source : Source} {front back : List Item} {item : Item}

/-- The main loop over a source keeps the draft laid out and in step. -/
theorem steps_laid (lexer : Lexer) (source : Source) (hfirst : source.start = Position.origin)
    (n : Nat) :
    (steps (lexer.scope source) n (initial .root source)).view.Ready ∧
      (steps (lexer.scope source) n (initial .root source)).view.Laid lexer.dialect source.range
        (blank source) ∧
      Paced (blank source) (steps (lexer.scope source) n (initial .root source)).view := by
  have hspan : (blank source).frame.origin.span = Span.point Position.origin := by
    rw [← hfirst]
    rfl
  exact Scan.steps_laid (initial_fresh .root source).ready
    (initial_laid lexer.dialect source hfirst (blank source) rfl rfl rfl hspan) ⟨trivial, rfl⟩ n

/-- At the end of the main loop all items but the last one are complete. -/
theorem base_of_items (lexer : Lexer) (hfirst : source.start = Position.origin)
    (hitems : lexer.items source = front ++ item :: back) (hback : back ≠ []) :
    ∃ back, ((steps (lexer.scope source) (stepLimit (initial .root source).rest.length)
      (initial .root source)).view.draft (blank source)).base.done = front ++ item :: back := by
  obtain ⟨hready, hlaid, hpaced⟩ := lexer.steps_laid source hfirst
    (stepLimit (initial .root source).rest.length)
  have hrest : (steps (lexer.scope source) (stepLimit (initial .root source).rest.length)
      (initial .root source)).rest = [] := by
    rcases finished_iff.mp ((initial_fresh .root source).finished (lexer.scope source)) with
      hrest | hhalted
    · exact hrest
    · have hrunning := hlaid.running
      rw [show View.halted _ = true from hhalted] at hrunning
      cases hrunning
  have houter : ((lexer.scan .root source).view.draft (blank source)).outer = [] :=
    (lexer.scan_admits .root source rfl).2
  have hbase : ((lexer.scan .root source).view.draft (blank source)).base.done =
      ((steps (lexer.scope source) (stepLimit (initial .root source).rest.length)
        (initial .root source)).view.draft (blank source)).base.done :=
    base_closeAll (lexer.scope source) hready hrest hpaced
  rw [Draft.base_of_outer houter] at hbase
  rw [← hbase]
  have hdone : (((lexer.scan .root source).view.draft (blank source)).settle
      (lexer.scan .root source).position).frame.done = front ++ item :: back := hitems
  rw [Draft.done_frame_settle] at hdone
  cases hpending : ((lexer.scan .root source).view.draft (blank source)).pending with
  | none =>
    rw [Draft.loose_of_none hpending, List.map_nil, List.append_nil] at hdone
    exact ⟨back, hdone⟩
  | some found =>
    obtain ⟨back, last, rfl⟩ := (List.eq_nil_or_concat back).resolve_left hback
    rw [Draft.loose_of_some hpending, List.map_singleton, List.concat_eq_append, ← List.cons_append,
      ← List.append_assoc] at hdone
    exact ⟨back, List.append_inj_left' hdone rfl⟩

/-- In a root with nothing read, every step begins a child. -/
theorem mark_of_initial (lexer : Lexer) (hrest : source.range ≠ []) :
    (readNext (lexer.scope source) (initial .root source)).marks ≠ [] := by
  have hstep : Step (lexer.scope source) (initial .root source).view
      (readNext (lexer.scope source) (initial .root source)).view := readNext_step _ hrest
  generalize hnext : (readNext (lexer.scope source) (initial .root source)).view = next at hstep
  rw [show (readNext _ _).marks = next.marks from congrArg View.marks hnext]
  cases hstep with
  | leaf | opened => exact List.cons_ne_nil _ _
  | grow _ run => rcases run with hraw | hunexpected <;> contradiction
  | closed outer => cases outer
  | halted name => cases name

/-- **The scan of a source passes between its items**, and so it begins. -/
theorem exists_passes (lexer : Lexer) (hfirst : source.start = Position.origin)
    (hitems : lexer.items source = front ++ back) (hback : back ≠ []) :
    ∃ m, Passes (lexer.scope source) source.range (blank source)
      (steps (lexer.scope source) m (initial .root source)) front := by
  rcases List.eq_nil_or_concat front with rfl | ⟨front, last, rfl⟩
  · have hspan : (blank source).frame.origin.span = Span.point Position.origin := by
      rw [← hfirst]
      rfl
    obtain ⟨-, -, habut, hlaid⟩ := lexer.scan_laid source hfirst (blank source) rfl rfl rfl hspan
    have hrest : source.range ≠ [] := by
      refine List.ne_nil_of_length_pos (habut.lt
        (fun item hitem => (hlaid item hitem) item (Rose.mem_subtrees_self item)) ?_)
      rw [show (lexer.draft (blank source) .root source).frame.done = back from hitems]
      exact hback
    have hfinished : (initial .root source).finished = false := running_iff.mpr ⟨hrest, rfl⟩
    exact ⟨0, passes_of_mark (lexer.steps_laid source hfirst 0).2.1 rfl hfinished
      (lexer.mark_of_initial hrest)⟩
  · rw [List.concat_eq_append] at hitems ⊢
    rw [List.append_assoc] at hitems
    obtain ⟨further, hbase⟩ := lexer.base_of_items hfirst hitems hback
    obtain ⟨hready, hlaid, hpaced⟩ := lexer.steps_laid source hfirst 0
    exact Scan.exists_passes hready hlaid hpaced rfl front _ further hbase

/-- **And from there it goes on to the end of the next item**, if that is not the last one. -/
theorem exists_passes_next (lexer : Lexer) (hfirst : source.start = Position.origin)
    (hitems : lexer.items source = front ++ item :: back) (hback : back ≠ []) {m : Nat}
    (hpasses : Passes (lexer.scope source) source.range (blank source)
      (steps (lexer.scope source) m (initial .root source)) front) :
    ∃ n, Passes (lexer.scope source) source.range (blank source)
      (steps (lexer.scope source) (n + 1)
        (steps (lexer.scope source) m (initial .root source))) (front ++ [item]) := by
  obtain ⟨further, hbase⟩ := lexer.base_of_items hfirst hitems hback
  have hnext : steps (lexer.scope source) (m + 1) (initial .root source) =
      readNext (lexer.scope source) (steps (lexer.scope source) m (initial .root source)) := by
    rw [steps_last, hpasses.running, if_neg Bool.false_ne_true]
  obtain ⟨hready, hlaid, hpaced⟩ := lexer.steps_laid source hfirst (m + 1)
  rw [← steps_steps (lexer.scope source) (initial_fresh .root source) (m + 1)] at hbase
  rw [hnext] at hready hlaid hpaced hbase
  obtain ⟨n, hthere⟩ := Scan.exists_passes hready hlaid hpaced
    (hpasses.base_next (lexer.steps_laid source hfirst m).2.2) [] _ further
    (by rw [List.append_nil]; exact hbase)
  refine ⟨n, ?_⟩
  rw [steps_of_running _ n hpasses.running]
  rwa [List.append_nil] at hthere

end Lexer
end StyleLex
