/-
# The scan comes to its end

Some steps take no byte: those that open a name or a fragment, and those that close one.  They
cannot follow each other for long, for a name is opened only where its text is ahead, and closed
only after text of it was read.  `View.cost` counts three for every byte ahead, and something for
what the innermost branch may still do without taking one; every step makes it smaller
(`Step.cost_lt`).  So the bound on the steps of a scan suffices (`steps_finished`), and what the
steps preserve holds when the scan is done (`run_induction`).

The weights are chosen by what a branch can still do for free.  An empty name cannot do anything,
so it weighs nothing; one that has text may close, which leads to a branch that is not narrow and
may open another name, so it weighs two; every other branch weighs one.  Opening a name for free
therefore goes from one to nothing, and closing it from two to one.  A byte is worth three, which
is more than any weight.

That an empty name does nothing for free is an invariant and not a property of the branch
(`View.Ready`): a name is opened where its text is ahead, hence it reads some of it before it can
close.  With it, the bound on the number of turns is a plain count (`steps_finished`).

The other half of the module makes inductions over scans available.  `run_states`, `run_ready` and
`run_induction` say that what a turn preserves holds when the scan is done; they differ in what the
turn may assume and in whether states or views are looked at.
-/
import StyleLex.Proofs.Scan.Step

namespace StyleLex
namespace Scan

variable {scope : Scope} {view after : View} {state : State}

/-! ## 1. What holds between steps

`View.Ready` is preserved by every step, from the fresh state on, and so it may be assumed in every
induction over a scan. -/

/-- Names and fragments stand in other branches only. -/
def Nested : List Frame → Prop
  | inner :: around :: further =>
    (inner.branch.isNarrow = true → around.branch.isNarrow = false) ∧ Nested (around :: further)
  | _ => True

/-- A name that is open and empty has text ahead of it, and a fragment has something. -/
structure View.Ready (view : View) : Prop where
  nested : Nested (view.frame :: view.outer)
  text : view.outer ≠ [] → view.frame.branch.isName = true → view.frame.pending = none →
    NameAhead view.rest
  more : view.outer ≠ [] → view.frame.branch.isFragment = true → view.frame.pending = none →
    view.rest ≠ []
  halted : view.halted = true → view.outer = []

/-- Only the kind of the innermost branch matters. -/
theorem Nested.congr {frame frame' : Frame} {outer : List Frame}
    (h : Nested (frame :: outer)) (hnarrow : frame.branch.isNarrow = frame'.branch.isNarrow) :
    Nested (frame' :: outer) := by
  cases outer with
  | nil => trivial
  | cons around further => exact ⟨fun hn => h.1 (hnarrow ▸ hn), h.2⟩

/-- What holds of all open branches holds of those around the innermost one. -/
theorem Nested.tail {frame : Frame} {outer : List Frame} (h : Nested (frame :: outer)) :
    Nested outer := by
  cases outer with
  | nil => trivial
  | cons around further => exact h.2

/-- **Every step keeps a view ready.** -/
theorem View.Ready.step (h : view.Ready) (hrun : view.halted = false ∨ view.rest = [])
    (hstep : Step scope view after) : after.Ready := by
  cases hstep with
  | leaf _ _ alike _ =>
    refine ⟨h.nested.congr alike.isNarrow_eq, ?_, ?_, h.halted⟩
    · intro _ _ hpending
      cases hpending
    · intro _ _ hpending
      cases hpending
  | grow _ run =>
    have hpending : view.frame.pending ≠ none := by
      rcases run with hrun | hrun <;> simp [hrun]
    refine ⟨h.nested, ?_, ?_, h.halted⟩
    · intro _ _ hnone
      exact absurd hnone hpending
    · intro _ _ hnone
      exact absurd hnone hpending
  | @opened branch ahead _ _ inside begins =>
    refine ⟨⟨inside, h.nested.congr rfl⟩, ?_, ?_, ?_⟩
    · intro _ hname _
      exact begins hname
    · intro _ hfragment _
      have hzero : branch.openerLength = 0 := Branch.openerLength_of_isFragment hfragment
      show view.rest.drop branch.openerLength ≠ []
      rw [hzero]
      exact ahead
    · intro hhalted
      -- a view that has halted makes no step before a byte
      rcases hrun with hrun | hrun
      · rw [show view.halted = true from hhalted] at hrun
        cases hrun
      · exact absurd hrun ahead
  | closed outer _ _ _ =>
    have hnested := h.nested.tail
    rw [outer] at hnested
    refine ⟨hnested.congr rfl, ?_, ?_, ?_⟩
    · intro _ _ hpending
      cases hpending
    · intro _ _ hpending
      cases hpending
    · intro hhalted
      rw [h.halted hhalted] at outer
      cases outer
  | halted _ outer =>
    exact ⟨h.nested, h.text, h.more, fun _ => outer⟩

/-! ## 2. The cost of a scan

The cost is a bound on the steps that are left.  It is compared before and after a step by cases on
the step; only those that take no byte need an argument. -/

/-- What the innermost branch may still do without taking a byte. -/
def View.weight (view : View) : Nat :=
  if view.frame.branch.isNarrow then (if view.frame.pending = none then 0 else 2) else 1

/-- A bound on the steps that are left, halting apart. -/
def View.cost (view : View) : Nat := 3 * view.rest.length + view.weight

/-- No branch may do more than two things for free. -/
theorem View.weight_le (view : View) : view.weight ≤ 2 := by
  unfold View.weight
  split
  · split <;> decide
  · decide

/-- Taking a byte pays for anything. -/
theorem View.cost_consume_lt {before : View} {n : Nat} (ahead : view.rest ≠ []) (hn : 0 < n)
    (hrest : before.rest = view.rest) : (before.consume scope n).cost < view.cost := by
  have hweight := (before.consume scope n).weight_le
  have hlength : 0 < view.rest.length := List.length_pos_iff.mpr ahead
  have hdrop : (before.consume scope n).rest.length = view.rest.length - n := by
    show (before.rest.drop n).length = _
    rw [hrest, List.length_drop]
  unfold View.cost
  omega

/-- **Every step but a halt lowers the cost.** -/
theorem Step.cost_lt (h : Step scope view after) (hready : view.Ready) (ahead : view.rest ≠ []) :
    after.cost < view.cost ∨ after.halted = true := by
  cases h with
  | leaf _ positive => exact Or.inl (View.cost_consume_lt ahead positive rfl)
  | grow => exact Or.inl (View.cost_consume_lt ahead Nat.one_pos rfl)
  | @opened branch _ proper _ inside _ =>
    refine Or.inl ?_
    -- a branch with an opener pays with a byte; one without is narrow, and the branch around it is
    -- not
    by_cases hzero : branch.openerLength = 0
    · have hnarrow : branch.isNarrow = true := by
        rw [Branch.isNarrow, Bool.or_eq_true]
        exact Branch.isNarrow_of_openerLength hzero proper
      rw [hzero, View.consume_zero]
      simp only [View.cost, View.weight, View.openBranch, hnarrow, inside hnarrow]
      simp
    · exact View.cost_consume_lt ahead (Nat.pos_of_ne_zero hzero) rfl
  | @closed branch valid n around further outer alike ends complete =>
    refine Or.inl ?_
    -- likewise a closer pays; without one the branch is narrow and has text, so it weighs two
    by_cases hn : n = 0
    · subst hn
      have hpending : view.frame.pending ≠ none := by
        rcases ends.narrow ahead with hname | ⟨-, hlast⟩
        · intro hnone
          exact complete hname
            (hready.text (by simp [outer]) (alike.isName_eq ▸ hname) hnone)
        · exact hlast
      have hnarrow : view.frame.branch.isNarrow = true := by
        rw [alike.isNarrow_eq]
        rcases ends.narrow ahead with hname | ⟨hfragment, -⟩
        · simp [Branch.isNarrow, hname]
        · simp [Branch.isNarrow, hfragment]
      have hnested := hready.nested
      rw [outer] at hnested
      rw [View.consume_zero]
      simp only [View.cost, View.weight, View.closeBranch, hnested.1 hnarrow, hnarrow, hpending]
      simp
    · exact View.cost_consume_lt ahead (Nat.pos_of_ne_zero hn) rfl
  | halted => exact Or.inr rfl

/-! ## 3. The main loop

The loop stops when nothing is left or when the caller's branch has to close.  It has a bound on its
turns, and the first result says that the bound is never what stops it. -/

/-- The two ways in which a scan is over. -/
theorem finished_iff : state.finished = true ↔ state.rest = [] ∨ state.halted = true := by
  simp [State.finished]

/-- Until then there is a byte ahead. -/
theorem running_iff : state.finished = false ↔ state.rest ≠ [] ∧ state.halted = false := by
  simp [State.finished]

/-- **A scan comes to its end in as many steps as it may cost.** -/
theorem steps_finished (scope : Scope) : ∀ (n : Nat) (state : State), state.view.Ready →
    state.view.cost ≤ n → (steps scope n state).finished = true
  | 0, state, _, hcost => by
    have hzero : 3 * state.rest.length + state.view.weight ≤ 0 := hcost
    have hrest : state.rest.length = 0 := by omega
    exact finished_iff.mpr (Or.inl (List.length_eq_zero_iff.mp hrest))
  | n + 1, state, hready, hcost => by
    rw [steps]
    split
    · assumption
    · rename_i hfinished
      obtain ⟨ahead, hrun⟩ := running_iff.mp (Bool.eq_false_iff.mpr hfinished)
      have hstep := readNext_step scope ahead
      -- a step that halts need not lower the cost, but then the next turn is not made
      rcases hstep.cost_lt hready ahead with hlt | hhalted
      · exact steps_finished scope n _ (hready.step (Or.inl hrun) hstep) (by omega)
      · have hdone : (readNext scope state).finished = true := finished_iff.mpr (Or.inr hhalted)
        cases n with
        | zero => exact hdone
        | succ n =>
          rw [steps, if_pos hdone]
          exact hdone

/-- **What every turn of the main loop preserves holds where it stops.** -/
theorem steps_preserves {P : State → Prop}
    (hP : ∀ state, state.rest ≠ [] → state.halted = false → P state → P (readNext scope state)) :
    ∀ (n : Nat) (state : State), P state → P (steps scope n state)
  | 0, _, h => h
  | n + 1, state, h => by
    rw [steps]
    split
    · exact h
    · rename_i hfinished
      obtain ⟨ahead, hrun⟩ := running_iff.mp (Bool.eq_false_iff.mpr hfinished)
      exact steps_preserves hP n _ (hP state ahead hrun h)

/-- What the turns of the main loop preserve may rest on what holds between them. -/
theorem steps_ready {P : State → Prop}
    (hP : ∀ state, state.view.Ready → state.rest ≠ [] → state.halted = false → P state →
      P (readNext scope state))
    (n : Nat) (state : State) (hready : state.view.Ready) (h : P state) :
    (steps scope n state).view.Ready ∧ P (steps scope n state) := by
  refine steps_preserves (P := fun state => state.view.Ready ∧ P state) ?_ n state ⟨hready, h⟩
  intro state ahead hrun hstate
  exact ⟨hstate.1.step (Or.inl hrun) (readNext_step scope ahead),
    hP state hstate.1 ahead hrun hstate.2⟩

/-- What every step preserves holds of every state of the main loop. -/
theorem steps_induction {P : View → Prop}
    (hP : ∀ before after, before.Ready → before.halted = false → before.rest ≠ [] →
      Step scope before after → P before → P after)
    (n : Nat) (state : State) (hready : state.view.Ready) (h : P state.view) :
    (steps scope n state).view.Ready ∧ P (steps scope n state).view :=
  steps_ready (P := fun state => P state.view)
    (fun _ hready ahead hrun h => hP _ _ hready hrun ahead (readNext_step scope ahead) h)
    n state hready h

/-! ## 4. The end of the input

Where the input ends, the branches that are still open are closed from the inside out.  Each of
these is a step as well, so what steps preserve survives the end of the input. -/

/-- At the end of the input no name goes on. -/
theorem not_nameAhead_nil : ¬ NameAhead [] := by
  rintro (h | h) <;> cases h

/-- How the innermost branch closes at the end of the input: it does so if there is one around
it. -/
def ClosesAtEnd (state : State) (result : Option State) : Prop :=
  (result = none ∧ state.outer = []) ∨
    ∃ closed branch valid around further, result = some closed ∧
      state.view.outer = around :: further ∧
      closed.view = state.view.closeBranch branch valid around further ∧
      state.view.frame.branch.Alike branch ∧
      ∀ dialect, Ends dialect branch state.frame.pending [] valid 0

/-- A branch closes if there is one around it; a recovery before it is counted only. -/
theorem closeBranch?_closes {before : State} {valid : Bool} (hbefore : before.view = state.view)
    (ends : ∀ dialect, Ends dialect state.frame.branch state.frame.pending [] valid 0) :
    ClosesAtEnd state (before.closeBranch? valid) := by
  have hframe : before.frame = state.frame := congrArg View.frame hbefore
  cases hclose : before.closeBranch? valid with
  | none =>
    have houter : before.outer = state.outer := congrArg View.outer hbefore
    exact Or.inl ⟨rfl, houter ▸ closeBranch?_eq_none hclose⟩
  | some closed =>
    obtain ⟨around, further, houter, hview⟩ := closeBranch?_eq_some hclose
    rw [hbefore] at houter
    rw [hbefore, hframe] at hview
    exact Or.inr ⟨closed, _, valid, around, further, rfl, houter, hview, .refl _, ends⟩

/-- **The end of the input closes every branch**, each in its own way. -/
theorem closeAtEnd?_closes (state : State) : ClosesAtEnd state state.closeAtEnd? := by
  unfold State.closeAtEnd?
  split
  · rename_i hash hbranch
    rcases closeHash?_eq hbranch with hnone | ⟨closed, around, further, hclosed, houter, hview⟩
    · exact Or.inl hnone
    · refine Or.inr ⟨closed, _, _, around, further, hclosed, houter, hview, ?_, fun _ => .hash⟩
      rw [show state.view.frame.branch = .hash hash from hbranch]
      exact .hash _ _
  · rename_i value hbranch
    exact closeBranch?_closes rfl fun _ => by rw [hbranch]; exact .identifier
  · rename_i hbranch
    exact closeBranch?_closes rfl fun _ => by rw [hbranch]; exact .rootAtEnd
  · rename_i hbranch
    exact closeBranch?_closes rfl fun _ => by rw [hbranch]; exact .lineAtEnd
  · -- all other branches are cut off: they have a closer, or they are fragments
    rename_i hhash hidentifier hroot hline
    have hview : (state.recoverBranch .unterminated).view = state.view := rfl
    refine closeBranch?_closes hview fun _ => .unterminated ?_
    cases hbranch : state.frame.branch with
    | hash hash => exact absurd hbranch (hhash hash)
    | identifier value => exact absurd hbranch (hidentifier value)
    | root => exact absurd hbranch hroot
    | comment form =>
      cases form with
      | line => exact absurd hbranch hline
      | block => exact Or.inl rfl
    | group bracket => exact Or.inl rfl
    | quoted quote => exact Or.inl rfl
    | url => exact Or.inl rfl
    | quasi form => exact Or.inr rfl
    | annotation form placement => exact Or.inr rfl

/-- A branch that closes at the end of the input is a step. -/
theorem closeAtEnd?_step (scope : Scope) {closed : State} (hrest : state.rest = [])
    (h : state.closeAtEnd? = some closed) : Step scope state.view closed.view := by
  rcases closeAtEnd?_closes state with
    ⟨hnone, -⟩ | ⟨found, branch, valid, around, further, hsome, houter, hview, halike, ends⟩
  · rw [hnone] at h
    cases h
  · rw [hsome, Option.some.injEq] at h
    subst h
    rw [hview, ← View.consume_zero scope (View.closeBranch _ _ _ _ _)]
    refine .closed houter halike ?_ fun _ => ?_
    · rw [show state.view.rest = [] from hrest]
      exact ends scope.dialect
    · rw [show state.view.rest = [] from hrest]
      exact not_nameAhead_nil

/-- It closes inside another branch, and reads nothing. -/
theorem closeAtEnd?_inside {closed : State} (h : state.closeAtEnd? = some closed) :
    state.outer ≠ [] ∧ closed.rest = state.rest ∧ closed.halted = state.halted := by
  rcases closeAtEnd?_closes state with ⟨hnone, -⟩ | ⟨found, _, _, _, _, hsome, houter, hview, -⟩
  · rw [hnone] at h
    cases h
  · obtain rfl := Option.some.inj (hsome.symm.trans h)
    refine ⟨?_, congrArg View.rest hview, congrArg View.halted hview⟩
    exact List.ne_nil_of_mem (houter ▸ List.mem_cons_self)

/-- What closing a branch at the end of the input keeps holds when all are closed. -/
theorem closeAll_ready {P : State → Prop} (scope : Scope)
    (hP : ∀ before after, before.view.Ready → before.rest = [] →
      before.closeAtEnd? = some after → P before → P after) :
    ∀ (n : Nat) (state : State), state.view.Ready → state.rest = [] → n = state.outer.length →
      P state →
      (closeAll n state).rest = [] ∧ (closeAll n state).outer = [] ∧ P (closeAll n state)
  | 0, state, _, hrest, hlength, h => ⟨hrest, List.length_eq_zero_iff.mp hlength.symm, h⟩
  | n + 1, state, hready, hrest, hlength, h => by
    rw [closeAll]
    rcases closeAtEnd?_closes state with
      ⟨-, houter⟩ | ⟨closed, branch, valid, around, further, hsome, houter, hview, -, -⟩
    · rw [houter] at hlength
      cases hlength
    · have hclosed : closed.rest = state.rest := congrArg View.rest hview
      have hfurther : closed.outer = further := congrArg View.outer hview
      rw [hsome]
      refine closeAll_ready scope hP n closed
        (hready.step (Or.inr hrest) (closeAtEnd?_step scope hrest hsome)) (hclosed.trans hrest) ?_
        (hP _ _ hready hrest hsome h)
      rw [show state.outer = around :: further from houter, List.length_cons] at hlength
      rw [hfurther]
      omega

/-! ## 5. The whole scan

Three inductions over a scan, from the strongest hypotheses to the fewest: turns and closings of
states, turns and steps of views, steps alone. -/

/-- A scan begins in the caller's branch, with nothing read. -/
structure State.Fresh (state : State) : Prop where
  outer : state.outer = []
  pending : state.frame.pending = none
  halted : state.halted = false

/-- A fresh state is ready: the caller's branch has nothing around it. -/
theorem State.Fresh.ready (h : state.Fresh) : state.view.Ready where
  nested := by
    show Nested (state.frame :: state.outer)
    rw [h.outer]
    trivial
  text := fun hne => absurd h.outer hne
  more := fun hne => absurd h.outer hne
  halted := fun _ => h.outer

/-- The bound on the steps of a scan suffices. -/
theorem State.Fresh.finished (h : state.Fresh) (scope : Scope) :
    (steps scope (stepLimit state.rest.length) state).finished = true := by
  refine steps_finished scope _ state h.ready ?_
  have hweight : state.view.weight ≤ 1 := by
    unfold View.weight
    rw [show state.view.frame.pending = none from h.pending]
    split <;> simp
  show 3 * state.rest.length + state.view.weight ≤ 3 * state.rest.length + 1
  omega

/-- **What the main loop and the end of the input preserve holds when the scan is done**; it is
done when nothing is left, or when the caller's branch has to close. -/
theorem run_states {P : State → Prop} (hfresh : state.Fresh) (hstart : P state)
    (hturn : ∀ state : State, state.view.Ready → state.rest ≠ [] → state.halted = false →
      P state → P (readNext scope state))
    (hclose : ∀ before after : State, before.view.Ready → before.rest = [] →
      before.closeAtEnd? = some after → P before → P after) :
    (run scope state).outer = [] ∧ P (run scope state) ∧
      ((run scope state).rest = [] ∨ (run scope state).halted = true) := by
  have hfinished := hfresh.finished scope
  obtain ⟨hready, hreached⟩ :=
    steps_ready hturn (stepLimit state.rest.length) state hfresh.ready hstart
  unfold run
  generalize steps scope (stepLimit state.rest.length) state = reached at *
  rcases finished_iff.mp hfinished with hrest | hhalted
  · obtain ⟨h₁, h₂, h₃⟩ :=
      closeAll_ready scope hclose reached.outer.length reached hready hrest rfl hreached
    exact ⟨h₂, h₃, Or.inl h₁⟩
  · have houter : reached.outer = [] := hready.halted hhalted
    have hsame : closeAll reached.outer.length reached = reached := by
      rw [houter]
      rfl
    rw [hsame]
    exact ⟨houter, hreached, Or.inr hhalted⟩

/-- What turns and steps preserve of a view. -/
theorem run_ready {P : View → Prop} (hfresh : state.Fresh) (hstart : P state.view)
    (hturn : ∀ state : State, state.view.Ready → state.rest ≠ [] → state.halted = false →
      P state.view → P (readNext scope state).view)
    (hclose : ∀ before after, before.Ready → before.rest = [] → Step scope before after →
      P before → P after) :
    (run scope state).outer = [] ∧ P (run scope state).view ∧
      ((run scope state).rest = [] ∨ (run scope state).halted = true) :=
  run_states (P := fun state => P state.view) hfresh hstart hturn
    fun _ _ hready hrest hclosed h =>
      hclose _ _ hready hrest (closeAtEnd?_step scope hrest hclosed) h

/-- What every step preserves holds when the scan is done. -/
theorem run_induction {P : View → Prop} (hfresh : state.Fresh) (hstart : P state.view)
    (hP : ∀ before after, before.Ready → before.halted = false ∨ before.rest = [] →
      Step scope before after → P before → P after) :
    (run scope state).outer = [] ∧ P (run scope state).view ∧
      ((run scope state).rest = [] ∨ (run scope state).halted = true) :=
  run_ready hfresh hstart
    (fun _ hready ahead hrun h => hP _ _ hready (Or.inl hrun) (readNext_step scope ahead) h)
    fun _ _ hready hrest hstep h => hP _ _ hready (Or.inr hrest) hstep h

/-! ## 6. The caller's branch

No step closes the caller's branch, so it is at the bottom of the stack from the beginning of a scan
to its end. -/

/-- The outermost of some open branches, which is the caller's. -/
def outermost : Frame → List Frame → Frame
  | frame, [] => frame
  | _, around :: further => outermost around further

/-- A step leaves the caller's branch what it is. -/
theorem Step.outermost_alike (h : Step scope view after) :
    (outermost view.frame view.outer).branch.Alike (outermost after.frame after.outer).branch := by
  cases h with
  | @leaf leaf valid branch n ahead positive alike sound =>
    show (outermost view.frame view.outer).branch.Alike (outermost _ view.outer).branch
    -- a leaf changes the innermost branch, which is the caller's if no other is open
    cases view.outer with
    | nil => exact alike
    | cons around further => exact .refl _
  | grow => exact .refl _
  | @opened branch =>
    show (outermost view.frame view.outer).branch.Alike
      (outermost { view.frame with pending := none } view.outer).branch
    cases view.outer with
    | nil => exact .refl _
    | cons around further => exact .refl _
  | @closed branch valid n around further outer =>
    rw [outer]
    show (outermost around further).branch.Alike (outermost _ further).branch
    cases further with
    | nil => exact .refl _
    | cons surround beyond => exact .refl _
  | halted => exact .refl _

end Scan
end StyleLex
