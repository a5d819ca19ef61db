/-
# The main loop, turn by turn

`Scan.steps` gives the main loop a number of steps to make.  The loop itself has no such number: it
makes one step after the other until it is finished, and `Turns` is that loop, with the number of
its turns counted and not given.  Here it is shown that the loop comes to an end, and after how many
turns (`exists_turns`): three for each byte, and one more.

Each turn does one of four things (`Move`).  It takes bytes, or else it opens or closes a branch
that begins and ends between bytes, or it halts.  That the last three cannot go on for ever is the
matter of `View.cost`.  When the loop is done, nothing of the range is left, unless it halted; and
it halts only in a name that the caller has opened (`View.Turning`).

The loop as a relation is there for the reader: it has no bound that could cut it off, so that a
statement about it says what the loop does and not what is left of it after so many steps.
`Scan.steps` is the same loop with a bound, and the two are tied together by showing that the bound
is never reached.

A turn that takes no byte has to be paid for by one that does.  A branch that begins between bytes
has nothing to close until something of it was read, so a byte that is taken pays for two such turns
beside its own.  The one turn more is a branch that opens before anything was taken.
-/
import StyleLex.Proofs.Scan.Cutting
import StyleLex.Proofs.Scan.Reading

namespace StyleLex

/-- The branches that begin between bytes. -/
def Branch.beginsBetween : Branch → Bool
  | identifier _ | quasi _ | annotation _ _ => true
  | _ => false

namespace Scan

/-! ## 1. Turns

`Move` is what can be said of a turn by somebody who sees the view before and the view behind it.
It is coarser than `Step`: which leaf was read does not matter here, nor in which context. -/

/-- What a turn may do. -/
inductive Move (view : View) : View → Prop where
  /-- It takes at least one byte. -/
  | takes {after : View} (further : view.position.byte < after.position.byte) : Move view after
  /-- It opens an identifier, an interpolation or an annotation. -/
  | opens {branch : Branch} (between : branch.beginsBetween = true) :
      Move view (view.openBranch branch)
  /-- It closes a name, an interpolation or an annotation. -/
  | closes {branch : Branch} {valid : Bool} {around : Frame} {further : List Frame}
      (outer : view.outer = around :: further) (alike : view.frame.branch.Alike branch)
      (narrow : branch.isNarrow = true) :
      Move view (view.closeBranch branch valid around further)
  /-- It halts, in a name that the caller has opened. -/
  | halts (name : view.frame.branch.isName = true) (outer : view.outer = []) :
      Move view { view with halted := true }

/-- **The main loop**: as long as it is not finished, it makes a step.  `Turns scope n before after`
holds if it makes `n` of them from `before` and is finished in `after`. -/
inductive Turns (scope : Scope) : Nat → State → State → Prop where
  | done {state : State} (finished : state.finished = true) : Turns scope 0 state state
  | turn {n : Nat} {state last : State} (running : state.finished = false)
      (move : Move state.view (readNext scope state).view)
      (rest : Turns scope n (readNext scope state) last) : Turns scope (n + 1) state last

variable {scope : Scope} {view after : View} {state reached : State}

/-! ## 2. What a turn does

Every constructor of `Step` is one of the four moves; which one depends on how many bytes it takes.
-/

/-- A branch without an opener, other than a root, begins between bytes. -/
theorem beginsBetween_of_openerLength {branch : Branch} (h : branch.openerLength = 0)
    (hroot : branch ≠ .root) : branch.beginsBetween = true := by
  cases branch with
  | root => exact absurd rfl hroot
  | identifier value => rfl
  | quasi form => rfl
  | annotation form placement => rfl
  | _ => cases h

/-- Taking bytes that are there moves on. -/
theorem lt_byte_consume {before : View} {n : Nat} (ahead : view.rest ≠ []) (hn : 0 < n)
    (hrest : before.rest = view.rest) (hposition : before.position = view.position) :
    view.position.byte < (before.consume scope n).position.byte := by
  have hlength : 0 < view.rest.length := List.length_pos_iff.mpr ahead
  rw [View.byte_consume, hposition, hrest]
  omega

/-- **A step with bytes ahead is a turn.**  What takes no byte is what begins or ends between
bytes. -/
theorem Step.move (h : Step scope view after) (ahead : view.rest ≠ []) : Move view after := by
  cases h with
  | leaf _ positive => exact .takes (lt_byte_consume ahead positive rfl rfl)
  | grow => exact .takes (lt_byte_consume ahead Nat.one_pos rfl rfl)
  | @opened branch _ proper =>
    rcases Nat.eq_zero_or_pos branch.openerLength with hzero | hpos
    · rw [hzero, View.consume_zero]
      exact .opens (beginsBetween_of_openerLength hzero proper)
    · exact .takes (lt_byte_consume ahead hpos rfl rfl)
  | @closed branch valid n around further outer alike ends =>
    -- with bytes ahead, only names and fragments close without taking any
    rcases Nat.eq_zero_or_pos n with rfl | hpos
    · rw [View.consume_zero]
      refine .closes outer alike ?_
      rcases ends.narrow ahead with hname | ⟨hfragment, -⟩
      · simp [Branch.isNarrow, hname]
      · simp [Branch.isNarrow, hfragment]
    · exact .takes (lt_byte_consume ahead hpos rfl rfl)
  | halted name outer => exact .halts name outer

/-! ## 3. The loop ends

The cost of a view is a bound on the turns that are left.  It falls with every turn, which was
shown where it is defined; here it becomes the number of turns. -/

/-- **The main loop comes to its end**, after no more turns than the view may cost.  By induction on
that bound; a halt costs nothing, but it is the last turn. -/
theorem exists_turns (scope : Scope) (n : Nat) (state : State) (hready : state.view.Ready)
    (hcost : state.view.cost ≤ n) : ∃ m ≤ n, Turns scope m state (steps scope m state) := by
  induction n generalizing state with
  | zero =>
    have hrest : state.rest.length = 0 := by
      have : 3 * state.rest.length + state.view.weight ≤ 0 := hcost
      omega
    exact ⟨0, Nat.le_refl 0,
      .done (finished_iff.mpr (Or.inl (List.length_eq_zero_iff.mp hrest)))⟩
  | succ n ih =>
    cases hfinished : state.finished with
    | true => exact ⟨0, Nat.zero_le _, .done hfinished⟩
    | false =>
      obtain ⟨ahead, hrun⟩ := running_iff.mp hfinished
      have hstep := readNext_step scope ahead
      rcases hstep.cost_lt hready ahead with hlt | hhalted
      · obtain ⟨m, hm, hturns⟩ := ih (readNext scope state)
          (hready.step (Or.inl hrun) hstep) (by omega)
        refine ⟨m + 1, Nat.succ_le_succ hm, ?_⟩
        rw [steps_of_running scope m hfinished]
        exact .turn hfinished (hstep.move ahead) hturns
      · refine ⟨1, Nat.succ_le_succ (Nat.zero_le n), ?_⟩
        rw [steps_of_running scope 0 hfinished]
        exact .turn hfinished (hstep.move ahead) (.done (finished_iff.mpr (Or.inr hhalted)))

/-- Where the loop ends, it is finished. -/
theorem Turns.finished {n : Nat} (h : Turns scope n state reached) : reached.finished = true := by
  induction h with
  | done finished => exact finished
  | turn _ _ _ ih => exact ih

/-- A loop that has nothing to do makes no turn. -/
theorem Turns.eq_zero {n : Nat} (h : Turns scope n state reached)
    (hfinished : state.finished = true) : n = 0 := by
  cases h with
  | done => rfl
  | turn running =>
    rw [hfinished] at running
    cases running

/-! ## 4. Where the loop ends

There are three reasons to stop: the range is used up, it was empty to begin with, or the scan
halted.  Where a call begins behind its bound its range is empty, and the loop stays where it is. -/

/-- What holds between turns of a scan in `base`: the scan is within its range, and if it has
halted, it has done so in `base`, which is a name. -/
structure View.Turning (first last : Nat) (base : Branch) (view : View) : Prop where
  within : view.Within first last
  caller : base.Alike (outermost view.frame view.outer).branch
  halted : view.halted = true → view.outer = [] ∧ base.isName = true

/-- A step keeps it. -/
theorem View.Turning.step {first last : Nat} {base : Branch} (h : view.Turning first last base)
    (hrun : view.halted = false) (hstep : Step scope view after) :
    after.Turning first last base := by
  refine ⟨h.within.step hstep, h.caller.trans hstep.outermost_alike, ?_⟩
  intro hhalted
  cases hstep with
  | halted name outer =>
    refine ⟨outer, ?_⟩
    have hcaller := h.caller
    rw [outer, outermost] at hcaller
    rw [hcaller.isName_eq, name]
  | leaf | grow | opened | closed =>
    have hview : view.halted = true := hhalted
    rw [hrun] at hview
    cases hview

end Scan

namespace Lexer

open Scan

/-- Where the main loop of a call ends. -/
def reached (lexer : Lexer) (branch : Branch) (source : Source) : State :=
  steps (lexer.scope source) (stepLimit source.range.length) (initial branch source)

/-- Behind the main loop, a call only closes what is still open. -/
theorem scan_reached (lexer : Lexer) (branch : Branch) (source : Source) :
    lexer.scan branch source =
      closeAll (lexer.reached branch source).outer.length (lexer.reached branch source) := rfl

/-- Where the loop ends, it holds as well. -/
theorem reached_turning (lexer : Lexer) (branch : Branch) (source : Source) :
    (lexer.reached branch source).view.Turning source.start.byte source.finish branch := by
  have hfirst : (initial branch source).view.Turning source.start.byte source.finish branch := by
    refine ⟨⟨Nat.le_refl _, source.length_range, ?_⟩, .refl _, ?_⟩
    · intro mark hmark
      cases hmark
    · intro hhalted
      cases hhalted
  exact (steps_induction (fun _ _ _ hrun _ hstep h => h.step hrun hstep) _ _
    (initial_fresh branch source).ready hfirst).2

/-- The loop leaves nothing of the range, unless it halts in a name that the caller has opened. -/
theorem reached_cases (lexer : Lexer) (branch : Branch) (source : Source) :
    ((lexer.reached branch source).halted = false ∧
      (lexer.reached branch source).position.byte = source.finish) ∨
    ((lexer.reached branch source).halted = true ∧
      (lexer.reached branch source).outer = [] ∧ branch.isName = true) := by
  have hturning := lexer.reached_turning branch source
  have hfinished : (lexer.reached branch source).finished = true :=
    (initial_fresh branch source).finished (lexer.scope source)
  cases hhalted : (lexer.reached branch source).halted with
  | true => exact Or.inr ⟨rfl, hturning.halted hhalted⟩
  | false =>
    have hrest : (lexer.reached branch source).view.rest = [] := by
      rcases finished_iff.mp hfinished with hrest | htrue
      · exact hrest
      · rw [hhalted] at htrue
        cases htrue
    have hupper := hturning.within.upper
    rw [hrest] at hupper
    exact Or.inl ⟨rfl, hupper⟩

/-- **The main loop ends after so many turns**: three for each byte of the range and one more, and
none if there is no byte. -/
theorem exists_turns_reached (lexer : Lexer) (branch : Branch) (source : Source) :
    ∃ n, Turns (lexer.scope source) n (initial branch source) (lexer.reached branch source) ∧
      n ≤ 3 * source.range.length + 1 ∧ (source.range = [] → n = 0) := by
  have hready := (initial_fresh branch source).ready
  have hcost : (initial branch source).view.cost ≤ 3 * source.range.length + 1 := by
    have hweight : (initial branch source).view.weight ≤ 1 := by
      unfold View.weight
      split
      · simp [State.view, initial]
      · exact Nat.le_refl 1
    exact Nat.add_le_add_left hweight _
  obtain ⟨n, hn, hturns⟩ := exists_turns (lexer.scope source) _ _ hready hcost
  have heq : steps (lexer.scope source) n (initial branch source) = lexer.reached branch source :=
    steps_unique hturns.finished ((initial_fresh branch source).finished _)
  rw [heq] at hturns
  refine ⟨n, hturns, hn, ?_⟩
  intro hrange
  exact hturns.eq_zero (finished_iff.mpr (Or.inl hrange))

/-- **A scan ends, in linearly many turns.**  Whatever branch it is started in, wherever it begins
and whatever its bound, its main loop makes at most three turns for each byte in front of the bound
and one more, and none if there is no byte.  Each turn takes a byte, opens or closes a branch that
begins or ends between bytes, or halts.  Then the loop stands at the bound, or where it began if
that is behind the bound, unless it has halted in a name that the caller has opened. -/
theorem scan_turns (lexer : Lexer) (branch : Branch) (source : Source) :
    ∃ (n : Nat) (last : State), Turns (lexer.scope source) n (initial branch source) last ∧
      lexer.scan branch source = closeAll last.outer.length last ∧
      (source.start.byte < source.limit →
        n ≤ 3 * (source.limit - source.start.byte) + 1) ∧
      (source.limit ≤ source.start.byte → n = 0) ∧
      (last.halted = false ∧ last.position.byte = max source.start.byte source.limit ∨
        last.halted = true ∧ last.outer = [] ∧ branch.isName = true) := by
  obtain ⟨n, hturns, hbound, hnone⟩ := lexer.exists_turns_reached branch source
  have hlength := source.length_range
  rw [Source.finish] at hlength
  refine ⟨n, lexer.reached branch source, hturns, lexer.scan_reached branch source, ?_, ?_,
    lexer.reached_cases branch source⟩
  · intro hlt
    omega
  · intro hle
    exact hnone (List.length_eq_zero_iff.mp (by omega))

/-- A scan of nothing that begins behind the bound, at one, stays there: its main loop makes no turn
and does not halt, and it does not stand at the bound, which is zero. -/
theorem scan_behind_bound :
    Turns (scope ⟨Dialect.standard, Fragments.empty⟩
        { bytes := #[], start := ⟨⟨1, 1⟩, ⟨1, 1⟩, 0⟩ }) 0
      (initial .root { bytes := #[], start := ⟨⟨1, 1⟩, ⟨1, 1⟩, 0⟩ })
      (reached ⟨Dialect.standard, Fragments.empty⟩ .root
        { bytes := #[], start := ⟨⟨1, 1⟩, ⟨1, 1⟩, 0⟩ }) ∧
    (reached ⟨Dialect.standard, Fragments.empty⟩ .root
      { bytes := #[], start := ⟨⟨1, 1⟩, ⟨1, 1⟩, 0⟩ }).halted = false ∧
    (reached ⟨Dialect.standard, Fragments.empty⟩ .root
      { bytes := #[], start := ⟨⟨1, 1⟩, ⟨1, 1⟩, 0⟩ }).position.byte = 1 ∧
    Source.limit { bytes := #[], start := ⟨⟨1, 1⟩, ⟨1, 1⟩, 0⟩ } = 0 := by
  refine ⟨.done ?_, ?_, ?_, ?_⟩
  · rfl
  · rfl
  · rfl
  · rfl

end Lexer
end StyleLex
