/-
# Places that a scan passes inside a branch

Where does a scan stand outside of all branches?  `Never scope b state` says that it does not where
`b` is all that is left.  A scan that is past the place will not (`Never.of_lt`), and neither will
one that stands there inside a branch that needs a byte to close, inside a name that goes on, or
inside a fragment that has no group yet (`Never.of_barred`): what it can do without taking a byte
does not lead out.

The question comes from cutting a source in two.  Where the first part ends outside of all branches,
its scan is the beginning of the scan of the whole; where it does not, a child is open across the
cut and will be read again.  To decide this for a given place, it is not enough to look at the state
in which the scan arrives there, since steps that take no byte may follow: a name may close, or a
fragment after its group.  The fences are the states from which these free steps do not lead out.

The place is given by the bytes behind it, as everywhere in these modules: a scan knows what is
ahead of it and not how far it has come.
-/
import StyleLex.Proofs.Scan.Progress

namespace StyleLex
namespace Scan

variable {scope : Scope} {b : List UInt8} {view after : View} {state : State}

/-! ## 1. Never

A scan never goes back, so what matters about a place is whether the scan is before it, at it, or
past it. -/

/-- With `b` left, the scan from `state` is always inside a branch. -/
def Never (scope : Scope) (b : List UInt8) (state : State) : Prop :=
  ∀ n, (steps scope n state).rest = b → (steps scope n state).outer ≠ []

/-- A step takes bytes or none, and gives none back. -/
theorem Step.length_le (h : Step scope view after) : after.rest.length ≤ view.rest.length := by
  have hdrop : ∀ n, (view.rest.drop n).length ≤ view.rest.length := by
    intro n
    rw [List.length_drop]
    exact Nat.sub_le _ _
  cases h with
  | leaf => exact hdrop _
  | grow => exact hdrop _
  | opened => exact hdrop _
  | closed => exact hdrop _
  | halted => exact Nat.le_refl _

/-- So do any number of turns. -/
theorem length_steps_le (scope : Scope) (n : Nat) (state : State) :
    (steps scope n state).rest.length ≤ state.rest.length := by
  refine steps_preserves (P := fun after => after.rest.length ≤ state.rest.length) ?_ n state
    (Nat.le_refl _)
  intro before ahead _ h
  exact Nat.le_trans (readNext_step scope ahead).length_le h

/-- A scan that is past a place does not come back to it. -/
theorem Never.of_lt (h : state.rest.length < b.length) : Never scope b state := by
  intro n hrest
  have hle := length_steps_le scope n state
  rw [hrest] at hle
  omega

/-- What never happens from the next state on never happens, if it does not now.  This is the step
of an induction along the scan. -/
theorem Never.of_next (hnow : state.rest = b → state.outer ≠ [])
    (h : Never scope b (readNext scope state)) : Never scope b state := by
  intro n
  cases n with
  | zero => exact hnow
  | succ n =>
    rw [steps]
    split
    · exact hnow
    · exact h n

/-! ## 2. Fences

A wall is a branch that has a closer, somewhere below the caller's branch: whatever happens inside
it, a byte has to be taken before the scan is outside again.  Names and fragments have no closer, so
they fence the scan only while they are not complete. -/

/-- Inside the outermost branch there is one that needs a byte to close. -/
def Walled (view : View) : Prop :=
  ∃ branch ∈ ((view.frame :: view.outer).map Frame.branch).dropLast, branch.isNarrow = false

/-- Nothing leads out of these branches where `b` is left: one that needs a byte to close, a name
that goes on, or a fragment without a group. -/
def Fenced (b : List UInt8) (view : View) : Prop :=
  Walled view ∨
  (view.outer ≠ [] ∧ view.frame.branch.isName = true ∧ NameAhead b) ∨
  (view.outer ≠ [] ∧ view.frame.branch.isFragment = true ∧
    ∀ bracket, view.frame.pending ≠ some (.branch (.group bracket)))

/-- A wall is inside the caller's branch. -/
theorem Walled.outer (h : Walled view) : view.outer ≠ [] := by
  obtain ⟨branch, hin, -⟩ := h
  intro houter
  rw [houter] at hin
  cases hin

/-- A branch that needs a byte to close is a wall around whatever is opened in it. -/
theorem Walled.of_frame (houter : view.outer ≠ []) (hframe : view.frame.branch.isNarrow = false) :
    Walled view := by
  obtain ⟨around, further, houter⟩ := List.exists_cons_of_ne_nil houter
  refine ⟨view.frame.branch, ?_, hframe⟩
  rw [houter, List.map_cons, List.map_cons, List.dropLast_cons_cons]
  exact List.mem_cons_self

/-- Whether there is a wall hangs on what the branches need to close. -/
theorem Walled.congr (h : Walled view) (halike : view.frame.branch.Alike after.frame.branch)
    (houter : after.outer = view.outer) : Walled after := by
  obtain ⟨branch, hin, hbranch⟩ := h
  cases hfurther : view.outer with
  | nil =>
    rw [hfurther] at hin
    cases hin
  | cons around further =>
    unfold Walled
    rw [houter, hfurther, List.map_cons, List.map_cons, List.dropLast_cons_cons]
    rw [hfurther, List.map_cons, List.map_cons, List.dropLast_cons_cons] at hin
    rcases List.mem_cons.mp hin with rfl | hin
    · exact ⟨_, List.mem_cons_self, halike.isNarrow_eq ▸ hbranch⟩
    · exact ⟨branch, List.mem_cons_of_mem _ hin, hbranch⟩

/-- What is opened inside a wall is inside it. -/
theorem Walled.opened (h : Walled view) (branch : Branch) : Walled (view.openBranch branch) := by
  obtain ⟨wall, hin, hwall⟩ := h
  exact ⟨wall, List.mem_cons_of_mem _ hin, hwall⟩

/-- Completing a name or a fragment leads through no wall. -/
theorem Walled.closed (h : Walled view) {around : Frame} {further : List Frame}
    (houter : view.outer = around :: further) (hnarrow : view.frame.branch.isNarrow = true)
    (branch : Branch) (valid : Bool) : Walled (view.closeBranch branch valid around further) := by
  obtain ⟨wall, hin, hwall⟩ := h
  rw [houter, List.map_cons, List.map_cons, List.dropLast_cons_cons] at hin
  rcases List.mem_cons.mp hin with rfl | hin
  · rw [hnarrow] at hwall
    cases hwall
  · exact ⟨wall, hin, hwall⟩

/-- A fence of any sort is. -/
theorem Fenced.outer (h : Fenced b view) : view.outer ≠ [] := by
  rcases h with h | h | h
  · exact h.outer
  · exact h.1
  · exact h.1

/-- A scan that is past a place, or that stands there behind a fence. -/
def Barred (b : List UInt8) (view : View) : Prop :=
  view.rest.length < b.length ∨ view.rest = b ∧ Fenced b view

/-- A step that takes a byte goes past the place. -/
theorem Barred.of_taken {rest : List UInt8} {n : Nat} (hb : b ≠ []) (hle : rest.length ≤ b.length)
    (hn : 0 < n) (hrest : view.rest = rest.drop n) : Barred b view := by
  have hpos : 0 < b.length := List.length_pos_iff.mpr hb
  refine Or.inl ?_
  rw [hrest, List.length_drop]
  omega

/-- **No step leads over a fence.** -/
theorem Barred.step (hb : b ≠ []) (h : Barred b view) (hstep : Step scope view after) :
    Barred b after := by
  rcases h with hlt | ⟨hrest, hfence⟩
  · exact Or.inl (Nat.lt_of_le_of_lt hstep.length_le hlt)
  · have hle : view.rest.length ≤ b.length := Nat.le_of_eq (congrArg List.length hrest)
    cases hstep with
    | leaf ahead positive => exact Barred.of_taken hb hle positive rfl
    | grow ahead run => exact Barred.of_taken hb hle Nat.one_pos rfl
    | halted name outer => exact absurd outer hfence.outer
    | @opened branch ahead proper fits inside begins =>
      by_cases hopener : branch.openerLength = 0
      · have hnarrow : branch.isNarrow = true := by
          rw [Branch.isNarrow, Bool.or_eq_true]
          exact Branch.isNarrow_of_openerLength hopener proper
        refine Or.inr ⟨?_, Or.inl ?_⟩
        · show view.rest.drop branch.openerLength = b
          rw [hopener, List.drop_zero, hrest]
        · -- a name or a fragment stands inside a branch that is neither
          rw [hopener, View.consume_zero]
          exact (Walled.of_frame hfence.outer (inside hnarrow)).opened branch
      · exact Barred.of_taken hb hle (Nat.pos_of_ne_zero hopener) rfl
    | @closed branch valid n around further outer alike ends complete =>
      -- only the closing of a name or of a fragment takes no byte, and each of the three fences
      -- speaks against it
      by_cases hn : n = 0
      · subst hn
        rw [hrest] at ends complete
        have hnarrow := ends.narrow hb
        refine Or.inr ⟨?_, ?_⟩
        · show view.rest.drop 0 = b
          rw [List.drop_zero, hrest]
        · have hframe : view.frame.branch.isNarrow = true := by
            rw [alike.isNarrow_eq, Branch.isNarrow, Bool.or_eq_true]
            exact hnarrow.imp id And.left
          rcases hfence with hwall | ⟨-, hname, htext⟩ | ⟨-, hfragment, hgroup⟩
          · exact Or.inl (hwall.closed outer hframe branch valid)
          · exact absurd htext (complete (alike.isName_eq ▸ hname))
          · obtain ⟨-, -, hlast⟩ := ends.of_fragment (alike.isFragment_eq ▸ hfragment)
            obtain ⟨bracket, hlast⟩ := hlast hb
            exact absurd hlast (hgroup bracket)
      · exact Barred.of_taken hb hle (Nat.pos_of_ne_zero hn) rfl

/-- A scan that is barred from a place outside all branches never stands there: no step leads out,
so no number of steps does. -/
theorem Never.of_barred (hb : b ≠ []) (hready : state.view.Ready) (h : Barred b state.view) :
    Never scope b state := by
  intro n hrest
  have hsteps : ∀ before after : View, before.Ready → before.halted = false → before.rest ≠ [] →
      Step scope before after → Barred b before → Barred b after :=
    fun _ _ _ _ _ hstep h => h.step hb hstep
  obtain ⟨-, hbarred⟩ := steps_induction hsteps n state hready h
  rcases hbarred with hlt | ⟨-, hfence⟩
  · rw [show (steps scope n state).view.rest = b from hrest] at hlt
    exact absurd hlt (Nat.lt_irrefl _)
  · exact hfence.outer

end Scan
end StyleLex
