/-
# A scan that is cut

A scan over `a ++ b` is compared with one over `a` that has to stop there, and with one that goes
on over `b` in the root.  If the first scan stands outside of all branches with `b` left, then the
second one ends as the first one stands there (`run_cut`).  And if it begins a child there, it ends
as a scan that begins there (`run_forget`), which the third one mirrors (`run_agrees`).

At the stop the second scan may have a name open that is complete only where the first scan looks
further.  It closes at the end of the input as it does before a byte that is no text of a name.

The comparison has three parts.  Before the cut both scans make the same steps (`steps_mirrored`).
At the cut the second scan has come to the end of its input, and the first one to a place where
`b` is left; it may make some more steps there that take nothing, and will be in the root after
them.  `arrived` says how little these can be: none, or the completion of one name or one
fragment.  The end of the input completes a name in the same way, and a fragment too, but as one
that lacks its end, and this is the one difference that remains (`run_cut_cases`).

Behind the cut there is nothing to compare but the child that was read last: a scan that begins in
the root has none.  Only a run of unexpected bytes asks for it, to grow, so if the next step begins
a child, it may be forgotten.
-/
import StyleLex.Proofs.Scan.Locality

namespace StyleLex
namespace Scan

variable {scope : Scope} {b : List UInt8} {gauge : Gauge scope b} {old : List Mark}
  {f g state : State}

/-! ## 1. Counting steps

The two scans take different numbers of turns, so the number given with a scan is a bound and not a
count, and a scan that is done may be given more. -/

/-- A scan that is done makes no more turns. -/
theorem steps_of_finished (scope : Scope) (h : state.finished = true) :
    ∀ n, steps scope n state = state
  | 0 => rfl
  | n + 1 => by rw [steps, if_pos h]

/-- One that is not makes the next one. -/
theorem steps_of_running (scope : Scope) (n : Nat) (h : state.finished = false) :
    steps scope (n + 1) state = steps scope n (readNext scope state) := by
  rw [steps, if_neg (by simp [h])]

/-- Turns may be counted in two parts. -/
theorem steps_add (scope : Scope) : ∀ (m n : Nat) (state : State),
    steps scope (m + n) state = steps scope n (steps scope m state)
  | 0, n, state => by rw [Nat.zero_add, steps]
  | m + 1, n, state => by
    cases h : state.finished with
    | true => rw [steps_of_finished scope h, steps_of_finished scope h, steps_of_finished scope h]
    | false =>
      rw [Nat.succ_add, steps_of_running scope _ h, steps_of_running scope _ h,
        steps_add scope m n]

/-- A scan comes to one end only. -/
theorem steps_unique {m n : Nat} (hm : (steps scope m state).finished = true)
    (hn : (steps scope n state).finished = true) : steps scope m state = steps scope n state := by
  rw [← steps_of_finished scope hm n, ← steps_add, Nat.add_comm, steps_add,
    steps_of_finished scope hn]

/-- The main loop, whatever the number of its steps. -/
theorem run_eq {n : Nat} (hfresh : state.Fresh) (hn : (steps scope n state).finished = true) :
    run scope state = closeAll (steps scope n state).outer.length (steps scope n state) := by
  rw [run, steps_unique (hfresh.finished scope) hn]

/-- From wherever the main loop stands, the bound on its steps suffices. -/
theorem steps_steps (scope : Scope) (hfresh : state.Fresh) (m : Nat) :
    steps scope (stepLimit state.rest.length) (steps scope m state) =
      steps scope (stepLimit state.rest.length) state := by
  rw [← steps_add, Nat.add_comm, steps_add, steps_of_finished scope (hfresh.finished scope)]

/-! ## 2. The end of the input

What the end of the input does depends on the branch and on what was read last in it, both of which
are the same in mirrored states. -/

/-- What closes at the end of the input is the same in both scans. -/
theorem closeAtEnd_agrees (h : Mirrors gauge old f g) :
    (f.closeAtEnd? = none ∧ g.closeAtEnd? = none) ∨
      ∃ f' g', f.closeAtEnd? = some f' ∧ g.closeAtEnd? = some g' ∧ Mirrors gauge old f' g' := by
  unfold State.closeAtEnd?
  rw [h.branch]
  split
  · exact closeHash_agrees h
  · exact h.close true
  · exact h.close true
  · exact h.close true
  · exact (h.recover _ _ _).close false

/-- Closing any number of branches is the same. -/
theorem closeAll_agrees : ∀ (n : Nat) {f g : State}, Mirrors gauge old f g →
    Mirrors gauge old (closeAll n f) (closeAll n g)
  | 0, _, _, h => h
  | n + 1, f, g, h => by
    rw [closeAll, closeAll]
    rcases closeAtEnd_agrees h with ⟨hf, hg⟩ | ⟨f', g', hf, hg, hclosed⟩
    · rw [hf, hg]
      exact h
    · rw [hf, hg]
      exact closeAll_agrees n hclosed

/-! ## 3. Up to the cut

From here on the first scan is assumed to stand in the root with `b` left, at some time.  All turns
of the second scan come before that, and so none of them may be one after which the first scan is
inside a branch at the cut. -/

/-- Until the second scan has to stop, its steps are those of the first one. -/
theorem steps_mirrored (hmade : scope.fragments.Made) : ∀ (n : Nat) {f g : State},
    Mirrors gauge old f g → f.view.Sturdy → f.halted = false →
    (steps scope n f).rest = b → (steps scope n f).outer = [] →
    ∃ m, m ≤ n ∧ (steps scope m f).rest = b ∧ (steps scope m f).view.Sturdy ∧
      (steps scope m f).halted = false ∧
      Mirrors gauge old (steps scope m f) (steps gauge.scope m g) := by
  intro n
  induction n with
  | zero =>
    intro f g h hsturdy hrun hrest _
    exact ⟨0, Nat.le_refl 0, hrest, hsturdy, hrun, h⟩
  | succ n ih =>
    intro f g h hsturdy hrun hrest houter
    by_cases ahead : g.rest = []
    · -- the second scan has reached its stop, and so the first one is at the cut
      refine ⟨0, Nat.zero_le _, ?_, hsturdy, hrun, h⟩
      have hrest' := h.rest
      rw [ahead] at hrest'
      exact hrest'
    · have ahead' : f.rest ≠ [] := by
        rw [h.rest]
        exact List.append_ne_nil_of_left_ne_nil ahead b
      have hf : f.finished = false := running_iff.mpr ⟨ahead', hrun⟩
      have hg : g.finished = false := running_iff.mpr ⟨ahead, h.halted ▸ hrun⟩
      rw [steps_of_running scope n hf] at hrest houter
      have hstep := readNext_step scope ahead'
      -- if the turns differ, the first scan is never in the root at the cut, which it is assumed to
      -- be
      rcases readNext_agrees hmade h hsturdy hrun ahead with ⟨-, hnever⟩ | hnext
      · exact absurd houter (hnever n hrest)
      · obtain ⟨m, hm, hreached⟩ := ih hnext (hsturdy.step (Or.inl hrun) hstep)
          (hstep.running hsturdy hrun) hrest houter
        refine ⟨m + 1, Nat.succ_le_succ hm, ?_⟩
        rw [steps_of_running scope m hf, steps_of_running _ m hg]
        exact hreached

/-- A scan that stands in the root with `b` left stands there at no other time. -/
theorem arrived_root (hb : b ≠ []) (hsturdy : state.view.Sturdy) (hrun : state.halted = false)
    (hrest : state.rest = b) (houter : state.outer = []) {n : Nat}
    (hthere : (steps scope n state).rest = b) (houter' : (steps scope n state).outer = []) :
    steps scope n state = state := by
  cases n with
  | zero => rfl
  | succ n =>
    have ahead : state.rest ≠ [] := by
      rw [hrest]
      exact hb
    rw [steps_of_running scope n (running_iff.mpr ⟨ahead, hrun⟩)] at hthere houter'
    refine absurd houter' ?_
    have hroot : state.view.frame.branch = .root := hsturdy.eq_root_iff.mpr houter
    have hstep := readNext_step scope ahead
    have hready := (hsturdy.step (Or.inl hrun) hstep).ready
    refine Never.of_barred hb hready ?_ n hthere
    generalize hnext : (readNext scope state).view = next at hstep hready
    have hle : state.view.rest.length ≤ b.length := Nat.le_of_eq (congrArg List.length hrest)
    -- each step from the root goes past the cut or behind a fence
    cases hstep with
    | leaf ahead positive => exact Barred.of_taken hb hle positive rfl
    | grow => exact Barred.of_taken hb hle Nat.one_pos rfl
    | halted name =>
      rw [hroot] at name
      cases name
    | closed outer =>
      rw [show state.view.outer = [] from houter] at outer
      cases outer
    | @opened branch ahead proper fits inside begins =>
      rcases Nat.eq_zero_or_pos branch.openerLength with hzero | hpos
      · rw [hzero, View.consume_zero] at hready ⊢
        refine Or.inr ⟨hrest, Or.inr ?_⟩
        rcases Branch.isNarrow_of_openerLength hzero proper with hname | hfragment
        · have hahead := begins hname
          rw [hzero, List.drop_zero, show state.view.rest = b from hrest] at hahead
          exact Or.inl ⟨List.cons_ne_nil _ _, hname, hahead⟩
        · exact Or.inr ⟨List.cons_ne_nil _ _, hfragment, fun _ h => by cases h⟩
      · exact Barred.of_taken hb hle hpos rfl

/-- Where a scan goes that stands in the root with `b` left, later: it is not fenced in. -/
theorem not_fenced (hb : b ≠ []) (hsturdy : state.view.Sturdy) (hrest : state.rest = b) {n : Nat}
    (hthere : (steps scope n state).rest = b) (houter : (steps scope n state).outer = []) :
    ¬ Fenced b state.view := fun hfence =>
  Never.of_barred hb hsturdy.ready (Or.inr ⟨hrest, hfence⟩) n hthere houter

/-- What is open where nothing fences the scan in is one name or one fragment in the root. -/
theorem outer_of_not_fenced (hsturdy : state.view.Sturdy) (hfence : ¬ Fenced b state.view)
    (houter : state.outer ≠ []) :
    state.frame.branch.isNarrow = true ∧ ∃ around, state.outer = [around] := by
  have hwall : ¬ Walled state.view := fun hwall => hfence (Or.inl hwall)
  have hnarrow : state.frame.branch.isNarrow = true := by
    cases hnarrow : state.frame.branch.isNarrow with
    | true => rfl
    | false => exact absurd (Walled.of_frame houter hnarrow) hwall
  refine ⟨hnarrow, ?_⟩
  obtain ⟨around, further, heq⟩ := List.exists_cons_of_ne_nil houter
  cases further with
  | nil => exact ⟨around, heq⟩
  | cons beyond rest =>
    have hnested := hsturdy.ready.nested
    rw [show state.view.outer = around :: beyond :: rest from heq] at hnested
    refine absurd ⟨around.branch, ?_, hnested.1 hnarrow⟩ hwall
    rw [show state.view.outer = around :: beyond :: rest from heq]
    simp

/-- **A scan that will stand in the root with `b` left** does so when `b` is left first, or it
closes one name first, or one fragment whose group is complete. -/
theorem arrived (hb : b ≠ []) (hsturdy : state.view.Sturdy) (hrun : state.halted = false)
    (hrest : state.rest = b) {n : Nat} (hthere : (steps scope n state).rest = b)
    (houter : (steps scope n state).outer = []) :
    (state.outer = [] ∧ steps scope n state = state) ∨
      ∃ around, state.outer = [around] ∧
        (state.closeAtEnd? = some (steps scope n state) ∨
          state.frame.branch.isFragment = true ∧
            state.closeBranch? true = some (steps scope n state)) := by
  by_cases hroot : state.outer = []
  · exact Or.inl ⟨hroot, arrived_root hb hsturdy hrun hrest hroot hthere houter⟩
  have hfence := not_fenced hb hsturdy hrest hthere houter
  obtain ⟨hnarrow, around, hout⟩ := outer_of_not_fenced hsturdy hfence hroot
  refine Or.inr ⟨around, hout, ?_⟩
  obtain ⟨n, rfl⟩ : ∃ k, n = k + 1 := by
    refine Nat.exists_eq_succ_of_ne_zero ?_
    rintro rfl
    exact hroot houter
  have ahead : state.rest ≠ [] := by
    rw [hrest]
    exact hb
  rw [steps_of_running scope n (running_iff.mpr ⟨ahead, hrun⟩)] at hthere houter ⊢
  have hnext := hsturdy.next scope hrun ahead
  have hrunning := (readNext_step scope ahead).running hsturdy hrun
  -- one step completes the branch, and the scan stays where it is then
  have hdone : ∀ closed : State, readNext scope state = closed → closed.rest = b →
      closed.outer = [] → steps scope n (readNext scope state) = closed := by
    rintro closed rfl hclosed hnil
    exact arrived_root hb hnext hrunning hclosed hnil hthere houter
  rcases Bool.or_eq_true_iff.mp hnarrow with hname | hfragment
  · have hahead : ¬ NameAhead state.rest := by
      rw [hrest]
      exact fun htext => hfence (Or.inr (Or.inl ⟨hroot, hname, htext⟩))
    have hclose := readNext_name_close scope hname hahead
    rcases closeAtEnd?_closes state with
      ⟨-, hnil⟩ | ⟨closed, branch, valid, inner, further, hsome, houter', hview, -, -⟩
    · exact absurd hnil hroot
    · rw [show state.view.outer = [around] from hout] at houter'
      obtain ⟨rfl, rfl⟩ := List.cons.inj houter'
      rw [hsome, Option.getD_some] at hclose
      rw [hsome, hdone closed hclose ((congrArg View.rest hview).trans hrest)
        (congrArg View.outer hview)]
      exact Or.inl rfl
  · obtain ⟨bracket, hgroup⟩ :
        ∃ bracket, state.frame.pending = some (.branch (.group bracket)) := by
      refine Classical.byContradiction fun hnone => hfence (Or.inr (Or.inr ⟨hroot, hfragment, ?_⟩))
      exact fun bracket hgroup => hnone ⟨bracket, hgroup⟩
    obtain ⟨closed, hclosed⟩ : ∃ closed, state.closeBranch? true = some closed := by
      unfold State.closeBranch?
      rw [hout]
      exact ⟨_, rfl⟩
    obtain ⟨inner, further, houter', hview⟩ := closeBranch?_eq_some hclosed
    rw [show state.view.outer = [around] from hout] at houter'
    obtain ⟨rfl, rfl⟩ := List.cons.inj houter'
    have hread : readFragmentClosing scope state = some closed := by
      rw [readFragmentClosing, hgroup]
      exact hclosed
    have hsteps := hdone closed (readNext_of_first (readersOf_fragment hfragment) hread)
      ((congrArg View.rest hview).trans hrest) (congrArg View.outer hview)
    rw [hsteps, hclosed]
    exact Or.inr ⟨hfragment, rfl⟩

/-- A fragment that is open at the end of the input lacks its group, as far as its reader knows; it
is closed as malformed. -/
theorem closeAtEnd?_fragment (hfragment : state.frame.branch.isFragment = true) :
    state.closeAtEnd? = (state.recoverBranch .unterminated).closeBranch? false := by
  unfold State.closeAtEnd?
  split
  all_goals first
    | rfl
    | (rename_i hbranch
       rw [hbranch] at hfragment
       cases hfragment)

/-- **A scan that is cut ends as the one that goes on stands there.**  Only a fragment with which
the cut one ends is malformed there, and not where the scan goes on. -/
theorem run_cut_cases (hmade : scope.fragments.Made) (h : Mirrors gauge old f g) (hfresh : g.Fresh)
    (hsturdy : f.view.Sturdy) (hrun : f.halted = false) (hb : b ≠ []) {n : Nat}
    (hrest : (steps scope n f).rest = b) (houter : (steps scope n f).outer = []) :
    Mirrors gauge old (steps scope n f) (run gauge.scope g) ∨
      ∃ state stopped, state.frame.branch.isFragment = true ∧ Mirrors gauge old state stopped ∧
        state.closeBranch? true = some (steps scope n f) ∧
        stopped.closeBranch? false = some (run gauge.scope g) := by
  obtain ⟨m, hm, hrest', hsturdy', hrun', hmirror⟩ :=
    steps_mirrored hmade n h hsturdy hrun hrest houter
  have hsplit : steps scope n f = steps scope (n - m) (steps scope m f) := by
    rw [← steps_add, Nat.add_sub_cancel' hm]
  rw [hsplit] at hrest houter ⊢
  generalize steps scope m f = state at *
  have hstop : (steps gauge.scope m g).rest = [] := by
    have := hmirror.rest
    rw [hrest'] at this
    exact List.append_left_eq_self.mp this.symm
  have hfinal := run_eq hfresh (finished_iff.mpr (Or.inl hstop))
  rw [hfinal]
  generalize steps gauge.scope m g = stopped at *
  -- nothing is open at the cut, or one branch is, which both scans complete
  rcases arrived hb hsturdy' hrun' hrest' hrest houter with ⟨hroot, hstays⟩ | ⟨around, hout, hclose⟩
  · rw [hstays, hmirror.outer_eq_nil.mp hroot]
    exact Or.inl hmirror
  · have hlength : stopped.outer.length = 1 := by
      have := congrArg List.length hmirror.outer
      rw [List.length_map, List.length_map, hout] at this
      exact this.symm
    rw [hlength, closeAll]
    rcases hclose with hclose | ⟨hfragment, hclose⟩
    · rcases closeAtEnd_agrees hmirror with ⟨hf, -⟩ | ⟨f', g', hf, hg, hclosed⟩
      · rw [hclose] at hf
        cases hf
      · rw [hclose, Option.some.injEq] at hf
        rw [hg, hf]
        exact Or.inl hclosed
    · have hrecovered : Mirrors gauge old state (stopped.recoverBranch .unterminated) :=
        ⟨hmirror.rest, hmirror.position, hmirror.halted, hmirror.marks, hmirror.face, hmirror.outer⟩
      refine Or.inr ⟨state, _, hfragment, hrecovered, hclose, ?_⟩
      rw [closeAtEnd?_fragment (hmirror.branch ▸ hfragment)]
      rcases closeBranch_agrees hrecovered false with ⟨hf, -⟩ | ⟨-, closed, -, hg, -, -⟩
      · unfold State.closeBranch? at hf
        rw [hout] at hf
        cases hf
      · rw [hg]
        rfl

/-- If the child read last is no fragment, nothing is malformed. -/
theorem run_cut (hmade : scope.fragments.Made) (h : Mirrors gauge old f g) (hfresh : g.Fresh)
    (hsturdy : f.view.Sturdy) (hrun : f.halted = false) (hb : b ≠ []) {n : Nat}
    (hrest : (steps scope n f).rest = b) (houter : (steps scope n f).outer = [])
    (hlast : ∀ branch, (steps scope n f).frame.pending = some (.branch branch) →
      branch.isFragment = false) :
    Mirrors gauge old (steps scope n f) (run gauge.scope g) := by
  rcases run_cut_cases hmade h hfresh hsturdy hrun hb hrest houter with
    hmirror | ⟨state, stopped, hfragment, -, hclose, -⟩
  · exact hmirror
  · obtain ⟨around, further, -, hview⟩ := closeBranch?_eq_some hclose
    have hpending := hlast state.frame.branch (by
      rw [show (steps scope n f).frame = _ from congrArg View.frame hview]
      rfl)
    rw [hfragment] at hpending
    cases hpending

/-! ## 4. Behind the cut

A child that was read before the cut could only be continued behind it.  If the scan begins another
child there, it does as well without the first one. -/

/-- The state with no child to which the next byte may belong. -/
def State.forget (state : State) : State :=
  { state with frame := { state.frame with pending := none } }

/-- In a root, only a byte that begins nothing asks for the child before it. -/
theorem readers_forget (scope : Scope) (state : State) :
    (readersOf .root).dropLast.findSome? (fun reader => reader scope state.forget) =
      (readersOf .root).dropLast.findSome? (fun reader => reader scope state) := rfl

/-- So a step that begins a child is the same without it. -/
theorem readNext_forget (hroot : state.frame.branch = .root)
    (hmark : (readNext scope state).marks ≠ state.marks) :
    readNext scope state.forget = readNext scope state := by
  have hsplit : readersOf .root = (readersOf .root).dropLast ++ [readUnexpected] := rfl
  have hread : ∀ state : State, state.frame.branch = .root → readNext scope state =
      (((readersOf .root).dropLast.findSome? fun reader => reader scope state).or
        (readUnexpected scope state)).getD state := by
    intro state hroot
    rw [readNext, State.context, hroot]
    show ((readersOf .root).findSome? _).getD state = _
    rw [hsplit, List.findSome?_append, List.findSome?_singleton]
    rfl
  rw [hread state hroot] at hmark ⊢
  rw [hread state.forget hroot, readers_forget]
  cases hfirst : (readersOf .root).dropLast.findSome? fun reader => reader scope state with
  | some next => rfl
  | none =>
    rw [hfirst] at hmark
    have hgrows : (state.frame.pending == some (.leaf .unexpected)) = false := by
      refine Bool.eq_false_iff.mpr fun hgrows => hmark ?_
      unfold readUnexpected
      dsimp only
      rw [hgrows]
      split <;> rfl
    unfold readUnexpected
    rw [hgrows]
    rfl

/-- And so are the steps after it. -/
theorem steps_forget (hroot : state.frame.branch = .root) (hfinished : state.finished = false)
    (hmark : (readNext scope state).marks ≠ state.marks) (n : Nat) :
    steps scope (n + 1) state = steps scope (n + 1) state.forget := by
  have hforgotten : state.forget.finished = false := hfinished
  rw [steps_of_running scope n hfinished, steps_of_running scope n hforgotten,
    readNext_forget hroot hmark]

/-- Without a child read last, nothing is read. -/
theorem State.forget_fresh (houter : state.outer = []) (hfinished : state.finished = false) :
    state.forget.Fresh where
  outer := houter
  pending := rfl
  halted := (running_iff.mp hfinished).2

/-- **A scan that stands in the root and begins a child ends as one that begins there.** -/
theorem run_forget (hfresh : state.Fresh) {n : Nat}
    (hroot : (steps scope n state).frame.branch = .root)
    (houter : (steps scope n state).outer = [])
    (hfinished : (steps scope n state).finished = false)
    (hmark : (readNext scope (steps scope n state)).marks ≠ (steps scope n state).marks) :
    run scope state = run scope (steps scope n state).forget := by
  have hdone := hfresh.finished scope
  rw [run, ← steps_steps scope hfresh n]
  rw [← steps_steps scope hfresh n] at hdone
  generalize stepLimit state.rest.length = limit at *
  generalize steps scope n state = there at *
  obtain ⟨k, rfl⟩ : ∃ k, limit = k + 1 := by
    refine Nat.exists_eq_succ_of_ne_zero ?_
    rintro rfl
    rw [steps, hfinished] at hdone
    cases hdone
  rw [steps_forget hroot hfinished hmark] at hdone ⊢
  rw [run_eq (State.forget_fresh houter hfinished) hdone]

/-- A scan that stands in a root may have begun there. -/
theorem View.Sturdy.of_root {view : View} (houter : view.outer = [])
    (hroot : view.frame.branch = .root) : view.Sturdy where
  ready := by
    refine ⟨?_, fun hne => absurd houter hne, fun hne => absurd houter hne, fun _ => houter⟩
    rw [houter]
    trivial
  rooted := by
    rw [houter]
    exact hroot

variable {whole : Gauge scope []}

/-- With nothing cut off, all steps are mirrored. -/
theorem steps_agree (hmade : scope.fragments.Made) : ∀ (n : Nat) {f g : State},
    Mirrors whole old f g → f.view.Sturdy → f.halted = false →
    Mirrors whole old (steps scope n f) (steps whole.scope n g) := by
  intro n
  induction n with
  | zero =>
    intro f g h _ _
    exact h
  | succ n ih =>
    intro f g h hsturdy hrun
    have hrest : f.rest = g.rest := by rw [h.rest, List.append_nil]
    have hfinished : g.finished = f.finished := by
      rw [State.finished, State.finished, hrest, h.halted]
    cases hf : f.finished with
    | true =>
      rw [steps_of_finished scope hf, steps_of_finished _ (hfinished.trans hf)]
      exact h
    | false =>
      obtain ⟨ahead, -⟩ := running_iff.mp (hfinished.trans hf)
      rw [steps_of_running scope n hf, steps_of_running _ n (hfinished.trans hf)]
      have hstep := readNext_step scope (hrest ▸ ahead : f.rest ≠ [])
      rcases readNext_agrees hmade h hsturdy hrun ahead with ⟨hnil, -⟩ | hnext
      · exact absurd rfl hnil
      · exact ih hnext (hsturdy.step (Or.inl hrun) hstep) (hstep.running hsturdy hrun)

/-- Mirrored scans are over at the same time, if nothing is cut off. -/
theorem Mirrors.finished (h : Mirrors whole old f g) : f.finished = g.finished := by
  rw [State.finished, State.finished, h.rest, List.append_nil, h.halted]

/-- Closing what is open at the end is the same, too. -/
theorem closeOuter_agrees (h : Mirrors gauge old f g) :
    Mirrors gauge old (closeAll f.outer.length f) (closeAll g.outer.length g) := by
  have hlength : f.outer.length = g.outer.length := by
    have := congrArg List.length h.outer
    rwa [List.length_map, List.length_map] at this
  rw [hlength]
  exact closeAll_agrees g.outer.length h

/-- So whole scans are mirrored. -/
theorem run_agrees (hmade : scope.fragments.Made) (h : Mirrors whole old f g) (hfresh : f.Fresh)
    (hroot : f.frame.branch = .root) (hfresh' : g.Fresh) :
    Mirrors whole old (run scope f) (run whole.scope g) := by
  have hagree := steps_agree hmade (stepLimit f.rest.length) h (.of_root hfresh.outer hroot)
    hfresh.halted
  have hdone := hfresh.finished scope
  rw [run_eq hfresh hdone, run_eq hfresh' (hagree.finished ▸ hdone)]
  exact closeOuter_agrees hagree

end Scan
end StyleLex
