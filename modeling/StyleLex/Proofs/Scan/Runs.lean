/-
# Hashes that are one run

Without escapes, a hash is its sign and one run of name bytes.  If that is all there is to read, it
is read in two turns and complete at the end (`run_hash`).  In a hash that the caller has opened, a
run is one more piece of raw text, and the scan goes no further where no name goes on behind it
(`run_inHash`).  What a run adds is the same in both: its bytes are gathered, and its text is that
of the leaf (`textAll_hashRun`).

Two calls are compared here that read the same bytes in different branches: one that reads a hash
from its sign, and one that is resumed in a hash which was cut after its sign or later.  For both
the turn that takes the run is the same function of the view (`View.hashRun`), so what it does to
bytes, branch and text is stated once.

The caller's hash is never closed by the scan, so it is not settled here; that is done by whoever
resumes.
-/
import StyleLex.Proofs.Scan.Hashing
import StyleLex.Proofs.Scan.Opening
import StyleLex.Proofs.Scan.Splitting

namespace StyleLex
namespace Scan

variable {scope : Scope} {state : State} {view : View} {hash : Hash} {run after : List UInt8}

/-! ## 1. Runs

A run may be empty, since a hash may be cut where its text ends; then nothing is done. -/

/-- What a run of name bytes adds to an open hash; no bytes add nothing. -/
def View.hashRun (scope : Scope) (hash : Hash) : List UInt8 → View → View
  | [], view => view
  | b :: rest, view =>
    (view.addLeaf .raw true (.hash ((b :: rest).foldl Hash.accumulate hash))).consume scope
      (rest.length + 1)

/-- A turn in a hash takes the run ahead. -/
theorem readNext_hash_run (hbranch : state.frame.branch = .hash hash)
    (hrun : state.rest.takeWhile Byte.isName ≠ []) :
    (readNext scope state).view =
      state.view.hashRun scope hash (state.rest.takeWhile Byte.isName) := by
  have hcontext : state.context = .hash := congrArg Branch.context hbranch
  have hescape : readHashEscape scope state = none := by
    rw [readHashEscape, readEscape_eq_none scope (begins_of_run hrun)]
    rfl
  obtain ⟨b, tail, heq⟩ := List.exists_cons_of_ne_nil hrun
  have hread : readHashRun scope state =
      some ((state.takeLeaf scope .raw (tail.length + 1)).mapHash
        fun hash => (b :: tail).foldl Hash.accumulate hash) := by
    simp only [readHashRun, readNameRun, heq, Option.map_some, List.length_cons]
  rw [readNext_of_second (by rw [hcontext, readersOf]) hescape hread, heq]
  exact view_hashLeaf hbranch rfl

/-- A run is followed by what does not belong to it. -/
theorem takeWhile_run (hrun : ∀ b ∈ run, Byte.isName b = true) (hafter : ¬ NameAhead after) :
    (run ++ after).takeWhile Byte.isName = run := by
  have hnone : after.takeWhile Byte.isName = [] := by
    cases after with
    | nil => rfl
    | cons b tail =>
      refine List.takeWhile_cons_of_neg fun hname => hafter (Or.inl ?_)
      simpa using hname
  rw [List.takeWhile_append_of_pos hrun, hnone, List.append_nil]

/-- What is ahead is a run, and what follows it. -/
theorem exists_run (rest : List UInt8) : ∃ run after, rest = run ++ after ∧
    rest.takeWhile Byte.isName = run ∧ ∀ b ∈ run, Byte.isName b = true :=
  ⟨_, _, List.takeWhile_append_dropWhile.symm, rfl, List.all_eq_true.mp List.all_takeWhile⟩

/-- Behind a whole run stands no byte that would belong to it. -/
theorem takeWhile_behind_run (p : UInt8 → Bool) : ∀ rest : List UInt8,
    (rest.drop (rest.takeWhile p).length).takeWhile p = []
  | [] => rfl
  | b :: tail => by
    by_cases hb : p b = true
    · rw [List.takeWhile_cons_of_pos hb, List.length_cons, List.drop_succ_cons]
      exact takeWhile_behind_run p tail
    · rw [List.takeWhile_cons_of_neg hb]
      exact List.takeWhile_cons_of_neg hb

namespace View

/-- It is taken whole. -/
theorem rest_hashRun (hrest : view.rest = run ++ after) :
    (view.hashRun scope hash run).rest = after := by
  cases run with
  | nil => exact hrest
  | cons b tail =>
    show view.rest.drop ((b :: tail).length) = after
    rw [hrest, List.drop_left]

/-- The scan moves past it. -/
theorem byte_hashRun (hrest : view.rest = run ++ after) :
    (view.hashRun scope hash run).position.byte = view.position.byte + run.length := by
  cases run with
  | nil => rfl
  | cons b tail =>
    have hle : (b :: tail).length ≤ view.rest.length := by
      rw [hrest, List.length_append]
      exact Nat.le_add_right _ _
    exact (byte_consume scope _ _).trans (congrArg _ (Nat.min_eq_left hle))

/-- The bytes of a run are gathered. -/
theorem branch_hashRun (hbranch : view.frame.branch = .hash hash) :
    (view.hashRun scope hash run).frame.branch = .hash (run.foldl Hash.accumulate hash) := by
  cases run with
  | nil => exact hbranch
  | cons b tail => rfl

/-- Nothing is opened or closed. -/
theorem outer_hashRun : (view.hashRun scope hash run).outer = view.outer := by
  cases run <;> rfl

/-- **A run adds its text.** -/
theorem textAll_hashRun (scope : Scope) (hash : Hash) {bytes : Array UInt8} {limit : Nat}
    (hahead : view.Ahead bytes limit) (hrest : view.rest = run ++ after) (start : Draft) :
    Item.textAll bytes (((view.hashRun scope hash run).draft start).settle
        (view.hashRun scope hash run).position).frame.done =
      Item.textAll bytes ((view.draft start).settle view.position).frame.done ++
        Utf8.decode run := by
  cases run with
  | nil => exact (String.append_empty).symm
  | cons b tail =>
    have hslice := hahead.slice scope (b :: tail).length
    rw [hrest, List.take_left] at hslice
    rw [hashRun, draft_consume, draft_addLeaf]
    show Item.textAll bytes (_ ++ [_]) = _
    rw [Item.textAll_concat, ← hslice]
    rfl

end View

/-! ## 2. In a hash of the caller

The scan of a resumed call begins in the hash.  It takes the run in one turn, and then it halts,
unless nothing is ahead. -/

/-- Where no name goes on, a scan in a name of the caller is at its end, or it halts. -/
theorem steps_halting (hname : state.frame.branch.isName = true) (houter : state.outer = [])
    (hdone : ¬ NameAhead state.rest) :
    ∃ n halted, (steps scope n state).finished = true ∧
      (steps scope n state).view = { state.view with halted := halted } := by
  cases hfinished : state.finished with
  | true => exact ⟨0, state.halted, hfinished, rfl⟩
  | false =>
    have hnone : state.closeAtEnd? = none := by
      rcases closeAtEnd?_closes state with ⟨hnone, -⟩ | ⟨-, -, -, around, further, -, hsome, -⟩
      · exact hnone
      · exact absurd (hsome.symm.trans houter) (List.cons_ne_nil _ _)
    have hnext := readNext_name_close scope hname hdone
    rw [hnone, Option.getD_none] at hnext
    refine ⟨1, true, ?_, ?_⟩
    all_goals rw [steps_of_running scope 0 hfinished, hnext, steps]
    · exact finished_iff.mpr (Or.inr rfl)
    · rfl

/-- **In a hash that the caller has opened, a scan takes the run ahead.** -/
theorem run_inHash (hfresh : state.Fresh) (hbranch : state.frame.branch = .hash hash)
    (hrest : state.rest = run ++ after) (hrun : ∀ b ∈ run, Byte.isName b = true)
    (hafter : ¬ NameAhead after) :
    ∃ halted, (Scan.run scope state).view =
      { state.view.hashRun scope hash run with halted := halted } := by
  -- nothing is open but the caller's hash, so at the end of the input nothing is closed
  suffices ∃ n halted, (steps scope n state).finished = true ∧
      (steps scope n state).view =
        { state.view.hashRun scope hash run with halted := halted } by
    obtain ⟨n, halted, hfinished, hview⟩ := this
    have houter : (steps scope n state).outer = [] :=
      (congrArg View.outer hview).trans (View.outer_hashRun.trans hfresh.outer)
    rw [run_eq hfresh hfinished, houter]
    exact ⟨halted, hview⟩
  -- one turn for the run, if there is one, and then none but the halt
  by_cases hnone : run = []
  · subst hnone
    exact steps_halting (by rw [hbranch]; rfl) hfresh.outer (hrest ▸ hafter)
  · have htake := takeWhile_run hrun hafter
    rw [← hrest] at htake
    have hnext : (readNext scope state).view = _ := readNext_hash_run hbranch (by rwa [htake])
    rw [htake] at hnext
    have hrunning : state.finished = false :=
      running_iff.mpr ⟨by rw [hrest]; exact List.append_ne_nil_of_left_ne_nil hnone _,
        hfresh.halted⟩
    have hname : (readNext scope state).frame.branch.isName = true := by
      rw [show (readNext scope state).frame.branch = _ from
        congrArg (fun view : View => view.frame.branch) hnext, View.branch_hashRun hbranch]
      rfl
    have hdone : ¬ NameAhead (readNext scope state).rest := by
      rw [show (readNext scope state).rest = _ from congrArg View.rest hnext,
        View.rest_hashRun hrest]
      exact hafter
    have houter : (readNext scope state).outer = [] :=
      (congrArg View.outer hnext).trans (View.outer_hashRun.trans hfresh.outer)
    obtain ⟨n, halted, hfinished, hview⟩ := steps_halting hname houter hdone
    refine ⟨n + 1, halted, ?_, ?_⟩
    all_goals rw [steps_of_running scope n hrunning]
    · exact hfinished
    · rw [hview, hnext]

/-! ## 3. By itself

From its sign the hash is opened, and the run is the turn after that; at the end of the input it is
settled. -/

/-- Where a run follows the sign, a hash is opened, if there is no more. -/
theorem readNext_opens_hash (hmade : scope.fragments.Made) (hroot : state.frame.branch = .root)
    (hrest : state.rest = Byte.hash :: run) (hne : run ≠ [])
    (hrun : ∀ b ∈ run, Byte.isName b = true) :
    ∃ hash, readNext scope state = state.enter scope (.hash hash) 1 := by
  obtain ⟨b, tail, rfl⟩ := List.exists_cons_of_ne_nil hne
  obtain ⟨hash, hbegin⟩ : ∃ hash, Hash.begin? state.rest = some hash := by
    rw [hrest, Hash.begin?, if_pos (beq_self_eq_true _), List.head?_cons]
    dsimp only
    rw [if_pos (hrun b List.mem_cons_self)]
    exact ⟨_, rfl⟩
  refine ⟨hash, readNext_hashSign hmade hroot hrest (unbracketed_of_all ?_) hbegin⟩
  rw [hrest, List.forall_mem_cons]
  exact ⟨by decide, fun c hc => Byte.not_isOpener_of_isName (hrun c hc)⟩

/-- An open hash is settled at the end of the input. -/
theorem closeAll_hash {around : Frame} (hbranch : state.frame.branch = .hash hash)
    (houter : state.outer = [around]) :
    (closeAll 1 state).view =
      state.view.closeBranch (.hash hash.settle) hash.settle.isValid around [] := by
  rcases closeHash?_eq hbranch with ⟨-, hnil⟩ | ⟨closed, inner, further, hclosed, hsome, hview⟩
  · exact absurd (houter.symm.trans hnil) (List.cons_ne_nil _ _)
  · obtain ⟨rfl, rfl⟩ := List.cons.inj (houter.symm.trans hsome)
    rw [closeAll, State.closeAtEnd?, hbranch]
    dsimp only
    rw [hclosed]
    exact hview

/-- **A hash that is all there is to read** is opened, takes its run, and is settled. -/
theorem run_hash (hmade : scope.fragments.Made) (hfresh : state.Fresh)
    (hroot : state.frame.branch = .root) (hrest : state.rest = Byte.hash :: run) (hne : run ≠ [])
    (hrun : ∀ b ∈ run, Byte.isName b = true) :
    ∃ hash settled valid around, (Scan.run scope state).view =
      (((state.view.openBranch (.hash hash)).consume scope 1).hashRun scope hash run).closeBranch
        (.hash settled) valid around [] := by
  obtain ⟨hash, hopened⟩ := readNext_opens_hash hmade hroot hrest hne hrun
  have hleft : (state.enter scope (.hash hash) 1).rest = run ++ [] := by
    show state.rest.drop 1 = _
    rw [hrest, List.append_nil]
    rfl
  have htake := takeWhile_run hrun not_nameAhead_nil
  rw [← hleft] at htake
  have hnext : (readNext scope (state.enter scope (.hash hash) 1)).view = _ :=
    readNext_hash_run rfl (by rwa [htake])
  rw [htake] at hnext
  -- two turns, and no more is ahead
  have hfirst : state.finished = false :=
    running_iff.mpr ⟨by rw [hrest]; exact List.cons_ne_nil _ _, hfresh.halted⟩
  have hsecond : (state.enter scope (.hash hash) 1).finished = false :=
    running_iff.mpr ⟨by rwa [hleft, List.append_nil], hfresh.halted⟩
  have hsteps : steps scope 2 state = readNext scope (state.enter scope (.hash hash) 1) := by
    rw [steps_of_running scope 1 hfirst, hopened]
    exact steps_of_running scope 0 hsecond
  generalize readNext scope (state.enter scope (.hash hash) 1) = last at *
  have hend : last.rest = [] := (congrArg View.rest hnext).trans (View.rest_hashRun hleft)
  have houter : last.outer = [{ state.frame with pending := none }] := by
    rw [show last.outer = _ from congrArg View.outer hnext, View.outer_hashRun]
    show { state.frame with pending := none } :: state.outer = _
    rw [hfresh.outer]
  have hbranch : last.frame.branch = .hash (run.foldl Hash.accumulate hash) :=
    (congrArg (fun view : View => view.frame.branch) hnext).trans (View.branch_hashRun rfl)
  rw [run_eq (n := 2) hfresh (by rw [hsteps]; exact finished_iff.mpr (Or.inl hend)), hsteps, houter,
    List.length_singleton, closeAll_hash hbranch houter, hnext]
  exact ⟨hash, _, _, _, rfl⟩

end Scan
end StyleLex
