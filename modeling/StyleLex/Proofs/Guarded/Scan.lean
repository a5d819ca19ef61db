/-
# The scan, guarded

A scan makes a span for everything that it recovers from, asks for the closer of what it opens, and
looks up the interpolation forms of its context.  Each of these can be out of place, and the readers
that do it are given here with the checks; the other readers look at bytes one by one and have
nothing to check (`plain`).  The loops of a scan have no bound of their own, so running out of steps
is a breach too.

What keeps the spans in order is that no open branch begins behind the place the scan has come to
(`View.Started`): a scan only moves on, and a branch begins where it is.

A scan reads a list that gets shorter, so reading a byte is no access that could fail; that the
bytes of its range can be cut out of the source is checked once, where a call begins
(`Guarded.scan`).  The readers with checks are few, and each has the name of its plain form.

The lookup of an interpolation form is guarded as the program makes it: by a set of contexts, whose
lowest bit is the index of the table.  A set with more than one context would find the table of its
first one and nobody would notice, so this is a breach here, and every caller has to come with a
single context.
-/
import StyleLex.Proofs.Guarded.Assembly
import StyleLex.Proofs.Scan.Reading

namespace StyleLex

open Scan

/-! ## 1. Open branches begin before here

The invariant is about the frames of the view alone, and the constructors of `Step` change them in
three ways: not at all, by one frame more that begins here, or by one frame less. -/

namespace Scan

/-- No open branch begins behind the place that the scan has come to. -/
def View.Started (view : View) : Prop :=
  ∀ frame ∈ view.frame :: view.outer, frame.start.byte ≤ view.position.byte

variable {scope : Scope} {view after : View}

/-- Taking bytes does not go back. -/
theorem View.le_byte_consume (scope : Scope) (n : Nat) (view : View) :
    view.position.byte ≤ (view.consume scope n).position.byte := by
  rw [View.byte_consume]
  exact Nat.le_add_right _ _

/-- Taking bytes moves on. -/
theorem View.Started.consume (h : view.Started) (scope : Scope) (n : Nat) :
    (view.consume scope n).Started :=
  fun frame hframe => Nat.le_trans (h frame hframe) (View.le_byte_consume scope n view)

/-- Leaving a branch leaves those around it. -/
theorem View.Started.closeBranch (h : view.Started) {around : Frame} {further : List Frame}
    (outer : view.outer = around :: further) (branch : Branch) (valid : Bool) :
    (view.closeBranch branch valid around further).Started := by
  intro frame hframe
  rcases List.mem_cons.mp hframe with rfl | hin
  · exact h around (by simp [outer])
  · exact h frame (outer ▸ List.mem_cons_of_mem _ (List.mem_cons_of_mem around hin))

/-- **A scan only moves on**, and a branch begins where it is. -/
theorem View.Started.step (h : view.Started) (hstep : Step scope view after) : after.Started := by
  have hself := h view.frame List.mem_cons_self
  cases hstep with
  | @leaf leaf valid branch n =>
    have hmarked : (view.addLeaf leaf valid branch).Started := by
      intro frame hframe
      rcases List.mem_cons.mp hframe with rfl | hin
      · exact hself
      · exact h frame (List.mem_cons_of_mem _ hin)
    exact hmarked.consume scope n
  | grow => exact h.consume scope 1
  | @opened branch =>
    -- the new branch begins here
    have hmarked : (view.openBranch branch).Started := by
      intro frame hframe
      rcases List.mem_cons.mp hframe with rfl | hin
      · exact Nat.le_refl _
      · rcases List.mem_cons.mp hin with rfl | hin
        · exact hself
        · exact h frame (List.mem_cons_of_mem _ hin)
    exact hmarked.consume scope _
  | @closed branch valid n around further outer =>
    exact (h.closeBranch outer branch valid).consume scope n
  | halted => exact h

end Scan

namespace Guarded

/-! ## 2. Checks

The checks that the readers make, each with the condition under which it passes. -/

/-- The bracket pair that a byte opens. -/
def opening (b : UInt8) : Guarded Bracket :=
  match Bracket.ofOpener? b with
  | some bracket => pure bracket
  | none => .error (.opener b)

/-- The place of the lowest bit of a word that is set. -/
def lowestBit (bits : UInt16) : Nat :=
  ((List.range 16).find? fun i => bits.toNat.testBit i).getD 16

/-- The interpolation forms of a set that is one context. -/
def quasiFor (fragments : Fragments) (set : ContextSet) : Guarded (List QuasiForm) :=
  match set.toList, fragments.quasi[lowestBit set.bits]? with
  | [_], some forms => pure forms
  | _, _ => .error (.context set)

/-- The span from one position to another, which is not before it. -/
def span (start stop : Position) : Guarded Span :=
  if start.byte ≤ stop.byte then .ok ⟨start, stop⟩ else .error (.span start stop)

/-- Notes a recovery, with the span that it is about. -/
def recover (fault : Fault) (start stop : Position) (state : State) : Guarded State := do
  let place ← span start stop
  pure (state.recover fault place)

/-- Notes a recovery that is about the innermost branch, from its beginning up to here. -/
def recoverBranch (fault : Fault) (state : State) : Guarded State :=
  recover fault state.frame.start state.position state

/-- What opens a bracket pair has that pair. -/
theorem opening_eq {b : UInt8} {bracket : Bracket} (h : Bracket.ofOpener? b = some bracket) :
    opening b = .ok bracket := by
  rw [opening, h]
  rfl

/-- The bytes that open a bracket pair are the openers. -/
theorem isSome_ofOpener? (b : UInt8) : (Bracket.ofOpener? b).isSome = Byte.isOpener b := by
  unfold Bracket.ofOpener? Byte.isOpener
  cases b == Byte.leftParenthesis <;> cases b == Byte.leftBracket <;>
    cases b == Byte.leftBrace <;> rfl

/-- **The set of one context leads to the table of the context.** -/
theorem quasiFor_singleton (fragments : Fragments) (context : Context) :
    quasiFor fragments (ContextSet.singleton context) = .ok (fragments.quasiFor context) := by
  have hlist : (ContextSet.singleton context).toList = [context] := by
    cases context <;> decide
  have hbit : lowestBit (ContextSet.singleton context).bits = context.index.val := by
    cases context <;> decide
  rw [quasiFor, hlist, hbit, Vector.getElem?_eq_getElem context.index.isLt]
  rfl

/-- A family of contexts has no table of its own. -/
example : quasiFor Fragments.empty ContextSet.quoted = .error (.context ContextSet.quoted) := by
  rfl

/-- A recovery can be noted if its span is in order. -/
theorem recover_eq {start stop : Position} (h : start.byte ≤ stop.byte) (fault : Fault)
    (state : State) : recover fault start stop state = .ok (state.recover fault ⟨start, stop⟩) := by
  rw [recover, span, if_pos h]
  rfl

/-- So one of a branch can if the branch begins before here. -/
theorem recoverBranch_eq {state : State} (h : state.frame.start.byte ≤ state.position.byte)
    (fault : Fault) : recoverBranch fault state = .ok (state.recoverBranch fault) :=
  recover_eq h fault state

/-! ## 3. Readers

First those that check something, as they are run; then, for each of them, that it does what the
plain one does.  Those that recover from something in a branch need the branch to begin before here;
the others need nothing. -/

/-- A reader with checks. -/
abbrev Reader := Scope → State → Guarded (Option State)

/-- A reader that has nothing to check. -/
def plain (reader : Scan.Reader) : Reader := fun scope state => pure (reader scope state)

/-- Opens a group; its bracket pair is asked for once the byte is known to be an opener. -/
def readGroupOpening : Reader := fun scope state =>
  match state.rest with
  | b :: _ =>
    if Byte.isOpener b then do
      let bracket ← opening b
      pure (some (state.enter scope (.group bracket) 1))
    else pure none
  | [] => pure none

/-- Opens an interpolation with a form of this context. -/
def readQuasiOpening : Reader := fun scope state => do
  let forms ← quasiFor scope.fragments (ContextSet.singleton state.context)
  pure <| (forms.find? fun form => form.pattern.isPrefixOf state.rest).map fun form =>
    state.openBranch (.quasi form.form)

/-- Reads an escape, and recovers from one that nothing closes. -/
def readEscape : Reader := fun scope state =>
  match Escape.read? scope.dialect state.rest with
  | some reading => do
    let after :=
      (state.addLeaf (.escape ⟨reading.codepoint⟩) reading.closed).consume scope reading.length
    if reading.closed then pure (some after)
    else do
      let noted ← recover .escape state.position after.position after
      pure (some noted)
  | none => pure none

/-- Reads a byte that nothing else reads.  A closer is told of each time, other bytes when a run
begins. -/
def readUnexpected : Reader := fun scope state => do
  let isCloser := state.rest.head?.any Byte.isCloser
  let grows := state.frame.pending == some (.leaf .unexpected)
  let after :=
    (if grows then state else state.addLeaf .unexpected false).consume scope 1
  if isCloser then do
    let noted ← recover .danglingCloser state.position after.position after
    pure (some noted)
  else if grows then pure (some after)
  else do
    let noted ← recover .unexpected state.position after.position after
    pure (some noted)

/-- Breaks a string off at a line break. -/
def readStringBreak : Reader := fun scope state =>
  if scope.dialect.extendedStrings then pure none
  else
    match Escape.newlineLength? state.rest with
    | some length => do
      let noted ← recoverBranch .brokenString state
      pure ((noted.closeBranch? false).map (State.consume scope length))
    | none => pure none

/-- Closes a string, or breaks it off. -/
def readQuotedClosing : Reader := fun scope state =>
  match state.frame.branch with
  | .quoted quote =>
    if state.outer.isEmpty then pure none
    else if facing quote.byte state then pure (state.leave? scope 1)
    else readStringBreak scope state
  | _ => pure none

/-- Reads an escape in a hash. -/
def readHashEscape : Reader := fun scope state => do
  let taken ← readEscape scope state
  pure <| (Escape.read? scope.dialect state.rest).bind fun reading =>
    taken.map <| State.mapHash fun hash =>
      match reading.codepoint with
      | some codepoint => hash.accumulateCodepoint codepoint
      | none => hash.invalidate

/-- Settles a hash and closes it. -/
def closeHash? (state : State) : Guarded (Option State) :=
  match state.frame.branch with
  | .hash hash => do
    let settled := state.mapHash Hash.settle
    if hash.settle.isValid then pure (settled.closeBranch? true)
    else do
      let noted ← recoverBranch .hash settled
      pure (noted.closeBranch? false)
  | _ => pure (state.closeBranch? true)

/-- Only a hash that is not the caller's is settled here. -/
def readHashClosing : Reader := fun _ state =>
  if state.outer.isEmpty then pure (some { state with halted := true })
  else closeHash? state

variable {scope : Scope} {state : State}

/-- An opener has a bracket pair. -/
theorem readGroupOpening_eq (scope : Scope) (state : State) :
    readGroupOpening scope state = .ok (Scan.readGroupOpening scope state) := by
  unfold readGroupOpening Scan.readGroupOpening
  cases state.rest with
  | nil => rfl
  | cons b rest =>
    have hopens := isSome_ofOpener? b
    cases hbracket : Bracket.ofOpener? b with
    | none =>
      rw [hbracket, Option.isSome_none] at hopens
      simp only [← hopens, hbracket]
      rfl
    | some bracket =>
      rw [hbracket, Option.isSome_some] at hopens
      simp only [← hopens, hbracket, opening_eq hbracket, ok_bind]
      rfl

/-- The set that is asked with is that of one context. -/
theorem readQuasiOpening_eq (scope : Scope) (state : State) :
    readQuasiOpening scope state = .ok (Scan.readQuasiOpening scope state) := by
  rw [readQuasiOpening, quasiFor_singleton]
  rfl

/-- An escape ends behind its beginning. -/
theorem readEscape_eq (scope : Scope) (state : State) :
    readEscape scope state = .ok (Scan.readEscape scope state) := by
  unfold readEscape Scan.readEscape
  cases Escape.read? scope.dialect state.rest with
  | none => rfl
  | some reading =>
    have hle : state.position.byte ≤ ((state.addLeaf (.escape ⟨reading.codepoint⟩)
        reading.closed).consume scope reading.length).position.byte :=
      View.le_byte_consume scope reading.length state.view
    simp only [recover_eq hle, ok_bind, Option.map_some]
    cases reading.closed <;> rfl

/-- So does a byte. -/
theorem readUnexpected_eq (scope : Scope) (state : State) :
    readUnexpected scope state = .ok (Scan.readUnexpected scope state) := by
  unfold readUnexpected Scan.readUnexpected
  cases hgrows : state.frame.pending == some (.leaf .unexpected) with
  | true =>
    have hle : state.position.byte ≤ (state.consume scope 1).position.byte :=
      View.le_byte_consume scope 1 state.view
    simp only [if_true, recover_eq hle, ok_bind]
    cases state.rest.head?.any Byte.isCloser <;> rfl
  | false =>
    have hle : state.position.byte ≤
        ((state.addLeaf .unexpected false).consume scope 1).position.byte :=
      View.le_byte_consume scope 1 state.view
    simp only [Bool.false_eq_true, if_false, recover_eq hle, ok_bind]
    cases state.rest.head?.any Byte.isCloser <;> rfl

/-- An escape in a hash is one like any other. -/
theorem readHashEscape_eq (scope : Scope) (state : State) :
    readHashEscape scope state = .ok (Scan.readHashEscape scope state) := by
  rw [readHashEscape, readEscape_eq]
  rfl

/-- A string that breaks off began before here. -/
theorem readStringBreak_eq (h : state.view.Started) (scope : Scope) :
    readStringBreak scope state = .ok (Scan.readStringBreak scope state) := by
  have hself := h state.frame List.mem_cons_self
  unfold readStringBreak Scan.readStringBreak
  cases scope.dialect.extendedStrings with
  | true => rfl
  | false =>
    cases Escape.newlineLength? state.rest with
    | none => rfl
    | some length =>
      simp only [recoverBranch_eq hself, ok_bind]
      rfl

/-- So did one that is closed or broken off. -/
theorem readQuotedClosing_eq (h : state.view.Started) (scope : Scope) :
    readQuotedClosing scope state = .ok (Scan.readQuotedClosing scope state) := by
  unfold readQuotedClosing Scan.readQuotedClosing
  cases state.frame.branch with
  | quoted quote =>
    simp only [readStringBreak_eq h]
    cases state.outer.isEmpty with
    | true => rfl
    | false => cases facing quote.byte state <;> rfl
  | _ => rfl

/-- So did a hash. -/
theorem closeHash?_eq (h : state.view.Started) : closeHash? state = .ok state.closeHash? := by
  have hself := h state.frame List.mem_cons_self
  unfold closeHash? State.closeHash?
  cases hbranch : state.frame.branch with
  | hash hash =>
    have hsettled : (state.mapHash Hash.settle).frame.start.byte ≤
        (state.mapHash Hash.settle).position.byte := by
      rw [State.mapHash, hbranch]
      exact hself
    simp only [recoverBranch_eq hsettled, ok_bind]
    cases hash.settle.isValid <;> rfl
  | _ => rfl

/-- A branch can be completed if there is one around it. -/
theorem isNone_closeBranch? (valid : Bool) (state : State) :
    (state.closeBranch? valid).isNone = state.outer.isEmpty := by
  unfold State.closeBranch?
  cases state.outer <;> rfl

/-- So can a hash. -/
theorem isNone_closeHash? (state : State) :
    state.closeHash?.isNone = state.outer.isEmpty := by
  unfold State.closeHash?
  split
  · rename_i hash hbranch
    have houter : (state.mapHash Hash.settle).outer = state.outer := by
      rw [State.mapHash, hbranch]
    rw [← houter, isNone_closeBranch?]
    cases hash.settle.isValid <;> rfl
  · exact isNone_closeBranch? true state

/-- A hash of the scan is settled and closed, and the caller's is left open. -/
theorem readHashClosing_eq (h : state.view.Started) (scope : Scope) :
    readHashClosing scope state = .ok (Scan.readHashClosing scope state) := by
  unfold readHashClosing Scan.readHashClosing
  rw [closeHash?_eq h, ← isNone_closeHash?]
  cases state.closeHash? <;> rfl

/-! ## 4. One step

The tables of readers are the same, entry by entry.  So agreement of the readers is agreement of the
steps, and no context has to be looked at by itself. -/

/-- The readers of a context, in order. -/
def readersOf : Context → List Reader
  | .root | .parentheses | .brackets | .braces =>
    [plain readBlank, plain readNumeral, plain readUrlOpening, plain readCommentOpening,
      plain readCdx, readQuasiOpening, plain readAnnotationOpening, plain readIdentifierOpening,
      plain readHashOpening, plain readQuotedOpening, plain readSeparator, plain readOperator,
      readGroupOpening, plain readGroupClosing, plain readContinuation, readUnexpected]
  | .double | .single | .backtick =>
    [readEscape, plain readContinuation, readQuasiOpening, readQuotedClosing, plain readRaw]
  | .url =>
    [readEscape, plain readContinuation, plain readBlank, plain readUrlComment,
      plain readQuotedOpening, readQuasiOpening, plain readUrlClosing, plain readRaw]
  | .block => [plain readBlockOpening, plain readBlockClosing, readQuasiOpening, plain readRaw]
  | .line => [readQuasiOpening, plain readLineClosing, plain readRaw]
  | .quasi | Context.annotation =>
    [plain readFragmentClosing, plain readOperator, readGroupOpening, readUnexpected]
  | .identifier => [readEscape, plain readNameRun, plain readIdentifierClosing]
  | .hash => [readHashEscape, plain readHashRun, readHashClosing]

/-- One step: the first reader that reads something does. -/
def readNext (scope : Scope) (state : State) : Guarded State := do
  let found ← (readersOf state.context).findSomeM? fun reader => reader scope state
  pure (found.getD state)

/-- Readers that agree find the same. -/
theorem findSomeM?_eq {guarded : List Reader} {unguarded : List Scan.Reader}
    (h : List.Forall₂ (fun reader other => reader scope state = .ok (other scope state))
      guarded unguarded) :
    guarded.findSomeM? (fun reader => reader scope state) =
      .ok (unguarded.findSome? fun reader => reader scope state) := by
  induction h with
  | nil => rfl
  | @cons reader other readers others hreader _ ih =>
    rw [List.findSomeM?_cons, hreader, ok_bind, List.findSome?_cons]
    cases other scope state with
    | none => exact ih
    | some after => rfl

/-- **In every context, the readers agree with those that check nothing.** -/
theorem readersOf_eq (h : state.view.Started) (scope : Scope) (context : Context) :
    List.Forall₂ (fun reader other => reader scope state = .ok (other scope state))
      (readersOf context) (Scan.readersOf context) := by
  have hplain : ∀ reader : Scan.Reader, plain reader scope state = .ok (reader scope state) :=
    fun _ => rfl
  cases context <;>
    simp only [readersOf, Scan.readersOf, List.forall₂_cons, List.forall₂_nil_left_iff, hplain,
      readGroupOpening_eq, readQuasiOpening_eq, readEscape_eq, readUnexpected_eq,
      readHashEscape_eq, readQuotedClosing_eq h, readHashClosing_eq h, and_self]

/-- **A step has no breach.** -/
theorem readNext_eq (h : state.view.Started) (scope : Scope) :
    readNext scope state = .ok (Scan.readNext scope state) := by
  rw [readNext, findSomeM?_eq (readersOf_eq h scope state.context)]
  rfl

/-! ## 5. Whole scans

To run out of steps is a breach, so that both loops end is part of what is shown.  It was proved of
the plain loops (`Scan.steps_finished`), and carries over since the guarded loops take
the same steps. -/

/-- At most so many steps; more would be endless. -/
def steps (scope : Scope) : Nat → State → Guarded State
  | 0, state => if state.finished then pure state else .error .endless
  | n + 1, state =>
    if state.finished then pure state
    else do
      let next ← readNext scope state
      steps scope n next

/-- Closes one branch where the input ends. -/
def closeAtEnd? (state : State) : Guarded (Option State) :=
  match state.frame.branch with
  | .hash _ => closeHash? state
  | .identifier _ | .root | .comment .line => pure (state.closeBranch? true)
  | _ => do
    let noted ← recoverBranch .unterminated state
    pure (noted.closeBranch? false)

/-- Closes what is open, down to the caller's branch. -/
def closeAll : Nat → State → Guarded State
  | 0, state => if state.outer.isEmpty then pure state else .error .endless
  | n + 1, state => do
    let closed ← closeAtEnd? state
    match closed with
    | some after => closeAll n after
    | none => pure state

/-- The main loop, and then the closing. -/
def run (scope : Scope) (state : State) : Guarded State := do
  let reached ← steps scope (stepLimit state.rest.length) state
  closeAll reached.outer.length reached

/-- By induction on the steps; every open branch begins before here between any two of them. -/
theorem steps_eq (scope : Scope) (n : Nat) (state : State) (h : state.view.Started)
    (hfinished : (Scan.steps scope n state).finished = true) :
    steps scope n state = .ok (Scan.steps scope n state) ∧
      (Scan.steps scope n state).view.Started := by
  induction n generalizing state with
  | zero => exact ⟨if_pos hfinished, h⟩
  | succ n ih =>
    rw [Scan.steps] at hfinished ⊢
    rw [steps]
    cases hdone : state.finished with
    | true => exact ⟨rfl, h⟩
    | false =>
      obtain ⟨ahead, -⟩ := running_iff.mp hdone
      simp only [hdone, Bool.false_eq_true, if_false] at hfinished ⊢
      rw [readNext_eq h, ok_bind]
      exact ih _ (h.step (readNext_step scope ahead)) hfinished

/-- Closing a branch at the end has no breach. -/
theorem closeAtEnd?_eq (h : state.view.Started) : closeAtEnd? state = .ok state.closeAtEnd? := by
  have hself := h state.frame List.mem_cons_self
  unfold closeAtEnd? State.closeAtEnd?
  cases state.frame.branch with
  | hash hash => exact closeHash?_eq h
  | comment form =>
    simp only [recoverBranch_eq hself, ok_bind]
    cases form <;> rfl
  | _ =>
    simp only [recoverBranch_eq hself, ok_bind]
    rfl

/-- By induction on the branches that are open; closing one leaves the others where they began. -/
theorem closeAll_eq (n : Nat) (state : State) (h : state.view.Started)
    (houter : (Scan.closeAll n state).outer = []) :
    closeAll n state = .ok (Scan.closeAll n state) := by
  induction n generalizing state with
  | zero => exact if_pos (List.isEmpty_iff.mpr houter)
  | succ n ih =>
    rw [Scan.closeAll] at houter ⊢
    rw [closeAll, closeAtEnd?_eq h, ok_bind]
    rcases closeAtEnd?_closes state with
      ⟨hnone, -⟩ | ⟨closed, branch, valid, around, further, hsome, hopen, hview, -, -⟩
    · rw [hnone]
      rfl
    · rw [hsome] at houter ⊢
      have hclosed : closed.view.Started := by
        rw [hview]
        exact h.closeBranch hopen branch valid
      exact ih closed hclosed houter

/-- **A scan comes to its end without a breach.** -/
theorem run_eq (hfresh : state.Fresh) (h : state.view.Started) (scope : Scope) :
    run scope state = .ok (Scan.run scope state) := by
  obtain ⟨hsteps, hreached⟩ := steps_eq scope _ state h (hfresh.finished scope)
  have houter : (Scan.run scope state).outer = [] :=
    (run_induction (P := fun _ => True) hfresh trivial fun _ _ _ _ _ _ => trivial).1
  rw [run, hsteps, ok_bind]
  exact closeAll_eq _ _ hreached houter

end Guarded
end StyleLex
