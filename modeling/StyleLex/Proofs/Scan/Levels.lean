/-
# The levels of a scan

A scan counts how many branches are open, and how many were at most.  Both numbers can be read off
the marks: they are the depth and the peak of the draft that the marks make (`State.Levelled`).
They move where a branch opens or closes, so every reader keeps them right, and so do the turns of
the scan and the end of the input (`Lexer.scan_levelled`).

The counters are part of the state and not of its view, so the steps do not speak of them, and the
readers have to be gone through once more.  To keep that short, `Keeps` says what a reader does to
the counters, with one lemma for each way in which readers are put together: a choice, an
alternative, a reading that is found, a change that comes after.  Each reader is then a term of
these.

What the counters count is settled by `Proofs/Tree/Peak`, where depth and peak of a draft are
compared with those of the tree it becomes.
-/
import StyleLex.Proofs.Scan.Drafting
import StyleLex.Proofs.Tree.Peak

namespace StyleLex
namespace Scan

variable {scope : Scope} {start : Draft} {state after : State}

/-! ## 1. Counters and drafts

Only two changes of a state move a counter, opening and closing a branch, and these are the ones
that make a mark which moves the depth of the draft.  All others are covered by `of_marks`. -/

/-- The counters of a state are those of its draft. -/
structure State.Levelled (start : Draft) (state : State) : Prop where
  depth : state.depth = (state.view.draft start).outer.length
  deepest : state.deepest = (state.view.draft start).peak

namespace State.Levelled

/-- What marks nothing moves no counter. -/
theorem of_marks (h : state.Levelled start) (hmarks : after.marks = state.marks)
    (hdepth : after.depth = state.depth) (hdeepest : after.deepest = state.deepest) :
    after.Levelled start := by
  have hdraft : after.view.draft start = state.view.draft start :=
    congrArg (fun marks : List Mark => start.takeAll marks.reverse) hmarks
  exact ⟨by rw [hdepth, hdraft, h.depth], by rw [hdeepest, hdraft, h.deepest]⟩

/-- Moving past bytes marks nothing. -/
theorem consume (h : state.Levelled start) (n : Nat) : (state.consume scope n).Levelled start :=
  h.of_marks rfl rfl rfl

/-- Nor does a recovery; it is counted elsewhere. -/
theorem recover (h : state.Levelled start) (fault : Fault) (span : Span) :
    (state.recover fault span).Levelled start := h.of_marks rfl rfl rfl

/-- Nor does what a hash gathers. -/
theorem mapHash (h : state.Levelled start) (change : Hash → Hash) :
    (state.mapHash change).Levelled start := by
  unfold State.mapHash
  split
  · exact h.of_marks rfl rfl rfl
  · exact h

/-- Nor does a halt. -/
theorem halt (h : state.Levelled start) : ({ state with halted := true } : State).Levelled start :=
  h.of_marks rfl rfl rfl

/-- The draft of a state with one more mark. -/
theorem draft_of_marks (start : Draft) {mark : Mark} (hmarks : after.marks = mark :: state.marks) :
    after.view.draft start = (state.view.draft start).take mark := by
  show start.takeAll after.marks.reverse = _
  rw [hmarks, List.reverse_cons, Draft.takeAll_concat]
  rfl

/-- A leaf is a mark that leaves the depth as it is. -/
theorem addLeaf (h : state.Levelled start) (leaf : Leaf) (valid : Bool) :
    (state.addLeaf leaf valid).Levelled start := by
  have hdraft := draft_of_marks start
    (show (state.addLeaf leaf valid).marks = .leaf leaf valid state.position :: state.marks
      from rfl)
  refine ⟨?_, ?_⟩
  · rw [hdraft, Draft.length_outer_take]
    exact h.depth
  · rw [hdraft, Draft.peak_take]
    exact h.deepest

/-- A branch that opens is one more that is open, and may be the deepest one so far. -/
theorem openBranch (h : state.Levelled start) (branch : Branch) :
    (state.openBranch branch).Levelled start := by
  have hdraft := draft_of_marks start
    (show (state.openBranch branch).marks = .opened branch state.position :: state.marks from rfl)
  refine ⟨?_, ?_⟩
  · rw [hdraft, Draft.length_outer_take]
    exact congrArg (· + 1) h.depth
  · rw [hdraft, Draft.peak_take]
    show max state.deepest (state.depth + 1) = _
    rw [h.depth, h.deepest]

/-- Beginning a leaf and moving past it. -/
theorem takeLeaf (h : state.Levelled start) (leaf : Leaf) (n : Nat) :
    (state.takeLeaf scope leaf n).Levelled start := (h.addLeaf leaf true).consume n

/-- Opening a branch and moving past its opener. -/
theorem enter (h : state.Levelled start) (branch : Branch) (n : Nat) :
    (state.enter scope branch n).Levelled start := (h.openBranch branch).consume n

end State.Levelled

/-! ## 2. What readers keep

A reader that declines keeps anything.  One that accepts is built from the changes of section 1, so
its lemma follows the text of the reader: the cases of a match, and in each of them what is done
there. -/

/-- If a reader accepts, the counters are right after it. -/
def Keeps (start : Draft) (next : Option State) : Prop :=
  ∀ after, next = some after → after.Levelled start

namespace Keeps

variable {next other : Option State}

/-- A reader that declines. -/
theorem none : Keeps start none := fun _ h => by cases h

/-- A reader that accepts, and leaves the counters right. -/
theorem some (h : state.Levelled start) : Keeps start (some state) := fun _ hnext => by
  obtain rfl := Option.some.inj hnext
  exact h

/-- A reader that asks a question first. -/
theorem ite {p : Prop} [Decidable p] (hnext : Keeps start next) (hother : Keeps start other) :
    Keeps start (if p then next else other) := by
  split
  · exact hnext
  · exact hother

/-- A reader that tries two things. -/
theorem or (hnext : Keeps start next) (hother : Keeps start other) :
    Keeps start (next <|> other) := by
  cases next with
  | none => exact hother
  | some state => exact hnext

/-- A reading that is found is taken in one way. -/
theorem found {α : Type} {take : α → State} (reading : Option α)
    (h : ∀ found, (take found).Levelled start) : Keeps start (reading.map take) := by
  cases reading with
  | none => exact .none
  | some reading => exact .some (h reading)

/-- What goes on after a reader keeps the counters if it keeps them anywhere. -/
theorem map (hnext : Keeps start next) {go : State → State}
    (h : ∀ {state : State}, state.Levelled start → (go state).Levelled start) :
    Keeps start (next.map go) := by
  intro after hafter
  obtain ⟨state, hstate, rfl⟩ := Option.map_eq_some_iff.mp hafter
  exact h (hnext state hstate)

end Keeps

/-- A branch that closes is one less that is open; the deepest one stays what it was. -/
theorem State.Levelled.close (h : state.Levelled start) (valid : Bool) :
    Keeps start (state.closeBranch? valid) := by
  unfold closeBranch?
  split
  · exact .none
  · refine .some ⟨?_, ?_⟩
    · rw [draft_of_marks start rfl, Draft.length_outer_take]
      exact congrArg (· - 1) h.depth
    · rw [draft_of_marks start rfl, Draft.peak_take]
      exact h.deepest

/-- The same with its closer. -/
theorem State.Levelled.leave (h : state.Levelled start) (n : Nat) :
    Keeps start (state.leave? scope n) :=
  (h.close true).map fun h => h.consume n

/-- A hash is settled and perhaps noted before it closes, which moves no counter. -/
theorem State.Levelled.closeHash (h : state.Levelled start) : Keeps start state.closeHash? := by
  unfold closeHash?
  split
  · dsimp only
    split
    · exact (h.mapHash _).close _
    · exact ((h.mapHash _).recover _ _).close _
  · exact h.close true

section Readers

variable (h : state.Levelled start) (scope : Scope)

include h

/-- Leaves: blanks, numerals, separators, operators and markers. -/
theorem readBlank_keeps : Keeps start (readBlank scope state) := by
  unfold readBlank
  split
  · exact .none
  · exact .some (h.takeLeaf _ _)

theorem readNumeral_keeps : Keeps start (readNumeral scope state) :=
  .found _ fun found => h.takeLeaf (.numeric found.1) found.2

theorem readSeparator_keeps : Keeps start (readSeparator scope state) := by
  unfold readSeparator
  split
  · exact .ite (.some (h.takeLeaf _ 1)) .none
  · exact .none

theorem readOperator_keeps : Keeps start (readOperator scope state) := by
  unfold readOperator
  split
  · exact .ite (.some (h.takeLeaf _ 1)) .none
  · exact .none

theorem readCdx_keeps : Keeps start (readCdx scope state) := by
  have hmarker : ∀ marker : CdxMarker, Keeps start
      (if (Utf8.encode marker.text).isPrefixOf state.rest then
        some (state.takeLeaf scope (.cdx marker) (Utf8.encode marker.text).length)
      else Option.none) := fun marker => .ite (.some (h.takeLeaf _ _)) .none
  refine .ite (fun after hafter => ?_) .none
  obtain ⟨marker, -, hfound⟩ := List.exists_of_findSome?_eq_some hafter
  exact hmarker marker after hfound

/-- An escape is a leaf, noted if its brace stays open. -/
theorem readEscape_keeps : Keeps start (readEscape scope state) := by
  refine .found _ fun reading => ?_
  dsimp only
  split
  · exact (h.addLeaf _ _).consume _
  · exact ((h.addLeaf _ _).consume _).recover _ _

theorem readContinuation_keeps : Keeps start (readContinuation scope state) :=
  .found _ fun length => h.takeLeaf _ length

/-- Raw text is a leaf, or grows without a mark. -/
theorem readRaw_keeps : Keeps start (readRaw scope state) :=
  .ite (.some (h.consume 1)) (.some (h.takeLeaf .raw 1))

/-- So are unexpected bytes, with what is noted about them. -/
theorem readUnexpected_keeps : Keeps start (readUnexpected scope state) := by
  refine .some ?_
  split
  · refine State.Levelled.recover (State.Levelled.consume ?_ 1) _ _
    split
    · exact h
    · exact h.addLeaf _ _
  · split
    · exact h.consume 1
    · exact ((h.addLeaf _ _).consume 1).recover _ _

/-- Groups, strings, addresses and comments open with something and close with something. -/
theorem readGroupOpening_keeps : Keeps start (readGroupOpening scope state) := by
  unfold readGroupOpening
  split
  · exact .found _ fun bracket => h.enter (.group bracket) 1
  · exact .none

theorem readGroupClosing_keeps : Keeps start (readGroupClosing scope state) := by
  unfold readGroupClosing
  split
  · exact .ite (h.leave 1) .none
  · exact .none

theorem readQuotedOpening_keeps : Keeps start (readQuotedOpening scope state) := by
  unfold readQuotedOpening
  split
  · split
    · exact .ite .none (.some (h.enter _ 1))
    · exact .none
  · exact .none

/-- A string that a line break cuts off is noted and closes. -/
theorem readStringBreak_keeps : Keeps start (readStringBreak scope state) := by
  refine .ite .none ?_
  split
  · exact ((h.recover _ _).close false).map fun h => h.consume _
  · exact .none

theorem readQuotedClosing_keeps : Keeps start (readQuotedClosing scope state) := by
  unfold readQuotedClosing
  split
  · exact .ite .none (.ite (h.leave 1) (readStringBreak_keeps h scope))
  · exact .none

theorem readUrlOpening_keeps : Keeps start (readUrlOpening scope state) :=
  .ite (.some (h.enter .url 4)) .none

theorem readUrlClosing_keeps : Keeps start (readUrlClosing scope state) := .ite (h.leave 1) .none

theorem readBlockOpening_keeps : Keeps start (readBlockOpening scope state) :=
  .ite (.some (h.enter _ 2)) .none

theorem readLineOpening_keeps : Keeps start (readLineOpening scope state) :=
  .ite (.some (h.enter _ 2)) .none

theorem readCommentOpening_keeps : Keeps start (readCommentOpening scope state) :=
  (readBlockOpening_keeps h scope).or (readLineOpening_keeps h scope)

theorem readUrlComment_keeps : Keeps start (readUrlComment scope state) :=
  .ite (readCommentOpening_keeps h scope) .none

theorem readBlockClosing_keeps : Keeps start (readBlockClosing scope state) :=
  .ite (h.leave 2) .none

theorem readLineClosing_keeps : Keeps start (readLineClosing scope state) := by
  unfold readLineClosing
  split
  · exact h.leave _
  · exact .none

/-- Fragments and names open and close without taking anything. -/
theorem readQuasiOpening_keeps : Keeps start (readQuasiOpening scope state) :=
  .found _ fun _ => h.openBranch _

theorem readAnnotationOpening_keeps : Keeps start (readAnnotationOpening scope state) :=
  .found _ fun _ => h.openBranch _

/-- A fragment closes behind its group. -/
theorem readFragmentClosing_keeps : Keeps start (readFragmentClosing scope state) := by
  unfold readFragmentClosing
  split
  · exact h.close true
  · exact .none

theorem readIdentifierOpening_keeps : Keeps start (readIdentifierOpening scope state) :=
  .ite (.some (h.openBranch _)) .none

theorem readNameRun_keeps : Keeps start (readNameRun scope state) := by
  unfold readNameRun
  split
  · exact .none
  · exact .some (h.takeLeaf _ _)

/-- A name closes, or the scan halts in it. -/
theorem readIdentifierClosing_keeps : Keeps start (readIdentifierClosing scope state) :=
  (h.close true).or (.some h.halt)

theorem readHashOpening_keeps : Keeps start (readHashOpening scope state) :=
  .found _ fun hash => h.enter (.hash hash) 1

/-- In a hash, a leaf also changes what is gathered. -/
theorem readHashEscape_keeps : Keeps start (readHashEscape scope state) := by
  unfold readHashEscape
  cases Escape.read? scope.dialect state.rest with
  | none => exact .none
  | some reading => exact (readEscape_keeps h scope).map fun h => h.mapHash _

theorem readHashRun_keeps : Keeps start (readHashRun scope state) :=
  (readNameRun_keeps h scope).map fun h => h.mapHash _

theorem readHashClosing_keeps : Keeps start (readHashClosing scope state) :=
  h.closeHash.or (.some h.halt)

/-- **Every reader keeps the counters.** -/
theorem readers_keep : ∀ reader ∈ readers, Keeps start (reader scope state) := by
  -- the list of all readers, in its order
  simp only [readers, List.forall_mem_cons]
  exact ⟨readBlank_keeps h scope, readNumeral_keeps h scope, readCdx_keeps h scope,
    readSeparator_keeps h scope, readOperator_keeps h scope, readEscape_keeps h scope,
    readContinuation_keeps h scope, readRaw_keeps h scope, readUnexpected_keeps h scope,
    readGroupOpening_keeps h scope, readGroupClosing_keeps h scope,
    readQuotedOpening_keeps h scope, readQuotedClosing_keeps h scope,
    readUrlOpening_keeps h scope, readUrlClosing_keeps h scope, readCommentOpening_keeps h scope,
    readUrlComment_keeps h scope, readBlockOpening_keeps h scope, readBlockClosing_keeps h scope,
    readLineClosing_keeps h scope, readQuasiOpening_keeps h scope,
    readAnnotationOpening_keeps h scope, readFragmentClosing_keeps h scope,
    readIdentifierOpening_keeps h scope, readIdentifierClosing_keeps h scope,
    readNameRun_keeps h scope, readHashOpening_keeps h scope, readHashEscape_keeps h scope,
    readHashRun_keeps h scope, readHashClosing_keeps h scope, List.forall_mem_nil _⟩

end Readers

/-! ## 3. The scan

A turn is one of the readers, and the loop is many turns; at the end of the input branches close as
they do elsewhere. -/

/-- **Every turn keeps the counters.** -/
theorem readNext_levelled (scope : Scope) (h : state.Levelled start) :
    (readNext scope state).Levelled start :=
  readNext_of_readers h (readers_keep h scope)

/-- The end of the input closes a branch, with or without a note. -/
theorem closeAtEnd?_keeps (h : state.Levelled start) : Keeps start state.closeAtEnd? := by
  unfold State.closeAtEnd?
  split
  · exact h.closeHash
  · exact h.close true
  · exact h.close true
  · exact h.close true
  · exact (h.recover _ _).close false

end Scan

/-- **The counters of a scan are those of its draft.** -/
theorem Lexer.scan_levelled (lexer : Lexer) (branch : Branch) (source : Source) {start : Draft}
    (houter : start.outer = []) (hpeak : start.peak = 0) :
    (lexer.scan branch source).Levelled start := by
  have hinitial : (initial branch source).Levelled start := by
    refine ⟨?_, hpeak.symm⟩
    show 0 = start.outer.length
    rw [houter]
    rfl
  obtain ⟨-, hlevelled, -⟩ := Scan.run_states (P := fun state => state.Levelled start)
    (initial_fresh branch source) hinitial
    (fun _ _ _ _ h => Scan.readNext_levelled (lexer.scope source) h)
    fun _ after _ _ hclosed h => Scan.closeAtEnd?_keeps h after hclosed
  exact hlevelled

end StyleLex
