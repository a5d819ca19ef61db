/-
# What a call takes of its range

A call reports the length of the range that it was asked for.  What it takes of the range ends where
its scan ends, and there the branch ends that it adds to, whatever the tree (`Lexer.span?_extend`).
The two numbers agree where the scan comes to its bound.  It does so in every branch that is no
name: a scan leaves something of its range only where it halts, in a name that it was started in and
in front of what is no part of one (`Lexer.scan_unread`).

The number of bytes that a call reports is computed before the scan begins, from the range.  So it
says how much the caller asked for.  That this is what was read is true of most calls, and the exact
condition is given here: something is left only in a name, and only if what is left does not go on
with the name.
-/
import StyleLex.Proofs.Coverage
import StyleLex.Proofs.Depths
import StyleLex.Proofs.Tree.Binding
import StyleLex.Proofs.Turns

namespace StyleLex

/-! ## 1. Where a scan halts

A scan halts only where a name is to be closed that the caller has opened, by the last reader of
names.  So it has to be shown that as long as the name goes on, an earlier reader accepts. -/

namespace Scan

variable {scope : Scope} {state after : State} {view next : View} {base : Branch}

/-- An escape does not halt. -/
theorem halted_of_readEscape (h : readEscape scope state = some after) :
    after.halted = state.halted := by
  unfold readEscape at h
  obtain ⟨reading, -, rfl⟩ := Option.map_eq_some_iff.mp h
  split <;> rfl

/-- Nor do name bytes. -/
theorem halted_of_readNameRun (h : readNameRun scope state = some after) :
    after.halted = state.halted := by
  unfold readNameRun at h
  split at h
  · cases h
  · cases h
    rfl

/-- Nor does what a hash gathers. -/
theorem halted_mapHash (change : Hash → Hash) (state : State) :
    (state.mapHash change).halted = state.halted := by
  unfold State.mapHash
  split <;> rfl

/-- Where an identifier goes on, one of the two accepts. -/
theorem halted_readNext_identifier (scope : Scope) {value : String}
    (hbranch : state.frame.branch = .identifier value) (hahead : NameAhead state.rest) :
    (readNext scope state).halted = state.halted := by
  have hreaders : readersOf state.context = [readEscape, readNameRun, readIdentifierClosing] := by
    rw [State.context, hbranch]
    rfl
  cases hescape : readEscape scope state with
  | some after =>
    rw [readNext_of_first hreaders hescape]
    exact halted_of_readEscape hescape
  | none =>
    cases hrun : readNameRun scope state with
    | some after =>
      rw [readNext_of_second hreaders hescape hrun]
      exact halted_of_readNameRun hrun
    | none => exact absurd hahead (not_nameAhead hescape hrun)

/-- The readers of a hash are those of an identifier, and they gather beside. -/
theorem halted_readNext_hash (scope : Scope) {hash : Hash}
    (hbranch : state.frame.branch = .hash hash) (hahead : NameAhead state.rest) :
    (readNext scope state).halted = state.halted := by
  have hreaders : readersOf state.context = [readHashEscape, readHashRun, readHashClosing] := by
    rw [State.context, hbranch]
    rfl
  cases hread : Escape.read? scope.dialect state.rest with
  | some reading =>
    have hfirst : readHashEscape scope state =
        some ((state.escaped scope reading).mapHash (Hash.escaped reading)) := by
      rw [readHashEscape_eq, hread, Option.map_some]
    rw [readNext_of_first hreaders hfirst, halted_mapHash]
    exact congrArg View.halted (view_escaped scope state reading)
  | none =>
    have hescape : readEscape scope state = none := by rw [readEscape, hread, Option.map_none]
    have hfirst : readHashEscape scope state = none := by
      rw [readHashEscape_eq, hread, Option.map_none]
    cases hrun : readNameRun scope state with
    | some after =>
      have hsecond : readHashRun scope state = some (after.mapHash fun hash =>
          (state.rest.takeWhile Byte.isName).foldl Hash.accumulate hash) := by
        rw [readHashRun, hrun, Option.map_some]
      rw [readNext_of_second hreaders hfirst hsecond, halted_mapHash]
      exact halted_of_readNameRun hrun
    | none => exact absurd hahead (not_nameAhead hescape hrun)

/-- **Where a name goes on, the scan does**: one of the first two readers of a name accepts. -/
theorem halted_readNext (scope : Scope) (hname : state.frame.branch.isName = true)
    (hahead : NameAhead state.rest) : (readNext scope state).halted = state.halted := by
  cases hbranch : state.frame.branch with
  | identifier value => exact halted_readNext_identifier scope hbranch hahead
  | hash hash => exact halted_readNext_hash scope hbranch hahead
  | _ =>
    rw [hbranch] at hname
    cases hname

/-- A step that halts is in a name that the caller has opened, and takes nothing. -/
theorem Step.of_halted (h : Step scope view next) (hrun : view.halted = false)
    (hhalted : next.halted = true) :
    view.frame.branch.isName = true ∧ view.outer = [] ∧ next.rest = view.rest := by
  cases h with
  | halted name outer => exact ⟨name, outer, rfl⟩
  | leaf | grow | opened | closed =>
    have hview : view.halted = true := hhalted
    rw [hrun] at hview
    cases hview

/-- A scan that was started in `base` has halted only if that is a name, and only in front of what
is no part of one. -/
structure State.Halting (base : Branch) (state : State) : Prop where
  caller : base.Alike (outermost state.frame state.outer).branch
  halted : state.halted = true → base.isName = true ∧ ¬ NameAhead state.rest

/-- A turn keeps it. -/
theorem State.Halting.readNext (h : state.Halting base) (scope : Scope) (ahead : state.rest ≠ [])
    (hrun : state.halted = false) : (readNext scope state).Halting base := by
  have hstep := readNext_step scope ahead
  refine ⟨h.caller.trans hstep.outermost_alike, fun hhalted => ?_⟩
  obtain ⟨hname, houter, hrest⟩ : state.frame.branch.isName = true ∧ state.outer = [] ∧
      (Scan.readNext scope state).rest = state.rest := hstep.of_halted hrun hhalted
  have hcaller := h.caller
  rw [houter, outermost] at hcaller
  refine ⟨hcaller.isName_eq.trans hname, ?_⟩
  rw [hrest]
  intro hahead
  rw [halted_readNext scope hname hahead, hrun] at hhalted
  cases hhalted

/-- Closing a branch at the end keeps it too, as nothing is left. -/
theorem State.Halting.closeAtEnd? (h : state.Halting base) (scope : Scope) {closed : State}
    (hrest : state.rest = []) (hclosed : state.closeAtEnd? = some closed) :
    closed.Halting base := by
  have hstep := closeAtEnd?_step scope hrest hclosed
  obtain ⟨-, hahead, hhalted⟩ := closeAtEnd?_inside hclosed
  refine ⟨h.caller.trans hstep.outermost_alike, ?_⟩
  rw [hahead, hhalted]
  exact h.halted

end Scan

/-! ## 2. What a scan leaves

What is left of a range is compared with where the scan ended, by lengths. -/

/-- What is left of a range behind `stop`. -/
def Source.unread (source : Source) (stop : Position) : List UInt8 :=
  (source.bytes.toList.take source.limit).drop stop.byte

namespace Lexer

open Scan

/-- **A scan takes its range up to where it ends, and leaves nothing but in a name**: there it ends
in front of what is no part of one. -/
theorem scan_unread (lexer : Lexer) (branch : Branch) (source : Source) :
    source.start.byte ≤ (lexer.scan branch source).position.byte ∧
      source.limit - source.start.byte =
        ((lexer.scan branch source).position.byte - source.start.byte) +
          (source.unread (lexer.scan branch source).position).length ∧
      (source.unread (lexer.scan branch source).position ≠ [] → branch.isName = true ∧
        ¬ NameAhead (source.unread (lexer.scan branch source).position)) := by
  have hfirst : (initial branch source).view.Ahead source.bytes source.limit ∧
      (initial branch source).view.Within source.start.byte source.finish ∧
      (initial branch source).Halting branch :=
    ⟨initial_ahead branch source, ⟨Nat.le_refl _, source.length_range, nofun⟩, .refl branch, nofun⟩
  obtain ⟨-, ⟨hahead, hwithin, hhalting⟩, hdone⟩ := run_states
    (P := fun state => state.view.Ahead source.bytes source.limit ∧
      state.view.Within source.start.byte source.finish ∧ state.Halting branch)
    (initial_fresh branch source) hfirst
    (fun _ _ ahead hrun h =>
      have hstep := readNext_step (lexer.scope source) ahead
      ⟨h.1.step hstep, h.2.1.step hstep, h.2.2.readNext (lexer.scope source) ahead hrun⟩)
    fun _ _ _ hrest hclosed h =>
      have hstep := closeAtEnd?_step (lexer.scope source) hrest hclosed
      ⟨h.1.step hstep, h.2.1.step hstep, h.2.2.closeAtEnd? (lexer.scope source) hrest hclosed⟩
  rw [← scan_eq lexer] at hahead hwithin hhalting hdone
  have hunread : (lexer.scan branch source).rest =
      source.unread (lexer.scan branch source).position := hahead
  have hlower : source.start.byte ≤ (lexer.scan branch source).position.byte := hwithin.lower
  have hupper : (lexer.scan branch source).position.byte + (lexer.scan branch source).rest.length =
      max source.start.byte source.limit := hwithin.upper
  rw [hunread] at hupper hdone
  refine ⟨hlower, by omega, fun hleft => ?_⟩
  rw [← hunread]
  exact hhalting.halted (hdone.resolve_left hleft)

/-- **The branch that is added to ends where the scan does**, whatever the tree. -/
theorem span?_extend (lexer : Lexer) {tree : Tree} {p : NodeId} (hp : p < tree.size)
    (branch : Branch) (source : Source) :
    ∃ span, (lexer.extend tree p branch source).tree.span? p = some span ∧
      span.stop = (lexer.scan branch source).position := by
  have hsize := lexer.size_extend tree p branch source
  have hpath := Assembly.getLast?_path_takeAll source.bytes
    (lexer.scan branch source).marks.reverse (Assembly.into tree p)
  have houter := lexer.outer_assembled tree p branch source
  rw [extend] at hsize ⊢
  rw [Assembly.finish_eq] at hsize ⊢
  generalize (Assembly.into tree p).takeAll source.bytes _ = marked at *
  have hbranch : (marked.settle (lexer.scan branch source).position).branch = p := by
    rw [← marked.path_settle (lexer.scan branch source).position, Assembly.path,
      Assembly.outer_settle, houter] at hpath
    exact Option.some.inj hpath
  rw [hbranch] at hsize ⊢
  rw [Tree.size_modify] at hsize
  obtain ⟨node, hnode⟩ := Tree.exists_node (Nat.lt_of_lt_of_le hp (hsize ▸ Nat.le_add_right _ _))
  refine ⟨⟨node.span.start, (lexer.scan branch source).position⟩, ?_, rfl⟩
  rw [Tree.span?, Tree.node?_modify, if_pos rfl, hnode]
  rfl

/-- **A call reports what it took of its range and what it left of it.**  The call that makes a tree
leaves nothing, so it reports how long its root is.  A call that adds to a branch, of any tree,
reports how far the branch goes from where the call began, and beside that what is left: that is
something only if the branch is a name, and then it goes on with what is no part of one. -/
theorem bytes_reported (lexer : Lexer) :
    (∀ source : Source, ∃ span, (lexer.tokenize source).tree.span? Tree.root = some span ∧
      source.start.byte ≤ span.stop.byte ∧
      (lexer.tokenize source).metrics.bytes = span.stop.byte - source.start.byte) ∧
    ∀ (tree : Tree) (id : NodeId) (source : Source) (outcome : Outcome),
      lexer.resume tree id source = .ok outcome →
        ∃ branch span, tree.kind? id = some (.branch branch) ∧
          outcome.tree.span? id = some span ∧ source.start.byte ≤ span.stop.byte ∧
          outcome.metrics.bytes =
            (span.stop.byte - source.start.byte) + (source.unread span.stop).length ∧
          (source.unread span.stop ≠ [] →
            branch.isName = true ∧ ¬ NameAhead (source.unread span.stop)) := by
  constructor
  · intro source
    obtain ⟨span, hspan, hstop⟩ := lexer.span?_extend
      (show Tree.root < (Tree.new source.filename source.start).size from Nat.one_pos) .root source
    obtain ⟨hlower, hbytes, hleft⟩ := lexer.scan_unread .root source
    have hnone : source.unread (lexer.scan .root source).position = [] :=
      Classical.byContradiction fun hne => Bool.false_ne_true (hleft hne).1
    rw [hnone] at hbytes
    refine ⟨span, hspan, ?_, ?_⟩
    · rw [hstop]
      exact hlower
    · rw [hstop]
      exact hbytes
  · intro tree id source outcome hresume
    obtain ⟨origin, branch, horigin, hkind, hextend⟩ | ⟨leaf, -, hrefused⟩ | ⟨-, hunknown⟩ :=
      lexer.resume_cases tree id source
    · obtain rfl := Except.ok.inj (hextend.symm.trans hresume)
      obtain ⟨span, hspan, hstop⟩ :=
        lexer.span?_extend (Tree.lt_size_of_body? horigin) branch source
      obtain ⟨hlower, hbytes, hleft⟩ := lexer.scan_unread branch source
      rw [← hstop] at hlower hbytes hleft
      refine ⟨branch, span, ?_, hspan, hlower, hbytes, hleft⟩
      rw [Tree.kind?_eq, horigin, Option.map_some, hkind]
    · cases hrefused.symm.trans hresume
    · cases hunknown.symm.trans hresume

/-- The first letter of `ab`, which was read up to the second one. -/
def firstLetter : Tree :=
  (tokenize ⟨Dialect.standard, Fragments.empty⟩ { bytes := #[0x61, 0x62], bound := some 1 }).tree

/-- The second letter, to be read into the name. -/
def letterAhead : Source where
  bytes := #[0x61, 0x62]
  start := ⟨⟨1, 1⟩, ⟨1, 1⟩, 0⟩

/-- A name that goes on to its bound leaves nothing: the letter is reported, and it was taken. -/
theorem bytes_reported_of_letter : ∃ outcome : Outcome,
    resume ⟨Dialect.standard, Fragments.empty⟩ firstLetter 1 letterAhead = .ok outcome ∧
    outcome.metrics.bytes = 1 ∧
    ∃ branch span, firstLetter.kind? 1 = some (.branch branch) ∧
      outcome.tree.span? 1 = some span ∧ letterAhead.start.byte ≤ span.stop.byte ∧
      outcome.metrics.bytes = (span.stop.byte - letterAhead.start.byte) +
        (letterAhead.unread span.stop).length ∧
      (letterAhead.unread span.stop ≠ [] →
        branch.isName = true ∧ ¬ NameAhead (letterAhead.unread span.stop)) :=
  ⟨_, rfl, rfl,
    (bytes_reported ⟨Dialect.standard, Fragments.empty⟩).2 firstLetter 1 letterAhead _ rfl⟩

/-- The name in `a b`, resumed at its end, with the blank ahead: the call takes nothing, so the name
ends where it did before, but two bytes are reported. -/
theorem resumed_name_reports_unread : ∃ (tree : Tree) (outcome : Outcome) (span : Span),
    tree = (tokenize ⟨Dialect.standard, Fragments.empty⟩
      { bytes := #[0x61, 0x20, 0x62], bound := some 1 }).tree ∧
    resume ⟨Dialect.standard, Fragments.empty⟩ tree 1
      { bytes := #[0x61, 0x20, 0x62], start := ⟨⟨1, 1⟩, ⟨1, 1⟩, 0⟩ } = .ok outcome ∧
    outcome.tree.span? 1 = some span ∧ span.stop.byte - 1 = 0 ∧ outcome.metrics.bytes = 2 :=
  ⟨_, _, ⟨Position.origin, ⟨⟨1, 1⟩, ⟨1, 1⟩, 0⟩⟩, rfl, rfl, by decide +kernel, rfl, rfl⟩

end Lexer
end StyleLex
