/-
# The steps of a scan

`Step scope before after` lists what one step of a scan can do: take a leaf, let the leaf before
grow, open a branch, close one, or halt.  Each case names what the reader made sure of.  A step is
about the view of a state, which leaves out what is only counted: depth and recoveries.

Every reader makes one of these steps (section 3), hence so does `readNext` (`readNext_step`),
and what all steps preserve holds of every state of a scan.

There are some thirty readers and only five cases, so this is where the readers are opened, once
each.  What a later module needs to know of a turn it takes from the cases: a branch has bytes ahead
of its opener, it ends in one of the ways of `Ends`, and a leaf is flagged as its text deserves.

Two hypotheses of the cases look odd at first sight.  `opened` and `closed` speak of `NameAhead`,
because an identifier or a hash has no delimiter at its end and may have none at its beginning: what
keeps such a branch from being empty is the text that was seen ahead when it was opened.  And
`closed` asks for a branch that is `Alike` to the innermost one and not for the branch itself, for a
hash settles its color only when it closes.

A hash is the one branch that changes while it is read.  Section 4 says how (`HashStep`), and the
steps of section 2 forget it again.
-/
import StyleLex.Proofs.Scan.Ending

namespace StyleLex
namespace Scan

/-! ## 1. Views

Depth and recoveries are reported but never read, and no reader decides anything by them.  With them
out of the way two states that differ only in what was counted have equal views, and a step is a
relation between views that an equation can decide. -/

/-- A state without its counters. -/
structure View where
  rest : List UInt8
  position : Position
  frame : Frame
  outer : List Frame
  halted : Bool
  marks : List Mark

/-- What a reader can see of a state, and what it can change. -/
def State.view (state : State) : View where
  rest := state.rest
  position := state.position
  frame := state.frame
  outer := state.outer
  halted := state.halted
  marks := state.marks

namespace View

/-- Moves past `n` bytes, or to the bound. -/
def consume (scope : Scope) (n : Nat) (view : View) : View :=
  { view with
    rest := view.rest.drop n
    position := view.position.advanceOver ((view.rest.drop n).head?.or scope.beyond)
      (view.rest.take n) }

/-- Begins a leaf. -/
def addLeaf (leaf : Leaf) (valid : Bool) (branch : Branch) (view : View) : View :=
  { view with
    marks := .leaf leaf valid view.position :: view.marks
    frame := { view.frame with branch := branch, pending := some (.leaf leaf) } }

/-- Begins a branch. -/
def openBranch (branch : Branch) (view : View) : View :=
  { view with
    marks := .opened branch view.position :: view.marks
    frame := { branch := branch, start := view.position }
    outer := { view.frame with pending := none } :: view.outer }

/-- Completes the innermost branch and goes back to `around`. -/
def closeBranch (branch : Branch) (valid : Bool) (around : Frame) (further : List Frame)
    (view : View) : View :=
  { view with
    marks := .closed branch valid view.position :: view.marks
    frame := { around with pending := some (.branch branch) }
    outer := further }

end View

/-! ## 2. Steps

The five cases are all that happens between two states of a scan, at the end of the input too: the
branches that are still open there are closed by `closed`, with no byte ahead. -/

/-- Does the text of a name go on here? -/
def NameAhead (rest : List UInt8) : Prop :=
  rest.head?.any Byte.isName = true ∨ Escape.begins rest = true

/-- What one step can do to a view.  `opened` and `closed` say what is ahead of a name, so that no
name is empty; `opened` also says that names and fragments stand in other branches only.  No case
says which reader made the step, or in which order the readers were asked. -/
inductive Step (scope : Scope) (view : View) : View → Prop where
  | leaf {leaf : Leaf} {valid : Bool} {branch : Branch} {n : Nat}
      (ahead : view.rest ≠ []) (positive : 0 < n) (alike : view.frame.branch.Alike branch)
      (sound : valid = true ↔ leaf.Sound (view.rest.take n)) :
      Step scope view ((view.addLeaf leaf valid branch).consume scope n)
  | grow (ahead : view.rest ≠ [])
      (run : view.frame.pending = some (.leaf .raw) ∨
        view.frame.pending = some (.leaf .unexpected)) :
      Step scope view (view.consume scope 1)
  | opened {branch : Branch} (ahead : view.rest ≠ []) (proper : branch ≠ .root)
      (fits : branch.openerLength ≤ view.rest.length)
      (inside : branch.isNarrow = true → view.frame.branch.isNarrow = false)
      (begins : branch.isName = true →
        NameAhead (view.rest.drop branch.openerLength)) :
      Step scope view ((view.openBranch branch).consume scope branch.openerLength)
  | closed {branch : Branch} {valid : Bool} {n : Nat} {around : Frame} {further : List Frame}
      (outer : view.outer = around :: further) (alike : view.frame.branch.Alike branch)
      (ends : Ends scope.dialect branch view.frame.pending view.rest valid n)
      (complete : branch.isName = true → ¬ NameAhead view.rest) :
      Step scope view ((view.closeBranch branch valid around further).consume scope n)
  | halted (name : view.frame.branch.isName = true) (outer : view.outer = []) :
      Step scope view { view with halted := true }

/-! ## 3. What each reader does

For each reader there is one lemma, with a name of the form `…_step`: where the reader accepts, its
result is one of the five steps.  The readers of leaves come first, then the branches with
delimiters, then fragments, identifiers and hashes.  Some lemmas have the branch or the bytes ahead
as hypotheses, which hold in the contexts that list the reader (section 5). -/

variable {scope : Scope} {state after : State}

/-- Consuming is the same for a state and for its view. -/
@[simp] theorem view_consume (n : Nat) :
    (state.consume scope n).view = state.view.consume scope n := rfl

/-- Completing a branch needs one around it, and keeps the flag and the branch that it is given. -/
theorem closeBranch?_eq_some {valid : Bool} (h : state.closeBranch? valid = some after) :
    ∃ around further, state.view.outer = around :: further ∧
      after.view = state.view.closeBranch state.frame.branch valid around further := by
  unfold State.closeBranch? at h
  split at h
  · cases h
  · rename_i around further houter
    cases h
    exact ⟨around, further, houter, rfl⟩

/-- A leaf without a flag to settle: whatever its text is, it is valid. -/
theorem takeLeaf_step {leaf : Leaf} {n : Nat} (ahead : state.rest ≠ []) (positive : 0 < n)
    (sound : ∀ slice, leaf.Sound slice) :
    Step scope state.view (state.takeLeaf scope leaf n).view :=
  .leaf ahead positive (.refl _) ⟨fun _ => sound _, fun _ => rfl⟩

/-- A run that is not empty begins with the byte ahead, so there is one. -/
theorem takeWhile_ahead {p : UInt8 → Bool} {rest run : List UInt8} {b : UInt8}
    (h : rest.takeWhile p = b :: run) : ∃ tail, rest = b :: tail ∧ p b = true := by
  cases rest with
  | nil => simp at h
  | cons c tail =>
    cases hc : p c with
    | false => simp [hc] at h
    | true =>
      rw [List.takeWhile_cons, if_pos hc] at h
      obtain ⟨rfl, -⟩ := List.cons.inj h
      exact ⟨tail, rfl, hc⟩

/-- A run of blanks is a leaf. -/
theorem readBlank_step (h : readBlank scope state = some after) :
    Step scope state.view after.view := by
  unfold readBlank at h
  cases hrun : state.rest.takeWhile Byte.isBlank with
  | nil => simp [hrun] at h
  | cons b run =>
    rw [hrun] at h
    cases h
    obtain ⟨tail, hrest, -⟩ := takeWhile_ahead hrun
    exact takeLeaf_step (by simp [hrest]) (by simp) fun _ => trivial

/-- A run of name bytes is a leaf. -/
theorem readNameRun_step (h : readNameRun scope state = some after) :
    Step scope state.view after.view := by
  unfold readNameRun at h
  cases hrun : state.rest.takeWhile Byte.isName with
  | nil => simp [hrun] at h
  | cons b run =>
    rw [hrun] at h
    cases h
    obtain ⟨tail, hrest, -⟩ := takeWhile_ahead hrun
    exact takeLeaf_step (by simp [hrest]) (by simp) fun _ => trivial

/-- A separator is a leaf of one byte. -/
theorem readSeparator_step (h : readSeparator scope state = some after) :
    Step scope state.view after.view := by
  unfold readSeparator at h
  split at h
  · rename_i b rest hrest
    split at h
    · cases h
      exact takeLeaf_step (by simp [hrest]) (by simp) fun _ => trivial
    · cases h
  · cases h

/-- An operator is a leaf of one byte. -/
theorem readOperator_step (h : readOperator scope state = some after) :
    Step scope state.view after.view := by
  unfold readOperator at h
  split at h
  · rename_i b rest hrest
    split at h
    · cases h
      exact takeLeaf_step (by simp [hrest]) (by simp) fun _ => trivial
    · cases h
  · cases h

/-- One of the two markers around HTML comments is a leaf of its own length. -/
theorem readCdx_step (h : readCdx scope state = some after) :
    Step scope state.view after.view := by
  unfold readCdx at h
  split at h
  · obtain ⟨marker, -, hmarker⟩ := List.exists_of_findSome?_eq_some h
    dsimp only at hmarker
    split at hmarker
    · rename_i hfront
      cases hmarker
      -- no marker is empty, so finding one as a prefix shows that there are bytes ahead
      have htext : 0 < (Utf8.encode marker.text).length := by
        cases marker <;> decide
      refine takeLeaf_step ?_ htext fun _ => trivial
      intro hrest
      rw [List.isPrefixOf_iff_prefix, hrest, List.prefix_nil] at hfront
      rw [hfront] at htext
      cases htext
    · cases hmarker
  · cases h

/-- A number is a leaf; that it takes a byte is a property of the reader of numbers. -/
theorem readNumeral_step (h : readNumeral scope state = some after) :
    Step scope state.view after.view := by
  unfold readNumeral at h
  obtain ⟨⟨numeral, n⟩, hread, rfl⟩ := Option.map_eq_some_iff.mp h
  refine takeLeaf_step ?_ (Numeral.read?_pos hread) fun _ => trivial
  intro hrest
  rw [hrest, Numeral.read?_nil] at hread
  cases hread

/-- An escape is a leaf that is flagged by its own form: it is valid unless it opens a brace and
does not close it. -/
theorem readEscape_step (h : readEscape scope state = some after) :
    Step scope state.view after.view := by
  unfold readEscape at h
  obtain ⟨reading, hread, rfl⟩ := Option.map_eq_some_iff.mp h
  obtain ⟨hlength, hflag⟩ := Escape.closed_iff hread
  have ahead : state.rest ≠ [] := by
    intro hrest
    rw [hrest] at hread
    cases hread
  -- the recovery of an escape that is left open is counted only, so the view does not show it
  have hview : ∀ final : State, (if reading.closed then final
      else final.recover .escape ⟨state.position, final.position⟩).view = final.view := by
    intro final
    split <;> rfl
  rw [hview]
  exact .leaf ahead (by omega) (.refl _) hflag

/-- A backslash before a line break is an escape without a codepoint, and never left open. -/
theorem readContinuation_step (h : readContinuation scope state = some after) :
    Step scope state.view after.view := by
  unfold readContinuation at h
  obtain ⟨n, hlength, rfl⟩ := Option.map_eq_some_iff.mp h
  obtain ⟨ahead, positive, hclosed⟩ := Escape.continuationLength?_eq_some hlength
  exact .leaf ahead positive (.refl _) ⟨fun _ => hclosed, fun _ => rfl⟩

/-- Raw text grows by a byte if it was read last, and begins with one otherwise. -/
theorem readRaw_step (ahead : state.rest ≠ []) (h : readRaw scope state = some after) :
    Step scope state.view after.view := by
  unfold readRaw at h
  split at h
  · rename_i hpending
    cases h
    exact .grow ahead (Or.inl hpending)
  · cases h
    exact takeLeaf_step ahead Nat.one_pos fun _ => trivial

/-- Unexpected bytes grow in the same way; they are never valid. -/
theorem readUnexpected_step (ahead : state.rest ≠ [])
    (h : readUnexpected scope state = some after) : Step scope state.view after.view := by
  -- what is recovered and logged with the run is counted only, and the view does not show it
  have hview : after.view =
      ((if state.frame.pending == some (.leaf .unexpected) then state
        else state.addLeaf .unexpected false).consume scope 1).view := by
    unfold readUnexpected at h
    cases h
    split
    · rfl
    · split <;> rfl
  rw [hview]
  split
  · rename_i hpending
    refine .grow ahead (Or.inr ?_)
    show state.frame.pending = _
    simpa using hpending
  · exact .leaf ahead Nat.one_pos (.refl _) (iff_of_false Bool.false_ne_true id)

/-- Opening a branch, and taking its opener; the hypotheses are those of the step. -/
theorem enter_step (branch : Branch) (ahead : state.rest ≠ []) (proper : branch ≠ .root)
    (fits : branch.openerLength ≤ state.rest.length)
    (inside : branch.isNarrow = true → state.frame.branch.isNarrow = false)
    (begins : branch.isName = true → NameAhead (state.rest.drop branch.openerLength)) :
    Step scope state.view (state.enter scope branch branch.openerLength).view :=
  .opened ahead proper fits inside begins

/-- A group opens with its bracket. -/
theorem readGroupOpening_step (h : readGroupOpening scope state = some after) :
    Step scope state.view after.view := by
  unfold readGroupOpening at h
  split at h
  · rename_i b rest hrest
    obtain ⟨bracket, -, rfl⟩ := Option.map_eq_some_iff.mp h
    exact enter_step (.group bracket) (by simp [hrest]) (by simp)
      (by simp [hrest, Branch.openerLength]) (fun h => by cases h) (fun h => by cases h)
  · cases h

/-- Closing a branch, and taking what closes it.  The state that closes may differ from `state` in
what is counted, as it does after a recovery. -/
theorem close_step {before : State} {valid : Bool} {n : Nat}
    (h : (before.closeBranch? valid).map (State.consume scope n) = some after)
    (hbefore : before.view = state.view) (hname : state.frame.branch.isName = false)
    (ends : Ends scope.dialect state.frame.branch state.frame.pending state.rest valid n) :
    Step scope state.view after.view := by
  obtain ⟨closed, hclosed, rfl⟩ := Option.map_eq_some_iff.mp h
  obtain ⟨around, further, houter, hview⟩ := closeBranch?_eq_some hclosed
  have hframe : before.frame = state.frame := congrArg View.frame hbefore
  rw [view_consume, hview, hbefore, hframe]
  refine .closed (hbefore ▸ houter) (.refl _) ends fun hn => ?_
  rw [hname] at hn
  cases hn

/-- A byte ahead as a prefix, which is how `Ends` speaks of closers. -/
theorem facing_iff {b : UInt8} : facing b state = true ↔ [b] <+: state.rest := by
  unfold facing
  cases state.rest with
  | nil => simp
  | cons c tail =>
    constructor
    · intro h
      obtain rfl : c = b := by simpa using h
      exact ⟨tail, rfl⟩
    · rintro ⟨_, heq⟩
      cases heq
      simp

/-- The same for two bytes. -/
theorem facingPair_iff {a b : UInt8} : facingPair a b state = true ↔ [a, b] <+: state.rest := by
  rw [facingPair, List.isPrefixOf_iff_prefix]

/-- A group ends with its own closer and with nothing else. -/
theorem readGroupClosing_step (h : readGroupClosing scope state = some after) :
    Step scope state.view after.view := by
  unfold readGroupClosing at h
  split at h
  · rename_i bracket hbranch
    split at h
    · rename_i hfacing
      refine close_step h rfl (by rw [hbranch]; rfl) ?_
      rw [hbranch]
      exact .closer rfl (facing_iff.mp hfacing)
    · cases h
  · cases h

/-- A string opens with its quote. -/
theorem readQuotedOpening_step (h : readQuotedOpening scope state = some after) :
    Step scope state.view after.view := by
  unfold readQuotedOpening at h
  split at h
  · rename_i b rest hrest
    split at h
    · rename_i quote hquote
      split at h
      · cases h
      · cases h
        exact enter_step (.quoted quote) (by simp [hrest]) (by simp)
          (by simp [hrest, Branch.openerLength]) (fun h => by cases h) (fun h => by cases h)
    · cases h
  · cases h

/-- A string ends with its quote, or a line break cuts it off where the dialect does not let strings
go on behind one. -/
theorem readQuotedClosing_step (h : readQuotedClosing scope state = some after) :
    Step scope state.view after.view := by
  unfold readQuotedClosing at h
  split at h
  · rename_i quote hbranch
    have hname : state.frame.branch.isName = false := by
      rw [hbranch]
      rfl
    split at h
    · cases h
    · split at h
      · rename_i hfacing
        refine close_step h rfl hname ?_
        rw [hbranch]
        exact .closer rfl (facing_iff.mp hfacing)
      · unfold readStringBreak at h
        split at h
        · cases h
        · rename_i hplain
          split at h
          · rename_i n hlength
            refine close_step h rfl hname ?_
            rw [hbranch]
            exact .broken (by simpa using hplain) hlength
          · cases h
  · cases h

/-- What begins a URL has the four bytes of the opener. -/
theorem beginsUrl_length {rest : List UInt8} (h : beginsUrl rest = true) : 4 ≤ rest.length := by
  unfold beginsUrl at h
  split at h
  · simp
  · cases h

/-- A URL opens with its name and its parenthesis, four bytes together. -/
theorem readUrlOpening_step (h : readUrlOpening scope state = some after) :
    Step scope state.view after.view := by
  unfold readUrlOpening at h
  split at h
  · rename_i hbegins
    cases h
    have hlength := beginsUrl_length (Bool.and_eq_true_iff.mp hbegins).2
    exact enter_step .url (List.ne_nil_of_length_pos (by omega)) (by simp) hlength
      (fun h => by cases h) (fun h => by cases h)
  · cases h

/-- A URL ends with its parenthesis. -/
theorem readUrlClosing_step (hbranch : state.frame.branch = .url)
    (h : readUrlClosing scope state = some after) : Step scope state.view after.view := by
  unfold readUrlClosing at h
  split at h
  · rename_i hfacing
    refine close_step h rfl (by rw [hbranch]; rfl) ?_
    rw [hbranch]
    exact .closer rfl (facing_iff.mp hfacing)
  · cases h

/-- A comment takes its marker. -/
theorem enter_comment_step {form : CommentForm} {a b : UInt8}
    (h : facingPair a b state = true) :
    Step scope state.view (state.enter scope (.comment form) 2).view := by
  have hlength := (facingPair_iff.mp h).length_le
  exact enter_step (.comment form)
    (List.ne_nil_of_length_pos (Nat.lt_of_lt_of_le Nat.zero_lt_two hlength)) (by simp)
    hlength (fun h => by cases h) (fun h => by cases h)

/-- A block comment opens with its marker, where the context allows comments. -/
theorem readBlockOpening_step (h : readBlockOpening scope state = some after) :
    Step scope state.view after.view := by
  unfold readBlockOpening at h
  split at h
  · rename_i hfacing
    cases h
    exact enter_comment_step (Bool.and_eq_true_iff.mp hfacing).1
  · cases h

/-- A comment of either form opens with its marker. -/
theorem readCommentOpening_step (h : readCommentOpening scope state = some after) :
    Step scope state.view after.view := by
  unfold readCommentOpening at h
  simp only [Option.orElse_eq_orElse, Option.orElse_eq_or] at h
  rcases Option.or_eq_some_iff.mp h with h | ⟨-, h⟩
  · exact readBlockOpening_step h
  · unfold readLineOpening at h
    split at h
    · rename_i hfacing
      cases h
      exact enter_comment_step (Bool.and_eq_true_iff.mp hfacing).2
    · cases h

/-- Inside a URL a comment is read as elsewhere, where it is read at all. -/
theorem readUrlComment_step (h : readUrlComment scope state = some after) :
    Step scope state.view after.view := by
  unfold readUrlComment at h
  split at h
  · exact readCommentOpening_step h
  · cases h

/-- A block comment ends with its marker. -/
theorem readBlockClosing_step (hbranch : state.frame.branch = .comment .block)
    (h : readBlockClosing scope state = some after) : Step scope state.view after.view := by
  unfold readBlockClosing at h
  split at h
  · rename_i hfacing
    refine close_step h rfl (by rw [hbranch]; rfl) ?_
    rw [hbranch]
    exact .closer rfl (facingPair_iff.mp hfacing)
  · cases h

/-- A line comment ends with a line break, and takes it. -/
theorem readLineClosing_step (hbranch : state.frame.branch = .comment .line)
    (h : readLineClosing scope state = some after) : Step scope state.view after.view := by
  unfold readLineClosing at h
  split at h
  · rename_i n hlength
    refine close_step h rfl (by rw [hbranch]; rfl) ?_
    rw [hbranch]
    exact .line hlength
  · cases h

/-- Moving nowhere changes nothing. -/
theorem View.consume_zero (scope : Scope) (view : View) : view.consume scope 0 = view := rfl

/-- A branch without an opener takes nothing, so it is opened by a step that leaves the bytes alone.
-/
theorem openBranch_step {branch : Branch} (ahead : state.rest ≠ []) (proper : branch ≠ .root)
    (hlength : branch.openerLength = 0) (inside : state.frame.branch.isNarrow = false)
    (begins : branch.isName = true → NameAhead state.rest) :
    Step scope state.view (state.openBranch branch).view := by
  have hstep : Step scope state.view
      ((state.view.openBranch branch).consume scope branch.openerLength) :=
    .opened ahead proper (by rw [hlength]; exact Nat.zero_le _) (fun _ => inside)
      (by rw [hlength]; exact begins)
  rw [hlength] at hstep
  exact hstep

/-- An interpolation opens without taking a byte; which form it has does not matter here. -/
theorem readQuasiOpening_step (ahead : state.rest ≠ [])
    (inside : state.frame.branch.isNarrow = false)
    (h : readQuasiOpening scope state = some after) : Step scope state.view after.view := by
  obtain ⟨form, -, rfl⟩ := Option.map_eq_some_iff.mp h
  exact openBranch_step ahead (by simp) rfl inside fun h => by cases h

/-- So does an annotation. -/
theorem readAnnotationOpening_step (ahead : state.rest ≠ [])
    (inside : state.frame.branch.isNarrow = false)
    (h : readAnnotationOpening scope state = some after) : Step scope state.view after.view := by
  obtain ⟨form, -, rfl⟩ := Option.map_eq_some_iff.mp h
  exact openBranch_step ahead (by simp) rfl inside fun h => by cases h

/-- A fragment ends after its group, before the next byte. -/
theorem readFragmentClosing_step (ahead : state.rest ≠ [])
    (hfragment : state.frame.branch.isFragment = true)
    (h : readFragmentClosing scope state = some after) : Step scope state.view after.view := by
  have hname := Branch.isName_of_isFragment hfragment
  unfold readFragmentClosing at h
  split at h
  · rename_i bracket hpending
    have hclose : (state.closeBranch? true).map (State.consume scope 0) = some after := by
      rw [h]
      rfl
    refine close_step hclose rfl hname ?_
    rw [hpending]
    exact .fragment hfragment ahead
  · cases h

/-- What begins an identifier begins the text of a name: a hyphen and the bytes that may begin a
name are name bytes, and the third way is an escape. -/
theorem nameAhead_of_beginsIdentifier {rest : List UInt8} (h : beginsIdentifier rest = true) :
    NameAhead rest := by
  cases rest with
  | nil => cases h
  | cons b tail =>
    rw [beginsIdentifier] at h
    split at h
    · rename_i hb
      obtain rfl : b = Byte.hyphen := by simpa using hb
      exact Or.inl rfl
    · rcases Bool.or_eq_true_iff.mp h with h | h
      · refine Or.inl ?_
        simp [Byte.isName, h]
      · exact Or.inr h

/-- Behind the sign of a hash comes the text of a name. -/
theorem nameAhead_of_begin? {rest : List UInt8} {hash : Hash} (h : Hash.begin? rest = some hash) :
    NameAhead (rest.drop 1) := by
  cases rest with
  | nil => cases h
  | cons b tail =>
    rw [Hash.begin?] at h
    rw [List.drop_succ_cons, List.drop_zero]
    split at h
    · split at h
      · rename_i next hnext
        split at h
        · rename_i hname
          refine Or.inl ?_
          rw [hnext]
          simpa using hname
        · split at h
          · rename_i hbegins
            exact Or.inr hbegins
          · cases h
      · cases h
    · cases h

/-- An identifier opens where its text is ahead, and takes nothing itself. -/
theorem readIdentifierOpening_step (ahead : state.rest ≠ [])
    (inside : state.frame.branch.isNarrow = false)
    (h : readIdentifierOpening scope state = some after) : Step scope state.view after.view := by
  unfold readIdentifierOpening at h
  split at h
  · rename_i hbegins
    cases h
    exact openBranch_step ahead (by simp) rfl inside fun _ => nameAhead_of_beginsIdentifier hbegins
  · cases h

/-- A hash opens with its sign. -/
theorem readHashOpening_step (inside : state.frame.branch.isNarrow = false)
    (h : readHashOpening scope state = some after) : Step scope state.view after.view := by
  obtain ⟨hash, hbegin, rfl⟩ := Option.map_eq_some_iff.mp h
  have ahead : state.rest ≠ [] := by
    intro hrest
    rw [hrest] at hbegin
    cases hbegin
  exact enter_step (.hash hash) ahead (by simp) (List.length_pos_iff.mpr ahead)
    (fun _ => inside) fun _ => nameAhead_of_begin? hbegin

/-- Where no escape and no run of name bytes is read, no name goes on.  The readers of names ask for
these two first, so a name is complete when it is closed. -/
theorem not_nameAhead (hescape : readEscape scope state = none)
    (hrun : readNameRun scope state = none) : ¬ NameAhead state.rest := by
  rintro (h | h)
  · cases hrest : state.rest with
    | nil => simp [hrest] at h
    | cons b tail =>
      have hb : Byte.isName b = true := by simpa [hrest] using h
      simp [readNameRun, hrest, hb] at hrun
  · rw [← Escape.isSome_read? scope.dialect] at h
    rw [readEscape, Option.map_eq_none_iff] at hescape
    rw [hescape] at h
    cases h

/-- A branch cannot be completed only if it is the caller's. -/
theorem closeBranch?_eq_none {valid : Bool} (h : state.closeBranch? valid = none) :
    state.outer = [] := by
  unfold State.closeBranch? at h
  split at h
  · assumption
  · cases h

/-- An identifier closes when its text is over; if it is the caller's branch, the scan halts
instead. -/
theorem readIdentifierClosing_step {value : String}
    (hbranch : state.view.frame.branch = .identifier value)
    (hdone : ¬ NameAhead state.rest) (h : readIdentifierClosing scope state = some after) :
    Step scope state.view after.view := by
  unfold readIdentifierClosing at h
  cases hclose : state.closeBranch? true with
  | some closed =>
    rw [hclose] at h
    cases h
    obtain ⟨around, further, houter, hview⟩ := closeBranch?_eq_some hclose
    rw [hview, ← View.consume_zero scope (View.closeBranch _ _ _ _ _)]
    refine .closed houter (.refl _) ?_ fun _ => hdone
    rw [show state.frame.branch = .identifier value from hbranch]
    exact .identifier
  | none =>
    rw [hclose] at h
    cases h
    exact .halted (by rw [hbranch]; rfl) (closeBranch?_eq_none hclose)

/-! ## 4. Hashes

A hash gathers digits while its text is read, and settles them into a color when it closes.  So its
leaves change the branch that they are read in, which is what the parameter of `View.addLeaf` is
for. -/

/-- Changing what a hash has gathered changes the innermost branch and nothing else. -/
theorem view_mapHash (change : Hash → Hash) {hash : Hash}
    (hbranch : state.frame.branch = .hash hash) :
    (state.mapHash change).view =
      { state.view with frame := { state.frame with branch := .hash (change hash) } } := by
  unfold State.mapHash
  rw [hbranch]
  rfl

/-- A leaf inside a hash also changes what the hash has gathered. -/
theorem view_hashLeaf {leaf : Leaf} {valid : Bool} {n : Nat} {change : Hash → Hash} {hash : Hash}
    (hbranch : state.frame.branch = .hash hash)
    (hview : after.view = (state.view.addLeaf leaf valid state.frame.branch).consume scope n) :
    (after.mapHash change).view =
      (state.view.addLeaf leaf valid (.hash (change hash))).consume scope n := by
  have hframe : after.frame = { state.frame with pending := some (.leaf leaf) } :=
    congrArg View.frame hview
  rw [view_mapHash change (by rw [hframe]; exact hbranch), hview, hframe]
  rfl

/-- What an escape leaves behind. -/
def State.escaped (scope : Scope) (state : State) (reading : Escape.Reading) : State :=
  let after :=
    (state.addLeaf (.escape ⟨reading.codepoint⟩) reading.closed).consume scope reading.length
  if reading.closed then after
  else after.recover .escape ⟨state.position, after.position⟩

theorem view_escaped (scope : Scope) (state : State) (reading : Escape.Reading) :
    (state.escaped scope reading).view =
      ((state.addLeaf (.escape ⟨reading.codepoint⟩) reading.closed).consume scope
        reading.length).view := by
  unfold State.escaped
  dsimp only
  split <;> rfl

/-- What an escape of a hash does to its color. -/
def Hash.escaped (reading : Escape.Reading) (hash : Hash) : Hash :=
  match reading.codepoint with
  | some codepoint => hash.accumulateCodepoint codepoint
  | none => hash.invalidate

theorem readHashEscape_eq (scope : Scope) (state : State) :
    readHashEscape scope state = (Escape.read? scope.dialect state.rest).map fun reading =>
      (state.escaped scope reading).mapHash (Hash.escaped reading) := by
  unfold readHashEscape readEscape
  cases Escape.read? scope.dialect state.rest <;> rfl

/-- A hash settles its color when it closes. -/
theorem closeHash?_eq {hash : Hash} (hbranch : state.frame.branch = .hash hash) :
    (state.closeHash? = none ∧ state.outer = []) ∨
      ∃ closed around further, state.closeHash? = some closed ∧
        state.view.outer = around :: further ∧
        closed.view = state.view.closeBranch (.hash hash.settle) hash.settle.isValid around
          further := by
  have hsettled := view_mapHash Hash.settle hbranch
  unfold State.closeHash?
  rw [hbranch]
  dsimp only
  generalize hstate : (if hash.settle.isValid then state.mapHash Hash.settle
    else (state.mapHash Hash.settle).recoverBranch .hash) = settled
  have hview : settled.view = (state.mapHash Hash.settle).view := by
    rw [← hstate]
    split <;> rfl
  rw [hsettled] at hview
  cases hclose : settled.closeBranch? hash.settle.isValid with
  | none =>
    refine Or.inl ⟨rfl, ?_⟩
    have := closeBranch?_eq_none hclose
    exact (congrArg View.outer hview).symm.trans this
  | some closed =>
    obtain ⟨around, further, houter, hclosed⟩ := closeBranch?_eq_some hclose
    have hframe : settled.frame = { state.frame with branch := .hash hash.settle } :=
      congrArg View.frame hview
    rw [hview] at houter
    refine Or.inr ⟨closed, around, further, rfl, houter, ?_⟩
    rw [hclosed, hview, hframe]
    rfl

/-- What a turn in a hash does, and what becomes of the hash: an escape counts as one character of
the color, a run as its bytes. -/
inductive HashStep (scope : Scope) (hash : Hash) (view : View) : View → Prop where
  | escape {reading : Escape.Reading}
      (read : Escape.read? scope.dialect view.rest = some reading) :
      HashStep scope hash view
        ((view.addLeaf (.escape ⟨reading.codepoint⟩) reading.closed
          (.hash (Hash.escaped reading hash))).consume scope reading.length)
  | run (ahead : view.rest.takeWhile Byte.isName ≠ []) :
      HashStep scope hash view
        ((view.addLeaf .raw true
          (.hash ((view.rest.takeWhile Byte.isName).foldl Hash.accumulate hash))).consume scope
            (view.rest.takeWhile Byte.isName).length)
  | closed {around : Frame} {further : List Frame} (outer : view.outer = around :: further)
      (complete : ¬ NameAhead view.rest) :
      HashStep scope hash view
        (view.closeBranch (.hash hash.settle) hash.settle.isValid around further)
  | halted (outer : view.outer = []) : HashStep scope hash view { view with halted := true }

/-- Each of them is a step.  A hash is `Alike` to every hash, so what it has gathered is forgotten.
-/
theorem HashStep.step {view next : View} {hash : Hash} (h : HashStep scope hash view next)
    (hbranch : view.frame.branch = .hash hash) : Step scope view next := by
  cases h with
  | @escape reading read =>
    have ahead : view.rest ≠ [] := by
      intro hrest
      rw [hrest] at read
      cases read
    obtain ⟨hlength, hflag⟩ := Escape.closed_iff read
    exact .leaf ahead (by omega) (by rw [hbranch]; exact .hash _ _) hflag
  | run ahead =>
    have hrest : view.rest ≠ [] := fun hnil => ahead (by rw [hnil]; rfl)
    exact .leaf hrest (List.length_pos_iff.mpr ahead) (by rw [hbranch]; exact .hash _ _)
      ⟨fun _ => trivial, fun _ => rfl⟩
  | closed outer complete =>
    rw [← View.consume_zero scope (View.closeBranch _ _ _ _ _)]
    exact .closed outer (by rw [hbranch]; exact .hash _ _) .hash fun _ => complete
  | halted outer => exact .halted (by rw [hbranch]; rfl) outer

/-- **Every turn in a hash is one of these.**  The readers of a hash are asked in the order of the
cases: an escape, a run of name bytes, the end of the hash. -/
theorem readNext_hash (scope : Scope) {hash : Hash} (hbranch : state.frame.branch = .hash hash) :
    HashStep scope hash state.view (readNext scope state).view := by
  have hcontext : state.context = .hash := by rw [State.context, hbranch]; rfl
  rw [readNext, hcontext, readersOf, List.findSome?_cons, readHashEscape_eq]
  -- the three readers in turn; the last one always decides, so the default of the search is never
  -- used
  cases hread : Escape.read? scope.dialect state.rest with
  | some reading =>
    have hview : ((state.escaped scope reading).mapHash (Hash.escaped reading)).view = _ :=
      view_hashLeaf hbranch (view_escaped scope state reading)
    rw [Option.map_some]
    dsimp only
    rw [Option.getD_some, hview]
    exact .escape hread
  | none =>
    rw [Option.map_none, List.findSome?_cons, readHashRun]
    cases hrun : state.rest.takeWhile Byte.isName with
    | cons b tail =>
      have hsome : readNameRun scope state =
          some (state.takeLeaf scope .raw (state.rest.takeWhile Byte.isName).length) := by
        simp only [readNameRun, hrun]
      rw [hsome, Option.map_some]
      dsimp only
      rw [Option.getD_some, view_hashLeaf hbranch rfl, ← hrun]
      exact .run (by rw [show state.view.rest = state.rest from rfl, hrun]; simp)
    | nil =>
      have hescape : readEscape scope state = none := by rw [readEscape, hread, Option.map_none]
      have hplain : readNameRun scope state = none := by simp only [readNameRun, hrun]
      rw [hplain, Option.map_none, List.findSome?_cons, readHashClosing]
      rcases closeHash?_eq hbranch with
        ⟨hnone, houter⟩ | ⟨closed, around, further, hsome, houter, hview⟩
      · rw [hnone]
        exact .halted houter
      · rw [hsome]
        show HashStep scope hash state.view closed.view
        rw [hview]
        exact .closed houter (not_nameAhead hescape hplain)

/-! ## 5. The scan

A turn asks the readers of its context one after the other.  Each context ends with a reader that
accepts wherever a byte is ahead, so some reader makes the step; which one is of no interest here.
-/

/-- If every reader that accepts makes a step, the first one that accepts does. -/
theorem findSome?_step {readers : List Reader}
    (hreaders : ∀ reader ∈ readers, ∀ after, reader scope state = some after →
      Step scope state.view after.view)
    (haccept : ∃ reader ∈ readers, (reader scope state).isSome = true) :
    Step scope state.view
      ((readers.findSome? fun reader => reader scope state).getD state).view := by
  obtain ⟨reader, hin, hsome⟩ := haccept
  have hfound : (readers.findSome? fun reader => reader scope state).isSome = true :=
    List.findSome?_isSome_iff.mpr ⟨reader, hin, hsome⟩
  obtain ⟨found, hfound⟩ := Option.isSome_iff_exists.mp hfound
  obtain ⟨first, hfirst, hread⟩ := List.exists_of_findSome?_eq_some hfound
  rw [hfound]
  exact hreaders first hfirst found hread

/-- The readers of the root and of groups, which are the same but for the closing of the group. -/
theorem readGroup_step {readers : List Reader} (ahead : state.rest ≠ [])
    (inside : state.frame.branch.isNarrow = false)
    (hreaders : readers = [readBlank, readNumeral, readUrlOpening, readCommentOpening, readCdx,
      readQuasiOpening, readAnnotationOpening, readIdentifierOpening, readHashOpening,
      readQuotedOpening, readSeparator, readOperator, readGroupOpening, readGroupClosing,
      readContinuation, readUnexpected]) :
    Step scope state.view
      ((readers.findSome? fun reader => reader scope state).getD state).view := by
  subst hreaders
  -- unexpected bytes are taken by the last reader, whatever they are
  refine findSome?_step (fun reader hin after h => ?_) ⟨readUnexpected, by simp, rfl⟩
  simp only [List.mem_cons, List.not_mem_nil, or_false] at hin
  rcases hin with rfl | rfl | rfl | rfl | rfl | rfl | rfl | rfl | rfl | rfl | rfl | rfl | rfl |
    rfl | rfl | rfl
  · exact readBlank_step h
  · exact readNumeral_step h
  · exact readUrlOpening_step h
  · exact readCommentOpening_step h
  · exact readCdx_step h
  · exact readQuasiOpening_step ahead inside h
  · exact readAnnotationOpening_step ahead inside h
  · exact readIdentifierOpening_step ahead inside h
  · exact readHashOpening_step inside h
  · exact readQuotedOpening_step h
  · exact readSeparator_step h
  · exact readOperator_step h
  · exact readGroupOpening_step h
  · exact readGroupClosing_step h
  · exact readContinuation_step h
  · exact readUnexpected_step ahead h

/-- Raw text takes any byte. -/
theorem readRaw_isSome (scope : Scope) (state : State) : (readRaw scope state).isSome = true := by
  unfold readRaw
  split <;> rfl

/-- The readers of strings. -/
theorem readQuoted_step {readers : List Reader} (ahead : state.rest ≠ [])
    (inside : state.frame.branch.isNarrow = false)
    (hreaders : readers = [readEscape, readContinuation, readQuasiOpening, readQuotedClosing,
      readRaw]) :
    Step scope state.view
      ((readers.findSome? fun reader => reader scope state).getD state).view := by
  subst hreaders
  refine findSome?_step (fun reader hin after h => ?_)
    ⟨readRaw, by simp, readRaw_isSome scope state⟩
  simp only [List.mem_cons, List.not_mem_nil, or_false] at hin
  rcases hin with rfl | rfl | rfl | rfl | rfl
  · exact readEscape_step h
  · exact readContinuation_step h
  · exact readQuasiOpening_step ahead inside h
  · exact readQuotedClosing_step h
  · exact readRaw_step ahead h

/-- The readers of a URL. -/
theorem readUrl_step (ahead : state.rest ≠ []) (hbranch : state.frame.branch = .url) :
    Step scope state.view (readNext scope state).view := by
  have hcontext : state.context = .url := by rw [State.context, hbranch]; rfl
  rw [readNext, hcontext]
  refine findSome?_step (fun reader hin after h => ?_)
    ⟨readRaw, by simp [readersOf], readRaw_isSome scope state⟩
  simp only [readersOf, List.mem_cons, List.not_mem_nil, or_false] at hin
  rcases hin with rfl | rfl | rfl | rfl | rfl | rfl | rfl | rfl
  · exact readEscape_step h
  · exact readContinuation_step h
  · exact readBlank_step h
  · exact readUrlComment_step h
  · exact readQuotedOpening_step h
  · exact readQuasiOpening_step ahead (by rw [hbranch]; rfl) h
  · exact readUrlClosing_step hbranch h
  · exact readRaw_step ahead h

/-- The readers of a block comment. -/
theorem readBlock_step (ahead : state.rest ≠ []) (hbranch : state.frame.branch = .comment .block) :
    Step scope state.view (readNext scope state).view := by
  have hcontext : state.context = .block := by rw [State.context, hbranch]; rfl
  rw [readNext, hcontext]
  refine findSome?_step (fun reader hin after h => ?_)
    ⟨readRaw, by simp [readersOf], readRaw_isSome scope state⟩
  simp only [readersOf, List.mem_cons, List.not_mem_nil, or_false] at hin
  rcases hin with rfl | rfl | rfl | rfl
  · exact readBlockOpening_step h
  · exact readBlockClosing_step hbranch h
  · exact readQuasiOpening_step ahead (by rw [hbranch]; rfl) h
  · exact readRaw_step ahead h

/-- The readers of a line comment. -/
theorem readLine_step (ahead : state.rest ≠ []) (hbranch : state.frame.branch = .comment .line) :
    Step scope state.view (readNext scope state).view := by
  have hcontext : state.context = .line := by rw [State.context, hbranch]; rfl
  rw [readNext, hcontext]
  refine findSome?_step (fun reader hin after h => ?_)
    ⟨readRaw, by simp [readersOf], readRaw_isSome scope state⟩
  simp only [readersOf, List.mem_cons, List.not_mem_nil, or_false] at hin
  rcases hin with rfl | rfl | rfl
  · exact readQuasiOpening_step ahead (by rw [hbranch]; rfl) h
  · exact readLineClosing_step hbranch h
  · exact readRaw_step ahead h

/-- The readers of a fragment. -/
theorem readFragment_step {readers : List Reader} (ahead : state.rest ≠ [])
    (hfragment : state.frame.branch.isFragment = true)
    (hreaders : readers = [readFragmentClosing, readOperator, readGroupOpening,
      readUnexpected]) :
    Step scope state.view
      ((readers.findSome? fun reader => reader scope state).getD state).view := by
  subst hreaders
  refine findSome?_step (fun reader hin after h => ?_) ⟨readUnexpected, by simp, rfl⟩
  simp only [List.mem_cons, List.not_mem_nil, or_false] at hin
  rcases hin with rfl | rfl | rfl | rfl
  · exact readFragmentClosing_step ahead hfragment h
  · exact readOperator_step h
  · exact readGroupOpening_step h
  · exact readUnexpected_step ahead h

/-- The readers of an identifier.  Its end is read only after an escape and a run have been refused,
which is what the step asks for. -/
theorem readIdentifier_step {value : String} (hbranch : state.frame.branch = .identifier value) :
    Step scope state.view (readNext scope state).view := by
  have hcontext : state.context = .identifier := by rw [State.context, hbranch]; rfl
  rw [readNext, hcontext, readersOf, List.findSome?_cons]
  cases hescape : readEscape scope state with
  | some after => exact readEscape_step hescape
  | none =>
    rw [List.findSome?_cons]
    cases hrun : readNameRun scope state with
    | some after => exact readNameRun_step hrun
    | none =>
      rw [List.findSome?_cons]
      have hdone := not_nameAhead hescape hrun
      cases hclose : readIdentifierClosing scope state with
      | some after => exact readIdentifierClosing_step hbranch hdone hclose
      | none => simp [readIdentifierClosing] at hclose

/-- **Every step of the scan is one of the steps**, in every context; that a byte is ahead is what
the main loop makes sure of. -/
theorem readNext_step (scope : Scope) {state : State} (ahead : state.rest ≠ []) :
    Step scope state.view (readNext scope state).view := by
  cases hbranch : state.frame.branch with
  | root =>
    rw [readNext, State.context, hbranch]
    exact readGroup_step ahead (by rw [hbranch]; rfl) rfl
  | group bracket =>
    rw [readNext, State.context, hbranch]
    cases bracket <;> exact readGroup_step ahead (by rw [hbranch]; rfl) rfl
  | quoted quote =>
    rw [readNext, State.context, hbranch]
    cases quote <;> exact readQuoted_step ahead (by rw [hbranch]; rfl) rfl
  | url => exact readUrl_step ahead hbranch
  | comment form =>
    cases form with
    | block => exact readBlock_step ahead hbranch
    | line => exact readLine_step ahead hbranch
  | quasi form =>
    rw [readNext, State.context, hbranch]
    exact readFragment_step ahead (by rw [hbranch]; rfl) rfl
  | annotation form placement =>
    rw [readNext, State.context, hbranch]
    exact readFragment_step ahead (by rw [hbranch]; rfl) rfl
  | identifier value => exact readIdentifier_step hbranch
  | hash hash => exact (readNext_hash scope hbranch).step hbranch

/-! ## 6. Which reader decides

Later modules sometimes need the reader and not the step.  Either it does not matter which reader
decides, and all of them are gone through (`readNext_of_readers`), or the first or the second one is
known to. -/

/-- All readers, whatever context they belong to. -/
def readers : List Reader :=
  [readBlank, readNumeral, readCdx, readSeparator, readOperator, readEscape, readContinuation,
    readRaw, readUnexpected, readGroupOpening, readGroupClosing, readQuotedOpening,
    readQuotedClosing, readUrlOpening, readUrlClosing, readCommentOpening, readUrlComment,
    readBlockOpening, readBlockClosing, readLineClosing, readQuasiOpening, readAnnotationOpening,
    readFragmentClosing, readIdentifierOpening, readIdentifierClosing, readNameRun,
    readHashOpening, readHashEscape, readHashRun, readHashClosing]

/-- No context has readers of its own that are missing from the list. -/
theorem readersOf_subset (context : Context) : readersOf context ⊆ readers := by
  cases context <;> simp [readersOf, readers]

/-- What every reader makes sure of holds after a turn, whichever of them decides. -/
theorem readNext_of_readers {P : State → Prop} (hstay : P state)
    (h : ∀ reader ∈ readers, ∀ after, reader scope state = some after → P after) :
    P (readNext scope state) := by
  unfold readNext
  cases hfound : (readersOf state.context).findSome? fun reader => reader scope state with
  | none => exact hstay
  | some after =>
    obtain ⟨reader, hin, hread⟩ := List.exists_of_findSome?_eq_some hfound
    exact h reader (readersOf_subset state.context hin) after hread

/-- The first reader that accepts decides. -/
theorem findSome?_or (read : Reader → Option State) (reader : Reader) (readers : List Reader) :
    (reader :: readers).findSome? read = (read reader).or (readers.findSome? read) := by
  rw [List.findSome?_cons]
  cases read reader <;> rfl

/-- If the first reader of a context accepts, the turn is its. -/
theorem readNext_of_first {reader : Reader} {readers : List Reader} {next : State}
    (hreaders : readersOf state.context = reader :: readers)
    (hread : reader scope state = some next) : readNext scope state = next := by
  rw [readNext, hreaders, findSome?_or, hread]
  rfl

/-- If the first one refuses, and the second one accepts, the turn belongs to the second. -/
theorem readNext_of_second {first second : Reader} {readers : List Reader} {next : State}
    (hreaders : readersOf state.context = first :: second :: readers)
    (hfirst : first scope state = none) (hread : second scope state = some next) :
    readNext scope state = next := by
  rw [readNext, hreaders, findSome?_or, hfirst, findSome?_or, hread]
  rfl

/-- The readers of a fragment. -/
theorem readersOf_fragment (hfragment : state.frame.branch.isFragment = true) :
    readersOf state.context =
      [readFragmentClosing, readOperator, readGroupOpening, readUnexpected] := by
  unfold State.context
  cases hbranch : state.frame.branch with
  | quasi form => rfl
  | annotation form placement => rfl
  | _ =>
    rw [hbranch] at hfragment
    cases hfragment

/-- A fragment does not close before its group was read. -/
theorem readFragmentClosing_eq_none
    (hpending : ∀ bracket, state.frame.pending ≠ some (.branch (.group bracket))) :
    readFragmentClosing scope state = none := by
  unfold readFragmentClosing
  split
  · rename_i bracket hgroup
    exact absurd hgroup (hpending bracket)
  · rfl

end Scan
end StyleLex
