/-
# What a step notes

A scan notes a recovery where it goes on past something malformed.  `Notes scope before after noted`
lists what a step can do together with what it notes: nothing about a node that is well formed, and
one recovery, which begins where the node does, about one that is not.  A run of unexpected bytes
is one node, and every closer in it is noted.

Every reader keeps to that (section 2), hence so do the steps of the scan (`readNext_noted`) and
the end of the input (`closeAtEnd?_noted`).

A recovery becomes a warning with a code and a place, so this module is where the warnings of the
lexer get their meaning: how many there are for a node, with which code, and at which byte.  The
steps of `Proofs/Scan/Step` do not say so, for a view leaves recoveries out; `Notes` lists the steps
once more, each with what it notes, and is stated so that it determines the note by what becomes of
the view.

The run of unexpected bytes is the one node for which there may be several notes: one where it
begins, whatever the byte is, and one for every closer further on.
-/
import StyleLex.Proofs.Scan.Progress

namespace StyleLex

/-- The code of the warning about a malformed branch; roots and identifiers are never malformed. -/
def Branch.malformedCode? : Branch → Option Code
  | .quoted _ => some .quotedOpen
  | .group _ => some .groupOpen
  | .comment _ => some .commentOpen
  | .url => some .urlOpen
  | .quasi _ => some .fragmentOpen
  | Branch.annotation _ _ => some .fragmentOpen
  | .hash _ => some .hashMalformed
  | .root => none
  | .identifier _ => none

/-- What a recovery tells, and where. -/
def Recovery.site (recovery : Recovery) : Code × Position := (recovery.code, recovery.span.start)

/-- The code of the warning about the first byte of an unexpected run. -/
def Byte.unexpectedCode (b : UInt8) : Code :=
  if Byte.isCloser b then .danglingCloser else .unexpectedCharacter

namespace Scan

/-! ## 1. Steps and their notes

A note is compared by its code and by where it begins (`Recovery.site`).  The context that it
carries is part of the message only, and where it ends is what the reader had taken. -/

/-- What a step does and what it notes. -/
inductive Notes (scope : Scope) (view : View) : View → Option Recovery → Prop where
  | leaf {leaf : Leaf} {branch : Branch} {n : Nat} (quiet : leaf ≠ .unexpected) :
      Notes scope view ((view.addLeaf leaf true branch).consume scope n) none
  | escape {escape : Escape} {branch : Branch} {n : Nat} {recovery : Recovery}
      (site : recovery.site = (.escapeOpen, view.position)) :
      Notes scope view ((view.addLeaf (.escape escape) false branch).consume scope n)
        (some recovery)
  | unexpected {b : UInt8} {tail : List UInt8} {branch : Branch} {recovery : Recovery}
      (ahead : view.rest = b :: tail)
      (site : recovery.site = (Byte.unexpectedCode b, view.position)) :
      Notes scope view ((view.addLeaf .unexpected false branch).consume scope 1) (some recovery)
  | raw (run : view.frame.pending = some (.leaf .raw)) :
      Notes scope view (view.consume scope 1) none
  | further {b : UInt8} {tail : List UInt8} {noted : Option Recovery}
      (ahead : view.rest = b :: tail) (run : view.frame.pending = some (.leaf .unexpected))
      (sites : noted.toList.map Recovery.site =
        if Byte.isCloser b then [(.danglingCloser, view.position)] else []) :
      Notes scope view (view.consume scope 1) noted
  | opened {branch : Branch} {n : Nat} :
      Notes scope view ((view.openBranch branch).consume scope n) none
  | closed {branch : Branch} {around : Frame} {further : List Frame} {n : Nat}
      (outer : view.outer = around :: further) :
      Notes scope view ((view.closeBranch branch true around further).consume scope n) none
  | broken {branch : Branch} {around : Frame} {further : List Frame} {n : Nat}
      {recovery : Recovery} {code : Code} (outer : view.outer = around :: further)
      (named : branch.malformedCode? = some code)
      (site : recovery.site = (code, view.frame.start)) :
      Notes scope view ((view.closeBranch branch false around further).consume scope n)
        (some recovery)
  | halted : Notes scope view { view with halted := true } none

/-- A step notes what it may, and forgets nothing. -/
def State.Noted (scope : Scope) (state after : State) : Prop :=
  ∃ noted, after.recoveries = noted.toList ++ state.recoveries ∧
    Notes scope state.view after.view noted

/-! ## 2. What each reader notes

There is a lemma for each reader again, `…_noted`.  Those that only take or open something note
nothing, and so does a branch that is closed in its own way.  What is left are the four that can
meet something malformed: escapes, unexpected bytes, strings that a line break cuts off, and hashes.
-/

variable {scope : Scope} {state after : State}

/-- A leaf that is always well formed is not noted. -/
theorem takeLeaf_noted {leaf : Leaf} (n : Nat) (quiet : leaf ≠ .unexpected) :
    state.Noted scope (state.takeLeaf scope leaf n) :=
  ⟨none, rfl, .leaf quiet⟩

/-- Opening a branch is not noted, whether it takes an opener … -/
theorem enter_noted (branch : Branch) (n : Nat) :
    state.Noted scope (state.enter scope branch n) :=
  ⟨none, rfl, .opened⟩

/-- … or not. -/
theorem openBranch_noted (scope : Scope) (branch : Branch) :
    state.Noted scope (state.openBranch branch) :=
  ⟨none, rfl, .opened (n := 0)⟩

/-- Completing a branch keeps the notes. -/
theorem recoveries_closeBranch? {valid : Bool} (h : state.closeBranch? valid = some after) :
    after.recoveries = state.recoveries := by
  unfold State.closeBranch? at h
  split at h
  · cases h
  · cases h
    rfl

/-- A branch that is complete is closed without a note. -/
theorem leave_noted {n : Nat} (h : state.leave? scope n = some after) :
    state.Noted scope after := by
  obtain ⟨closed, hclosed, rfl⟩ := Option.map_eq_some_iff.mp h
  obtain ⟨around, further, houter, hview⟩ := closeBranch?_eq_some hclosed
  have hkept : closed.recoveries = state.recoveries := recoveries_closeBranch? hclosed
  refine ⟨none, hkept, ?_⟩
  rw [view_consume, hview]
  exact .closed houter

/-- The same for a branch that takes nothing when it closes. -/
theorem closeBranch?_noted (h : state.closeBranch? true = some after) :
    state.Noted scope after := by
  refine leave_noted (n := 0) ?_
  rw [State.leave?, h]
  rfl

/-- A branch that is malformed is closed with a note, which begins where the branch does. -/
theorem recoverBranch_noted {fault : Fault} {code : Code} {n : Nat}
    (h : ((state.recoverBranch fault).closeBranch? false).map (State.consume scope n) = some after)
    (named : state.frame.branch.malformedCode? = some code)
    (told : Recovery.code ⟨fault, ⟨state.frame.start, state.position⟩, state.context⟩ = code) :
    state.Noted scope after := by
  obtain ⟨closed, hclosed, rfl⟩ := Option.map_eq_some_iff.mp h
  obtain ⟨around, further, houter, hview⟩ := closeBranch?_eq_some hclosed
  have hkept : closed.recoveries = (state.recoverBranch fault).recoveries :=
    recoveries_closeBranch? hclosed
  refine ⟨some ⟨fault, ⟨state.frame.start, state.position⟩, state.context⟩, hkept, ?_⟩
  rw [view_consume, hview]
  exact .broken houter named (by rw [Recovery.site, told]; rfl)

theorem readBlank_noted (h : readBlank scope state = some after) : state.Noted scope after := by
  unfold readBlank at h
  split at h
  · cases h
  · cases h
    exact takeLeaf_noted _ (by simp)

theorem readNameRun_noted (h : readNameRun scope state = some after) :
    state.Noted scope after := by
  unfold readNameRun at h
  split at h
  · cases h
  · cases h
    exact takeLeaf_noted _ (by simp)

theorem readNumeral_noted (h : readNumeral scope state = some after) :
    state.Noted scope after := by
  obtain ⟨⟨numeral, n⟩, -, rfl⟩ := Option.map_eq_some_iff.mp h
  exact takeLeaf_noted n (by simp)

theorem readSeparator_noted (h : readSeparator scope state = some after) :
    state.Noted scope after := by
  unfold readSeparator at h
  split at h
  · split at h
    · cases h
      exact takeLeaf_noted 1 (by simp)
    · cases h
  · cases h

theorem readOperator_noted (h : readOperator scope state = some after) :
    state.Noted scope after := by
  unfold readOperator at h
  split at h
  · split at h
    · cases h
      exact takeLeaf_noted 1 (by simp)
    · cases h
  · cases h

theorem readCdx_noted (h : readCdx scope state = some after) : state.Noted scope after := by
  unfold readCdx at h
  split at h
  · obtain ⟨marker, -, hmarker⟩ := List.exists_of_findSome?_eq_some h
    dsimp only at hmarker
    split at hmarker
    · cases hmarker
      exact takeLeaf_noted _ (by simp)
    · cases hmarker
  · cases h

theorem readContinuation_noted (h : readContinuation scope state = some after) :
    state.Noted scope after := by
  obtain ⟨n, -, rfl⟩ := Option.map_eq_some_iff.mp h
  exact takeLeaf_noted n (by simp)

/-- An escape is noted if its brace stays open. -/
theorem readEscape_noted (h : readEscape scope state = some after) : state.Noted scope after := by
  obtain ⟨reading, -, rfl⟩ := Option.map_eq_some_iff.mp h
  dsimp only
  cases hclosed : reading.closed with
  | true => exact ⟨none, rfl, .leaf (by simp)⟩
  | false => exact ⟨some _, rfl, .escape rfl⟩

theorem readRaw_noted (h : readRaw scope state = some after) : state.Noted scope after := by
  unfold readRaw at h
  split at h
  · rename_i hpending
    cases h
    exact ⟨none, rfl, .raw hpending⟩
  · cases h
    exact takeLeaf_noted 1 (by simp)

/-- The first byte of an unexpected run is noted, and every closer behind it. -/
theorem readUnexpected_noted (ahead : state.rest ≠ [])
    (h : readUnexpected scope state = some after) : state.Noted scope after := by
  obtain ⟨b, tail, hrest⟩ := List.exists_cons_of_ne_nil ahead
  unfold readUnexpected at h
  rw [hrest, List.head?_cons, Option.any_some] at h
  dsimp only at h
  cases hgrows : state.frame.pending == some (.leaf .unexpected) with
  | true =>
    have hrun : state.view.frame.pending = some (.leaf .unexpected) := beq_iff_eq.mp hgrows
    rw [hgrows] at h
    cases hcloser : Byte.isCloser b with
    | true =>
      rw [hcloser] at h
      cases h
      exact ⟨some _, rfl, .further hrest hrun (by rw [hcloser]; rfl)⟩
    | false =>
      rw [hcloser] at h
      cases h
      exact ⟨none, rfl, .further hrest hrun (by rw [hcloser]; rfl)⟩
  | false =>
    rw [hgrows] at h
    cases hcloser : Byte.isCloser b with
    | true =>
      rw [hcloser] at h
      cases h
      exact ⟨some _, rfl, .unexpected hrest (by rw [Byte.unexpectedCode, hcloser]; rfl)⟩
    | false =>
      rw [hcloser] at h
      cases h
      exact ⟨some _, rfl, .unexpected hrest (by rw [Byte.unexpectedCode, hcloser]; rfl)⟩

theorem readGroupOpening_noted (h : readGroupOpening scope state = some after) :
    state.Noted scope after := by
  unfold readGroupOpening at h
  split at h
  · obtain ⟨bracket, -, rfl⟩ := Option.map_eq_some_iff.mp h
    exact enter_noted _ 1
  · cases h

theorem readGroupClosing_noted (h : readGroupClosing scope state = some after) :
    state.Noted scope after := by
  unfold readGroupClosing at h
  split at h
  · split at h
    · exact leave_noted h
    · cases h
  · cases h

theorem readQuotedOpening_noted (h : readQuotedOpening scope state = some after) :
    state.Noted scope after := by
  unfold readQuotedOpening at h
  split at h
  · split at h
    · split at h
      · cases h
      · cases h
        exact enter_noted _ 1
    · cases h
  · cases h

/-- A string that a line break closes is noted. -/
theorem readQuotedClosing_noted (h : readQuotedClosing scope state = some after) :
    state.Noted scope after := by
  unfold readQuotedClosing at h
  split at h
  · rename_i quote hbranch
    split at h
    · cases h
    · split at h
      · exact leave_noted h
      · unfold readStringBreak at h
        split at h
        · cases h
        · split at h
          · exact recoverBranch_noted h (by rw [hbranch]; rfl) rfl
          · cases h
  · cases h

theorem readUrlOpening_noted (h : readUrlOpening scope state = some after) :
    state.Noted scope after := by
  unfold readUrlOpening at h
  split at h
  · cases h
    exact enter_noted _ 4
  · cases h

theorem readUrlClosing_noted (h : readUrlClosing scope state = some after) :
    state.Noted scope after := by
  unfold readUrlClosing at h
  split at h
  · exact leave_noted h
  · cases h

theorem readBlockOpening_noted (h : readBlockOpening scope state = some after) :
    state.Noted scope after := by
  unfold readBlockOpening at h
  split at h
  · cases h
    exact enter_noted _ 2
  · cases h

theorem readCommentOpening_noted (h : readCommentOpening scope state = some after) :
    state.Noted scope after := by
  unfold readCommentOpening at h
  simp only [Option.orElse_eq_orElse, Option.orElse_eq_or] at h
  rcases Option.or_eq_some_iff.mp h with h | ⟨-, h⟩
  · exact readBlockOpening_noted h
  · unfold readLineOpening at h
    split at h
    · cases h
      exact enter_noted _ 2
    · cases h

theorem readUrlComment_noted (h : readUrlComment scope state = some after) :
    state.Noted scope after := by
  unfold readUrlComment at h
  split at h
  · exact readCommentOpening_noted h
  · cases h

theorem readBlockClosing_noted (h : readBlockClosing scope state = some after) :
    state.Noted scope after := by
  unfold readBlockClosing at h
  split at h
  · exact leave_noted h
  · cases h

theorem readLineClosing_noted (h : readLineClosing scope state = some after) :
    state.Noted scope after := by
  unfold readLineClosing at h
  split at h
  · exact leave_noted h
  · cases h

theorem readQuasiOpening_noted (h : readQuasiOpening scope state = some after) :
    state.Noted scope after := by
  obtain ⟨form, -, rfl⟩ := Option.map_eq_some_iff.mp h
  exact openBranch_noted scope _

theorem readAnnotationOpening_noted (h : readAnnotationOpening scope state = some after) :
    state.Noted scope after := by
  obtain ⟨form, -, rfl⟩ := Option.map_eq_some_iff.mp h
  exact openBranch_noted scope _

theorem readFragmentClosing_noted (h : readFragmentClosing scope state = some after) :
    state.Noted scope after := by
  unfold readFragmentClosing at h
  split at h
  · exact closeBranch?_noted h
  · cases h

theorem readIdentifierOpening_noted (h : readIdentifierOpening scope state = some after) :
    state.Noted scope after := by
  unfold readIdentifierOpening at h
  split at h
  · cases h
    exact openBranch_noted scope _
  · cases h

/-- An identifier closes or halts; neither is noted. -/
theorem readIdentifierClosing_noted (h : readIdentifierClosing scope state = some after) :
    state.Noted scope after := by
  unfold readIdentifierClosing at h
  cases hclose : state.closeBranch? true with
  | some closed =>
    rw [hclose] at h
    cases h
    exact closeBranch?_noted hclose
  | none =>
    rw [hclose] at h
    cases h
    exact ⟨none, rfl, .halted⟩

theorem readHashOpening_noted (h : readHashOpening scope state = some after) :
    state.Noted scope after := by
  obtain ⟨hash, -, rfl⟩ := Option.map_eq_some_iff.mp h
  exact enter_noted _ 1

/-- What a hash gathers is noted as it would be elsewhere. -/
theorem mapHash_noted (change : Hash → Hash) (noted : Option Recovery) {leaf : Leaf}
    {valid : Bool} {n : Nat} (hrecoveries : after.recoveries = noted.toList ++ state.recoveries)
    (hview : ∃ branch, after.view = (state.view.addLeaf leaf valid branch).consume scope n)
    (hnotes : ∀ branch, Notes scope state.view
      ((state.view.addLeaf leaf valid branch).consume scope n) noted) :
    state.Noted scope (after.mapHash change) := by
  obtain ⟨branch, hview⟩ := hview
  cases hbranch : after.frame.branch with
  | hash hash =>
    refine ⟨noted, ?_, ?_⟩
    · rw [← hrecoveries]
      unfold State.mapHash
      rw [hbranch]
    · have hframe : after.frame =
          { state.frame with branch := branch, pending := some (.leaf leaf) } :=
        congrArg View.frame hview
      rw [view_mapHash change hbranch, hview, hframe]
      exact hnotes (.hash (change hash))
  | _ =>
    refine ⟨noted, ?_, ?_⟩
    · rw [← hrecoveries]
      unfold State.mapHash
      rw [hbranch]
    · have hsame : after.mapHash change = after := by
        unfold State.mapHash
        rw [hbranch]
      rw [hsame, hview]
      exact hnotes branch

/-- An escape of a hash is noted as in any other name. -/
theorem readHashEscape_noted (h : readHashEscape scope state = some after) :
    state.Noted scope after := by
  obtain ⟨reading, hread, h⟩ := Option.bind_eq_some_iff.mp h
  obtain ⟨escaped, hescaped, rfl⟩ := Option.map_eq_some_iff.mp h
  rw [readEscape, hread, Option.map_some] at hescaped
  dsimp only at hescaped
  cases hclosed : reading.closed with
  | true =>
    rw [hclosed] at hescaped
    cases hescaped
    exact mapHash_noted _ none rfl ⟨_, rfl⟩ fun _ => .leaf (by simp)
  | false =>
    rw [hclosed] at hescaped
    cases hescaped
    exact mapHash_noted _ (some _) rfl ⟨_, rfl⟩ fun _ => .escape rfl

theorem readHashRun_noted (h : readHashRun scope state = some after) :
    state.Noted scope after := by
  obtain ⟨run, hrun, rfl⟩ := Option.map_eq_some_iff.mp h
  unfold readNameRun at hrun
  split at hrun
  · cases hrun
  · cases hrun
    exact mapHash_noted _ none rfl ⟨_, rfl⟩ fun _ => .leaf (by simp)

/-- A hash that is neither name nor color is noted. -/
theorem closeHash?_noted (h : state.closeHash? = some after) : state.Noted scope after := by
  unfold State.closeHash? at h
  split at h
  · rename_i hash hbranch
    have hsettled := view_mapHash Hash.settle hbranch
    have hrecoveries : (state.mapHash Hash.settle).recoveries = state.recoveries := by
      unfold State.mapHash
      rw [hbranch]
    dsimp only at h
    generalize state.mapHash Hash.settle = settled at h hsettled hrecoveries
    have hframe : settled.frame = { state.frame with branch := .hash hash.settle } :=
      congrArg View.frame hsettled
    have houter : settled.outer = state.view.outer := congrArg View.outer hsettled
    have hclosing : ∀ valid around further,
        settled.view.closeBranch settled.frame.branch valid around further =
          (state.view.closeBranch (.hash hash.settle) valid around further).consume scope 0 := by
      intro valid around further
      rw [View.consume_zero, hsettled, hframe]
      rfl
    -- the settled hash decides whether there is a note, and is the branch that it is about
    cases hvalid : hash.settle.isValid with
    | true =>
      rw [hvalid, if_pos rfl] at h
      obtain ⟨around, further, hfurther, hview⟩ := closeBranch?_eq_some h
      refine ⟨none, ?_, ?_⟩
      · rw [← hrecoveries, recoveries_closeBranch? h]
        rfl
      · rw [hview, hclosing]
        exact .closed (houter.symm.trans hfurther)
    | false =>
      rw [hvalid, if_neg (by decide)] at h
      obtain ⟨around, further, hfurther, hview⟩ := closeBranch?_eq_some h
      refine ⟨some ⟨.hash, ⟨settled.frame.start, settled.position⟩, settled.context⟩, ?_, ?_⟩
      · rw [← hrecoveries, recoveries_closeBranch? h]
        rfl
      · have hsame : after.view =
            settled.view.closeBranch settled.frame.branch false around further := hview
        rw [hsame, hclosing]
        have hnamed : (Branch.hash hash.settle).malformedCode? = some .hashMalformed := rfl
        refine .broken (houter.symm.trans hfurther) hnamed ?_
        rw [hframe]
        rfl
  · exact closeBranch?_noted h

/-- The end of a hash is noted if the hash is malformed. -/
theorem readHashClosing_noted (h : readHashClosing scope state = some after) :
    state.Noted scope after := by
  unfold readHashClosing at h
  cases hclose : state.closeHash? with
  | some closed =>
    rw [hclose] at h
    cases h
    exact closeHash?_noted hclose
  | none =>
    rw [hclose] at h
    cases h
    exact ⟨none, rfl, .halted⟩

/-! ## 3. The scan

All readers together, then a turn of the scan, then the end of the input, where every branch that
has a closer and every fragment is malformed. -/

/-- Every reader notes what it may. -/
theorem readers_noted (ahead : state.rest ≠ []) {reader : Reader} (hin : reader ∈ readers)
    (h : reader scope state = some after) : state.Noted scope after := by
  simp only [readers, List.mem_cons, List.not_mem_nil, or_false] at hin
  rcases hin with rfl | rfl | rfl | rfl | rfl | rfl | rfl | rfl | rfl | rfl | rfl | rfl | rfl |
    rfl | rfl | rfl | rfl | rfl | rfl | rfl | rfl | rfl | rfl | rfl | rfl | rfl | rfl | rfl |
    rfl | rfl
  · exact readBlank_noted h
  · exact readNumeral_noted h
  · exact readCdx_noted h
  · exact readSeparator_noted h
  · exact readOperator_noted h
  · exact readEscape_noted h
  · exact readContinuation_noted h
  · exact readRaw_noted h
  · exact readUnexpected_noted ahead h
  · exact readGroupOpening_noted h
  · exact readGroupClosing_noted h
  · exact readQuotedOpening_noted h
  · exact readQuotedClosing_noted h
  · exact readUrlOpening_noted h
  · exact readUrlClosing_noted h
  · exact readCommentOpening_noted h
  · exact readUrlComment_noted h
  · exact readBlockOpening_noted h
  · exact readBlockClosing_noted h
  · exact readLineClosing_noted h
  · exact readQuasiOpening_noted h
  · exact readAnnotationOpening_noted h
  · exact readFragmentClosing_noted h
  · exact readIdentifierOpening_noted h
  · exact readIdentifierClosing_noted h
  · exact readNameRun_noted h
  · exact readHashOpening_noted h
  · exact readHashEscape_noted h
  · exact readHashRun_noted h
  · exact readHashClosing_noted h

/-- **Every step of the scan notes what it may**, if there is a step to make. -/
theorem readNext_noted (scope : Scope) (ahead : state.rest ≠ []) :
    readNext scope state = state ∨ state.Noted scope (readNext scope state) := by
  have hnoted : ∀ reader ∈ readers, ∀ after, reader scope state = some after →
      after = state ∨ state.Noted scope after :=
    fun _ hin _ hread => Or.inr (readers_noted ahead hin hread)
  exact readNext_of_readers (Or.inl rfl) hnoted

/-- **The end of the input notes every branch that it leaves malformed.** -/
theorem closeAtEnd?_noted (scope : Scope) (h : state.closeAtEnd? = some after) :
    state.Noted scope after := by
  unfold State.closeAtEnd? at h
  split at h
  · exact closeHash?_noted h
  · exact closeBranch?_noted h
  · exact closeBranch?_noted h
  · exact closeBranch?_noted h
  · rename_i hhash hidentifier hroot hline
    have hclose : ((state.recoverBranch .unterminated).closeBranch? false).map
        (State.consume scope 0) = some after := by
      rw [h]
      rfl
    have hquasi : Recovery.unterminatedCode .quasi = .fragmentOpen := by decide
    have hannotation : Recovery.unterminatedCode Context.annotation = .fragmentOpen := by decide
    have hnamed : ∃ code, state.frame.branch.malformedCode? = some code ∧
        Recovery.unterminatedCode state.frame.branch.context = code := by
      -- the code is found by the context of the branch, and it is the one that the branch should
      -- have
      cases hbranch : state.frame.branch with
      | hash hash => exact absurd hbranch (hhash hash)
      | identifier value => exact absurd hbranch (hidentifier value)
      | root => exact absurd hbranch hroot
      | comment form =>
        cases form with
        | line => exact absurd hbranch hline
        | block => exact ⟨_, rfl, rfl⟩
      | group bracket => cases bracket <;> exact ⟨_, rfl, rfl⟩
      | quoted quote => cases quote <;> exact ⟨_, rfl, rfl⟩
      | url => exact ⟨_, rfl, rfl⟩
      | quasi form => exact ⟨_, rfl, hquasi⟩
      | annotation form placement => exact ⟨_, rfl, hannotation⟩
    obtain ⟨code, hcode, htold⟩ := hnamed
    exact recoverBranch_noted hclose hcode htold

end Scan
end StyleLex
