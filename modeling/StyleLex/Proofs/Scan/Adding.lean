/-
# What a step adds

`branch.holds nesting kind` is the schema of the tree, branch by branch: which kinds may stand right
below it.  A step adds at most one node to the innermost branch (`View.Adds`), and the readers of a
context add only what the schema allows there (`readNext_fits`).

Two readers accept more than the schema says, and are not reached where they would: in a fragment
an operator or an opener is always ahead until its group is there.  For a fragment is opened where
its pattern stands (`Spells`), and while it is open no step but that which takes an operator, or
opens the group, is made in it (`View.Orderly`).

There is a lemma `…_adds` for each reader, with a property `P` of kinds as its parameter: if `P`
allows what the reader may begin, the step adds what `P` allows.  The schema is one such property,
and that a hash is opened only where one begins is another (`Proofs/Scan/Hashing`), so the readers
need not be gone through again.

Section 4 then goes through the contexts.  Most of them are immediate, since the list of readers of
a context names exactly the kinds that the schema names; the two that accept more are the readers of
operators and of groups in a fragment, which may be reached only while the pattern is not complete.
-/
import Mathlib.Data.List.Chain
import StyleLex.Proofs.Scan.Progress
import StyleLex.Proofs.Token.Pattern

namespace StyleLex

/-! ## 1. What may stand where

The schema as a function of two kinds, so that it can be evaluated.  Whether block comments nest is
a parameter, which is set by the dialect. -/

namespace Kind

/-- Anything may stand in a root or in a group but a root, raw text and an escape of a code
point. -/
def inGroup : Kind → Bool
  | .branch .root | .leaf .raw => false
  | .leaf (.escape escape) => escape.codepoint.isNone
  | _ => true

/-- Raw text and escapes of code points make a name. -/
def inName : Kind → Bool
  | .leaf .raw => true
  | .leaf (.escape escape) => escape.codepoint.isSome
  | _ => false

/-- Is the node a group? -/
def isGroup : Kind → Bool
  | .branch (.group _) => true
  | _ => false

/-- Is the node an operator? -/
def isOperator : Kind → Bool
  | .leaf (.operator _) => true
  | _ => false

end Kind

namespace Branch

/-- May a node of this kind stand right below the branch?  Block comments nest in some dialects
only. -/
def holds (nesting : Bool) (branch : Branch) (kind : Kind) : Bool :=
  match branch with
  | root | group _ => kind.inGroup
  | quoted _ =>
    match kind with
    | .leaf (.escape _) | .leaf .raw | .branch (.quasi _) => true
    | _ => false
  | url =>
    match kind with
    | .leaf (.escape _) | .leaf .blank | .leaf .raw => true
    | .branch (.comment _) | .branch (.quoted _) | .branch (.quasi _) => true
    | _ => false
  | comment .block =>
    match kind with
    | .leaf .raw | .branch (.quasi _) => true
    | .branch (.comment .block) => nesting
    | _ => false
  | comment .line =>
    match kind with
    | .leaf .raw | .branch (.quasi _) => true
    | _ => false
  | quasi _ | annotation _ _ => kind.isOperator || kind.isGroup
  | identifier _ | hash _ => kind.inName

variable {a b : Branch} {kind : Kind} {nesting : Bool}

/-- What a hash has gathered changes nothing of what it holds. -/
theorem Alike.holds_eq (h : a.Alike b) : a.holds nesting kind = b.holds nesting kind := by
  cases h <;> rfl

/-- Nor does it change where the hash may stand. -/
theorem Alike.held_eq (h : a.Alike b) (around : Branch) :
    around.holds nesting (.branch a) = around.holds nesting (.branch b) := by
  cases h with
  | refl => rfl
  | hash =>
    cases around with
    | comment form => cases form <;> rfl
    | _ => rfl

/-- A fragment holds operators and groups. -/
theorem holds_of_isFragment (h : a.isFragment = true) :
    a.holds nesting kind = (kind.isOperator || kind.isGroup) := by
  cases a <;> first | rfl | cases h

end Branch

/-- A group has some bracket. -/
theorem Kind.exists_of_isGroup {kind : Kind} (h : kind.isGroup = true) :
    ∃ bracket, kind = .branch (.group bracket) := by
  unfold Kind.isGroup at h
  split at h
  · exact ⟨_, rfl⟩
  · cases h

/-- The kind of the node that a mark begins. -/
def Mark.kind? : Mark → Option Kind
  | leaf begun _ _ => some (.leaf begun)
  | opened branch _ => some (.branch branch)
  | closed _ _ _ => none

namespace Scan

/-! ## 2. Patterns ahead

A fragment is recognised by its whole pattern but read one token at a time, so while it is open the
rest of the pattern stands ahead.  `Spells` says so without naming the pattern. -/

/-- Does the pattern of a form stand here? -/
def Spells (rest : List UInt8) : Prop := ∃ pattern, IsPattern pattern ∧ pattern <+: rest

/-- A pattern begins with an operator, and is one without it; or it is an opener. -/
theorem Spells.cases {rest : List UInt8} (h : Spells rest) :
    (∃ b tail, rest = b :: tail ∧ Byte.isOperator b = true ∧ Spells tail) ∨
      ∃ (bracket : Bracket) (tail : List UInt8), rest = bracket.opener :: tail := by
  obtain ⟨_, ⟨operators, bracket, rfl, hoperators⟩, tail, rfl⟩ := h
  cases operators with
  | nil => exact Or.inr ⟨bracket, tail, rfl⟩
  | cons b operators =>
    refine Or.inl ⟨b, operators ++ [bracket.opener] ++ tail, rfl,
      hoperators b List.mem_cons_self, ?_⟩
    refine ⟨operators ++ [bracket.opener], ⟨operators, bracket, rfl, ?_⟩, tail, rfl⟩
    exact fun x hx => hoperators x (List.mem_cons_of_mem _ hx)

/-- At the end of the input no pattern is left. -/
theorem not_spells_nil : ¬ Spells [] := by
  intro h
  rcases h.cases with ⟨b, tail, hrest, -⟩ | ⟨bracket, tail, hrest⟩ <;> cases hrest

/-! ## 3. What each reader adds

What a step adds is read off its marks: it makes one mark at most, and a mark that closes a branch
adds nothing. -/

/-- If a node is added, its kind is one that `P` allows. -/
def View.Adds (P : Kind → Prop) (view after : View) : Prop :=
  ∀ mark kind, after.marks = mark :: view.marks → mark.kind? = some kind → P kind

variable {scope : Scope} {state after : State} {P : Kind → Prop}

/-- A step that begins no node adds none. -/
theorem adds_of_marks {view next : View} (h : next.marks = view.marks) : view.Adds P next := by
  intro mark kind hmarks
  rw [h] at hmarks
  exact absurd hmarks (by simp)

/-- A step that begins a node adds it. -/
theorem adds_begun {view next : View} {mark : Mark} {kind : Kind} (hP : P kind)
    (h : next.marks = mark :: view.marks) (hkind : mark.kind? = some kind) :
    view.Adds P next := by
  intro other found hmarks hfound
  rw [h, List.cons.injEq] at hmarks
  obtain ⟨rfl, -⟩ := hmarks
  rw [hkind, Option.some.injEq] at hfound
  exact hfound ▸ hP

/-- A step that closes a branch adds nothing. -/
theorem adds_closed {view next : View} {branch : Branch} {valid : Bool} {stop : Position}
    (h : next.marks = .closed branch valid stop :: view.marks) : view.Adds P next := by
  intro other found hmarks hfound
  rw [h, List.cons.injEq] at hmarks
  obtain ⟨rfl, -⟩ := hmarks
  cases hfound

/-- Taking a leaf adds it. -/
theorem takeLeaf_adds {leaf : Leaf} (hP : P (.leaf leaf)) (n : Nat) :
    state.view.Adds P (state.takeLeaf scope leaf n).view :=
  adds_begun hP rfl rfl

/-- Opening a branch adds it, without an opener … -/
theorem openBranch_adds {branch : Branch} (hP : P (.branch branch)) :
    state.view.Adds P (state.openBranch branch).view :=
  adds_begun hP rfl rfl

/-- … or with one. -/
theorem enter_adds {branch : Branch} (hP : P (.branch branch)) (n : Nat) :
    state.view.Adds P (state.enter scope branch n).view :=
  adds_begun hP rfl rfl

/-- Completing a branch adds nothing, whether it takes nothing … -/
theorem closeBranch?_adds {valid : Bool} (h : state.closeBranch? valid = some after) :
    state.view.Adds P after.view := by
  obtain ⟨around, further, -, hview⟩ := closeBranch?_eq_some h
  rw [hview]
  exact adds_closed rfl

/-- … or its closer. -/
theorem leave_adds {n : Nat} (h : state.leave? scope n = some after) :
    state.view.Adds P after.view := by
  obtain ⟨closed, hclosed, rfl⟩ := Option.map_eq_some_iff.mp h
  have hadds : state.view.Adds P closed.view := closeBranch?_adds hclosed
  exact hadds

theorem readBlank_adds (hP : P (.leaf .blank)) (h : readBlank scope state = some after) :
    state.view.Adds P after.view := by
  unfold readBlank at h
  split at h
  · cases h
  · cases h
    exact takeLeaf_adds hP _

theorem readNumeral_adds (hP : ∀ numeral, P (.leaf (.numeric numeral)))
    (h : readNumeral scope state = some after) : state.view.Adds P after.view := by
  obtain ⟨⟨numeral, n⟩, -, rfl⟩ := Option.map_eq_some_iff.mp h
  exact takeLeaf_adds (hP numeral) n

theorem readSeparator_adds (hP : ∀ b, P (.leaf (.separator b)))
    (h : readSeparator scope state = some after) : state.view.Adds P after.view := by
  unfold readSeparator at h
  split at h
  · rename_i b rest hrest
    split at h
    · cases h
      exact takeLeaf_adds (hP b) 1
    · cases h
  · cases h

theorem readOperator_adds (hP : ∀ b, P (.leaf (.operator b)))
    (h : readOperator scope state = some after) : state.view.Adds P after.view := by
  unfold readOperator at h
  split at h
  · rename_i b rest hrest
    split at h
    · cases h
      exact takeLeaf_adds (hP b) 1
    · cases h
  · cases h

theorem readCdx_adds (hP : ∀ marker, P (.leaf (.cdx marker)))
    (h : readCdx scope state = some after) : state.view.Adds P after.view := by
  unfold readCdx at h
  split at h
  · obtain ⟨marker, -, hmarker⟩ := List.exists_of_findSome?_eq_some h
    dsimp only at hmarker
    split at hmarker
    · cases hmarker
      exact takeLeaf_adds (hP marker) _
    · cases hmarker
  · cases h

/-- An escape that is read has a code point. -/
theorem readEscape_adds (hP : ∀ codepoint, P (.leaf (.escape ⟨some codepoint⟩)))
    (h : readEscape scope state = some after) : state.view.Adds P after.view := by
  obtain ⟨reading, hread, rfl⟩ := Option.map_eq_some_iff.mp h
  obtain ⟨codepoint, hcodepoint⟩ := Option.isSome_iff_exists.mp (Escape.isSome_codepoint hread)
  have hview : ∀ final : State, (if reading.closed then final
      else final.recover .escape ⟨state.position, final.position⟩).view = final.view := by
    intro final
    split <;> rfl
  rw [hview, hcodepoint]
  exact adds_begun (hP codepoint) rfl rfl

/-- A line continuation has none. -/
theorem readContinuation_adds (hP : P (.leaf (.escape ⟨none⟩)))
    (h : readContinuation scope state = some after) : state.view.Adds P after.view := by
  obtain ⟨n, -, rfl⟩ := Option.map_eq_some_iff.mp h
  exact takeLeaf_adds hP n

/-- Raw text is begun or grows. -/
theorem readRaw_adds (hP : P (.leaf .raw)) (h : readRaw scope state = some after) :
    state.view.Adds P after.view := by
  unfold readRaw at h
  split at h
  · cases h
    exact adds_of_marks rfl
  · cases h
    exact takeLeaf_adds hP 1

/-- So are unexpected bytes. -/
theorem readUnexpected_adds (hP : P (.leaf .unexpected))
    (h : readUnexpected scope state = some after) : state.view.Adds P after.view := by
  have hmarks : after.view.marks =
      (if state.frame.pending == some (.leaf .unexpected) then state
        else state.addLeaf .unexpected false).view.marks := by
    unfold readUnexpected at h
    cases h
    split
    · rfl
    · split <;> rfl
  split at hmarks
  · exact adds_of_marks hmarks
  · exact adds_begun hP hmarks rfl

theorem readGroupOpening_adds (hP : ∀ bracket, P (.branch (.group bracket)))
    (h : readGroupOpening scope state = some after) : state.view.Adds P after.view := by
  unfold readGroupOpening at h
  split at h
  · obtain ⟨bracket, -, rfl⟩ := Option.map_eq_some_iff.mp h
    exact enter_adds (hP bracket) 1
  · cases h

theorem readGroupClosing_adds (h : readGroupClosing scope state = some after) :
    state.view.Adds P after.view := by
  unfold readGroupClosing at h
  split at h
  · split at h
    · exact leave_adds h
    · cases h
  · cases h

theorem readQuotedOpening_adds (hP : ∀ quote, P (.branch (.quoted quote)))
    (h : readQuotedOpening scope state = some after) : state.view.Adds P after.view := by
  unfold readQuotedOpening at h
  split at h
  · split at h
    · rename_i quote hquote
      split at h
      · cases h
      · cases h
        exact enter_adds (hP quote) 1
    · cases h
  · cases h

/-- A string is closed, in one way or the other. -/
theorem readQuotedClosing_adds (h : readQuotedClosing scope state = some after) :
    state.view.Adds P after.view := by
  unfold readQuotedClosing at h
  split at h
  · split at h
    · cases h
    · split at h
      · exact leave_adds h
      · unfold readStringBreak at h
        split at h
        · cases h
        · split at h
          · obtain ⟨closed, hclosed, rfl⟩ := Option.map_eq_some_iff.mp h
            have hadds : (state.recoverBranch .brokenString).view.Adds P closed.view :=
              closeBranch?_adds hclosed
            exact hadds
          · cases h
  · cases h

theorem readUrlOpening_adds (hP : P (.branch .url))
    (h : readUrlOpening scope state = some after) : state.view.Adds P after.view := by
  unfold readUrlOpening at h
  split at h
  · cases h
    exact enter_adds hP 4
  · cases h

theorem readUrlClosing_adds (h : readUrlClosing scope state = some after) :
    state.view.Adds P after.view := by
  unfold readUrlClosing at h
  split at h
  · exact leave_adds h
  · cases h

/-- A block comment is opened in another one only where comments nest. -/
theorem readBlockOpening_adds
    (hP : state.context ≠ .block ∨ scope.dialect.extendedComments = true →
      P (.branch (.comment .block)))
    (h : readBlockOpening scope state = some after) : state.view.Adds P after.view := by
  unfold readBlockOpening at h
  split at h
  · rename_i hopens
    cases h
    refine enter_adds (hP ?_) 2
    simpa using (Bool.and_eq_true_iff.mp hopens).2
  · cases h

theorem readCommentOpening_adds (hP : ∀ form, P (.branch (.comment form)))
    (h : readCommentOpening scope state = some after) : state.view.Adds P after.view := by
  unfold readCommentOpening at h
  simp only [Option.orElse_eq_orElse, Option.orElse_eq_or] at h
  rcases Option.or_eq_some_iff.mp h with h | ⟨-, h⟩
  · exact readBlockOpening_adds (fun _ => hP .block) h
  · unfold readLineOpening at h
    split at h
    · cases h
      exact enter_adds (hP .line) 2
    · cases h

theorem readUrlComment_adds (hP : ∀ form, P (.branch (.comment form)))
    (h : readUrlComment scope state = some after) : state.view.Adds P after.view := by
  unfold readUrlComment at h
  split at h
  · exact readCommentOpening_adds hP h
  · cases h

theorem readBlockClosing_adds (h : readBlockClosing scope state = some after) :
    state.view.Adds P after.view := by
  unfold readBlockClosing at h
  split at h
  · exact leave_adds h
  · cases h

theorem readLineClosing_adds (h : readLineClosing scope state = some after) :
    state.view.Adds P after.view := by
  unfold readLineClosing at h
  split at h
  · exact leave_adds h
  · cases h

/-- A fragment is opened where its pattern stands. -/
theorem readQuasiOpening_adds (hmade : scope.fragments.Made)
    (hP : ∀ form, Spells state.rest → P (.branch (.quasi form)))
    (h : readQuasiOpening scope state = some after) : state.view.Adds P after.view := by
  obtain ⟨form, hfound, rfl⟩ := Option.map_eq_some_iff.mp h
  have hpattern := isPattern_of_patternOf
    (hmade.quasi _ form (List.mem_of_find?_eq_some hfound))
  have hfront : form.pattern <+: state.rest :=
    List.isPrefixOf_iff_prefix.mp (by simpa using List.find?_some hfound)
  exact openBranch_adds (hP form.form ⟨form.pattern, hpattern, hfront⟩)

/-- So is one that is an annotation. -/
theorem readAnnotationOpening_adds (hmade : scope.fragments.Made)
    (hP : ∀ form placement, Spells state.rest → P (.branch (Branch.annotation form placement)))
    (h : readAnnotationOpening scope state = some after) : state.view.Adds P after.view := by
  obtain ⟨form, hfound, rfl⟩ := Option.map_eq_some_iff.mp h
  have hpattern := isPattern_of_patternOf
    (hmade.annotations form (List.mem_of_find?_eq_some hfound))
  have hfront : form.pattern <+: state.rest :=
    List.isPrefixOf_iff_prefix.mp (by simpa using List.find?_some hfound)
  exact openBranch_adds (hP form.form form.placement ⟨form.pattern, hpattern, hfront⟩)

theorem readFragmentClosing_adds (h : readFragmentClosing scope state = some after) :
    state.view.Adds P after.view := by
  unfold readFragmentClosing at h
  split at h
  · exact closeBranch?_adds h
  · cases h

theorem readIdentifierOpening_adds (hP : P (.branch (.identifier "")))
    (h : readIdentifierOpening scope state = some after) : state.view.Adds P after.view := by
  unfold readIdentifierOpening at h
  split at h
  · cases h
    exact openBranch_adds hP
  · cases h

theorem readNameRun_adds (hP : P (.leaf .raw)) (h : readNameRun scope state = some after) :
    state.view.Adds P after.view := by
  unfold readNameRun at h
  split at h
  · cases h
  · cases h
    exact takeLeaf_adds hP _

theorem readIdentifierClosing_adds (h : readIdentifierClosing scope state = some after) :
    state.view.Adds P after.view := by
  unfold readIdentifierClosing at h
  simp only [Option.orElse_eq_orElse, Option.orElse_eq_or] at h
  rcases Option.or_eq_some_iff.mp h with h | ⟨-, h⟩
  · exact closeBranch?_adds h
  · cases h
    exact adds_of_marks rfl

/-- A hash is opened where one begins, and with what is known of it there. -/
theorem readHashOpening_adds
    (hP : ∀ hash, Hash.begin? state.rest = some hash → P (.branch (.hash hash)))
    (h : readHashOpening scope state = some after) : state.view.Adds P after.view := by
  obtain ⟨hash, hbegin, rfl⟩ := Option.map_eq_some_iff.mp h
  exact enter_adds (hP hash hbegin) 1

/-- What a hash gathers begins no node. -/
theorem marks_mapHash (change : Hash → Hash) (state : State) :
    (state.mapHash change).marks = state.marks := by
  unfold State.mapHash
  split <;> rfl

/-- So changing what a hash has gathered adds nothing. -/
theorem mapHash_adds {change : Hash → Hash} (h : state.view.Adds P after.view) :
    state.view.Adds P (after.mapHash change).view := by
  intro mark kind hmarks hkind
  exact h mark kind ((marks_mapHash change after).symm.trans hmarks) hkind

theorem readHashEscape_adds (hP : ∀ codepoint, P (.leaf (.escape ⟨some codepoint⟩)))
    (h : readHashEscape scope state = some after) : state.view.Adds P after.view := by
  obtain ⟨reading, -, h⟩ := Option.bind_eq_some_iff.mp h
  obtain ⟨escaped, hescaped, rfl⟩ := Option.map_eq_some_iff.mp h
  exact mapHash_adds (readEscape_adds hP hescaped)

theorem readHashRun_adds (hP : P (.leaf .raw)) (h : readHashRun scope state = some after) :
    state.view.Adds P after.view := by
  obtain ⟨run, hrun, rfl⟩ := Option.map_eq_some_iff.mp h
  exact mapHash_adds (readNameRun_adds hP hrun)

/-- A hash settles and closes; nothing is begun. -/
theorem readHashClosing_adds {hash : Hash} (hbranch : state.frame.branch = .hash hash)
    (h : readHashClosing scope state = some after) : state.view.Adds P after.view := by
  unfold readHashClosing at h
  rcases closeHash?_eq hbranch with
    ⟨hnone, -⟩ | ⟨closed, around, further, hsome, -, hview⟩
  · rw [hnone] at h
    cases h
    exact adds_of_marks rfl
  · rw [hsome] at h
    cases h
    rw [hview]
    exact adds_closed rfl

/-- If every reader of some adds what `P` allows, so does the first one that accepts. -/
theorem findSome?_adds {readers : List Reader}
    (h : ∀ reader ∈ readers, ∀ after, reader scope state = some after →
      state.view.Adds P after.view) :
    state.view.Adds P
      ((readers.findSome? fun reader => reader scope state).getD state).view := by
  cases hfound : readers.findSome? fun reader => reader scope state with
  | none => exact adds_of_marks rfl
  | some after =>
    obtain ⟨reader, hin, hread⟩ := List.exists_of_findSome?_eq_some hfound
    exact h reader hin after hread

/-! ## 4. What a step adds

`View.Fits` has two more fields than the schema, about fragments: a fragment begins with its
pattern, and nothing comes behind its group. -/

/-- The schema allows a node of this kind here. -/
structure View.Fits (nesting : Bool) (view : View) (kind : Kind) : Prop where
  held : view.frame.branch.holds nesting kind = true
  /-- A fragment begins with its pattern. -/
  spells : ∀ branch, kind = .branch branch → branch.isFragment = true → Spells view.rest
  /-- The group of a fragment is its last child. -/
  last : view.frame.branch.isFragment = true →
    ∀ bracket, view.frame.pending ≠ some (.branch (.group bracket))

/-- In a fragment, its group was read, or what is left of its pattern is ahead. -/
def View.Spelled (view : View) : Prop :=
  view.frame.branch.isFragment = true →
    (∃ bracket, view.frame.pending = some (.branch (.group bracket))) ∨ Spells view.rest

variable {view next : View} {nesting : Bool}

/-- A leaf that the schema allows in a branch that is no fragment. -/
theorem fits_leaf {leaf : Leaf} {around : Branch} (hbranch : view.frame.branch = around)
    (hfragment : around.isFragment = false) (hheld : around.holds nesting (.leaf leaf) = true) :
    view.Fits nesting (.leaf leaf) := by
  subst hbranch
  exact ⟨hheld, nofun, fun h => absurd h (Bool.eq_false_iff.mp hfragment)⟩

/-- A branch that the schema allows, with its pattern ahead if it is a fragment. -/
theorem fits_branch {branch around : Branch} (hbranch : view.frame.branch = around)
    (hfragment : around.isFragment = false) (hheld : around.holds nesting (.branch branch) = true)
    (hspells : branch.isFragment = true → Spells view.rest) :
    view.Fits nesting (.branch branch) := by
  subst hbranch
  refine ⟨hheld, ?_, fun h => absurd h (Bool.eq_false_iff.mp hfragment)⟩
  intro opened heq hopened
  cases heq
  exact hspells hopened

/-- A branch other than a fragment. -/
theorem fits_other {branch around : Branch} (hbranch : view.frame.branch = around)
    (hfragment : around.isFragment = false) (hheld : around.holds nesting (.branch branch) = true)
    (hother : branch.isFragment = false) : view.Fits nesting (.branch branch) :=
  fits_branch hbranch hfragment hheld fun h => absurd h (Bool.eq_false_iff.mp hother)

section Contexts

variable (hmade : scope.fragments.Made)

include hmade

/-- The readers of the root and of groups. -/
theorem readGroup_fits {readers : List Reader}
    (hfragment : state.frame.branch.isFragment = false)
    (hholds : ∀ kind, state.frame.branch.holds nesting kind = kind.inGroup)
    (hreaders : readers = [readBlank, readNumeral, readUrlOpening, readCommentOpening, readCdx,
      readQuasiOpening, readAnnotationOpening, readIdentifierOpening, readHashOpening,
      readQuotedOpening, readSeparator, readOperator, readGroupOpening, readGroupClosing,
      readContinuation, readUnexpected]) :
    state.view.Adds (state.view.Fits nesting)
      ((readers.findSome? fun reader => reader scope state).getD state).view := by
  subst hreaders
  have hleaf : ∀ leaf, (Kind.leaf leaf).inGroup = true → state.view.Fits nesting (.leaf leaf) :=
    fun leaf h => fits_leaf rfl hfragment ((hholds _).trans h)
  have hbranch : ∀ branch : Branch, (Kind.branch branch).inGroup = true →
      (branch.isFragment = true → Spells state.rest) →
      state.view.Fits nesting (.branch branch) :=
    fun branch h hspells => fits_branch rfl hfragment ((hholds _).trans h) hspells
  have hother : ∀ branch : Branch, (Kind.branch branch).inGroup = true →
      branch.isFragment = false → state.view.Fits nesting (.branch branch) :=
    fun branch h hnot => fits_other rfl hfragment ((hholds _).trans h) hnot
  refine findSome?_adds fun reader hin after h => ?_
  simp only [List.mem_cons, List.not_mem_nil, or_false] at hin
  rcases hin with rfl | rfl | rfl | rfl | rfl | rfl | rfl | rfl | rfl | rfl | rfl | rfl | rfl |
    rfl | rfl | rfl
  · exact readBlank_adds (hleaf _ rfl) h
  · exact readNumeral_adds (fun _ => hleaf _ rfl) h
  · exact readUrlOpening_adds (hother _ rfl rfl) h
  · exact readCommentOpening_adds (fun _ => hother _ rfl rfl) h
  · exact readCdx_adds (fun _ => hleaf _ rfl) h
  · exact readQuasiOpening_adds hmade (fun _ hspells => hbranch _ rfl fun _ => hspells) h
  · exact readAnnotationOpening_adds hmade (fun _ _ hspells => hbranch _ rfl fun _ => hspells) h
  · exact readIdentifierOpening_adds (hother _ rfl rfl) h
  · exact readHashOpening_adds (fun _ _ => hother _ rfl rfl) h
  · exact readQuotedOpening_adds (fun _ => hother _ rfl rfl) h
  · exact readSeparator_adds (fun _ => hleaf _ rfl) h
  · exact readOperator_adds (fun _ => hleaf _ rfl) h
  · exact readGroupOpening_adds (fun _ => hother _ rfl rfl) h
  · exact readGroupClosing_adds h
  · exact readContinuation_adds (hleaf _ rfl) h
  · exact readUnexpected_adds (hleaf _ rfl) h

/-- The readers of strings. -/
theorem readQuoted_fits {readers : List Reader} {quote : Quote}
    (hbranch : state.view.frame.branch = .quoted quote)
    (hreaders : readers = [readEscape, readContinuation, readQuasiOpening, readQuotedClosing,
      readRaw]) :
    state.view.Adds (state.view.Fits nesting)
      ((readers.findSome? fun reader => reader scope state).getD state).view := by
  subst hreaders
  refine findSome?_adds fun reader hin after h => ?_
  simp only [List.mem_cons, List.not_mem_nil, or_false] at hin
  rcases hin with rfl | rfl | rfl | rfl | rfl
  · exact readEscape_adds (fun _ => fits_leaf hbranch rfl rfl) h
  · exact readContinuation_adds (fits_leaf hbranch rfl rfl) h
  · exact readQuasiOpening_adds hmade
      (fun _ hspells => fits_branch hbranch rfl rfl fun _ => hspells) h
  · exact readQuotedClosing_adds h
  · exact readRaw_adds (fits_leaf hbranch rfl rfl) h

/-- The readers of addresses. -/
theorem readUrl_fits (hbranch : state.view.frame.branch = .url) :
    state.view.Adds (state.view.Fits nesting) (readNext scope state).view := by
  have hcontext : state.context = .url := congrArg Branch.context hbranch
  rw [readNext, hcontext]
  refine findSome?_adds fun reader hin after h => ?_
  simp only [readersOf, List.mem_cons, List.not_mem_nil, or_false] at hin
  rcases hin with rfl | rfl | rfl | rfl | rfl | rfl | rfl | rfl
  · exact readEscape_adds (fun _ => fits_leaf hbranch rfl rfl) h
  · exact readContinuation_adds (fits_leaf hbranch rfl rfl) h
  · exact readBlank_adds (fits_leaf hbranch rfl rfl) h
  · exact readUrlComment_adds (fun _ => fits_other hbranch rfl rfl rfl) h
  · exact readQuotedOpening_adds (fun _ => fits_other hbranch rfl rfl rfl) h
  · exact readQuasiOpening_adds hmade
      (fun _ hspells => fits_branch hbranch rfl rfl fun _ => hspells) h
  · exact readUrlClosing_adds h
  · exact readRaw_adds (fits_leaf hbranch rfl rfl) h

/-- The readers of block comments; whether a comment may stand in one is up to the dialect. -/
theorem readBlock_fits (hbranch : state.view.frame.branch = .comment .block) :
    state.view.Adds (state.view.Fits scope.dialect.extendedComments)
      (readNext scope state).view := by
  have hcontext : state.context = .block := congrArg Branch.context hbranch
  have hnests : state.context ≠ .block ∨ scope.dialect.extendedComments = true →
      state.view.Fits scope.dialect.extendedComments (.branch (.comment .block)) := by
    intro hopens
    exact fits_other hbranch rfl (hopens.resolve_left (absurd hcontext)) rfl
  rw [readNext, hcontext]
  refine findSome?_adds fun reader hin after h => ?_
  simp only [readersOf, List.mem_cons, List.not_mem_nil, or_false] at hin
  rcases hin with rfl | rfl | rfl | rfl
  · exact readBlockOpening_adds hnests h
  · exact readBlockClosing_adds h
  · exact readQuasiOpening_adds hmade
      (fun _ hspells => fits_branch hbranch rfl rfl fun _ => hspells) h
  · exact readRaw_adds (fits_leaf hbranch rfl rfl) h

/-- The readers of line comments. -/
theorem readLine_fits (hbranch : state.view.frame.branch = .comment .line) :
    state.view.Adds (state.view.Fits nesting) (readNext scope state).view := by
  have hcontext : state.context = .line := congrArg Branch.context hbranch
  rw [readNext, hcontext]
  refine findSome?_adds fun reader hin after h => ?_
  simp only [readersOf, List.mem_cons, List.not_mem_nil, or_false] at hin
  rcases hin with rfl | rfl | rfl
  · exact readQuasiOpening_adds hmade
      (fun _ hspells => fits_branch hbranch rfl rfl fun _ => hspells) h
  · exact readLineClosing_adds h
  · exact readRaw_adds (fits_leaf hbranch rfl rfl) h

end Contexts

/-- The readers of identifiers. -/
theorem readIdentifier_fits {value : String}
    (hbranch : state.view.frame.branch = .identifier value) :
    state.view.Adds (state.view.Fits nesting) (readNext scope state).view := by
  have hcontext : state.context = .identifier := congrArg Branch.context hbranch
  rw [readNext, hcontext]
  refine findSome?_adds fun reader hin after h => ?_
  simp only [readersOf, List.mem_cons, List.not_mem_nil, or_false] at hin
  rcases hin with rfl | rfl | rfl
  · exact readEscape_adds (fun _ => fits_leaf hbranch rfl rfl) h
  · exact readNameRun_adds (fits_leaf hbranch rfl rfl) h
  · exact readIdentifierClosing_adds h

/-- The readers of hashes. -/
theorem readHash_fits {hash : Hash} (hbranch : state.view.frame.branch = .hash hash) :
    state.view.Adds (state.view.Fits nesting) (readNext scope state).view := by
  have hcontext : state.context = .hash := congrArg Branch.context hbranch
  rw [readNext, hcontext]
  refine findSome?_adds fun reader hin after h => ?_
  simp only [readersOf, List.mem_cons, List.not_mem_nil, or_false] at hin
  rcases hin with rfl | rfl | rfl
  · exact readHashEscape_adds (fun _ => fits_leaf hbranch rfl rfl) h
  · exact readHashRun_adds (fits_leaf hbranch rfl rfl) h
  · exact readHashClosing_adds hbranch h

/-- A fragment whose group was read closes. -/
theorem readNext_of_group (scope : Scope) {bracket : Bracket}
    (hfragment : state.frame.branch.isFragment = true)
    (hpending : state.frame.pending = some (.branch (.group bracket)))
    (houter : state.outer ≠ []) : state.closeBranch? true = some (readNext scope state) := by
  obtain ⟨around, further, houter⟩ := List.exists_cons_of_ne_nil houter
  have hclose : (state.closeBranch? true).isSome = true := by
    unfold State.closeBranch?
    rw [houter]
    rfl
  obtain ⟨closed, hclosed⟩ := Option.isSome_iff_exists.mp hclose
  have hread : readFragmentClosing scope state = some closed := by
    unfold readFragmentClosing
    rw [hpending]
    exact hclosed
  rw [hclosed, readNext_of_first (readersOf_fragment hfragment) hread]

/-- Until then an operator of its pattern is taken, or the group is opened. -/
theorem readNext_of_spells (scope : Scope) (hfragment : state.frame.branch.isFragment = true)
    (hpending : ∀ bracket, state.frame.pending ≠ some (.branch (.group bracket)))
    (h : Spells state.rest) :
    (∃ b, readNext scope state = state.takeLeaf scope (.operator b) 1 ∧
      Spells (state.rest.drop 1)) ∨
      ∃ bracket, readNext scope state = state.enter scope (.group bracket) 1 := by
  have hclosing : readFragmentClosing scope state = none :=
    readFragmentClosing_eq_none hpending
  rcases h.cases with ⟨b, tail, hrest, hoperator, hspells⟩ | ⟨bracket, tail, hrest⟩
  · refine Or.inl ⟨b, ?_, ?_⟩
    · refine readNext_of_second (readersOf_fragment hfragment) hclosing ?_
      simp [readOperator, hrest, hoperator]
    · rw [hrest]
      exact hspells
  · have hopener : Byte.isOperator bracket.opener = false := by cases bracket <;> decide
    have hoperator : readOperator scope state = none := by simp [readOperator, hrest, hopener]
    have hread : readGroupOpening scope state = some (state.enter scope (.group bracket) 1) := by
      simp [readGroupOpening, hrest, Bracket.ofOpener?_opener]
    refine Or.inr ⟨bracket, ?_⟩
    rw [readNext, readersOf_fragment hfragment, findSome?_or, hclosing, findSome?_or, hoperator,
      findSome?_or, hread]
    rfl

/-- The readers of fragments, none of which is asked behind the group but the one that closes. -/
theorem readFragment_fits (hfragment : state.frame.branch.isFragment = true)
    (hspelled : state.view.Spelled) (houter : state.outer ≠ []) :
    state.view.Adds (state.view.Fits nesting) (readNext scope state).view := by
  by_cases hgroup : ∃ bracket, state.frame.pending = some (.branch (.group bracket))
  · obtain ⟨bracket, hpending⟩ := hgroup
    exact closeBranch?_adds (readNext_of_group scope hfragment hpending houter)
  · have hpending : ∀ bracket, state.frame.pending ≠ some (.branch (.group bracket)) :=
      fun bracket heq => hgroup ⟨bracket, heq⟩
    have hspells : Spells state.rest := (hspelled hfragment).resolve_left hgroup
    have hholds : ∀ kind : Kind, (kind.isOperator || kind.isGroup) = true →
        state.frame.branch.holds nesting kind = true :=
      fun kind h => (Branch.holds_of_isFragment hfragment).trans h
    rcases readNext_of_spells scope hfragment hpending hspells with
      ⟨b, hread, -⟩ | ⟨bracket, hread⟩
    · rw [hread]
      exact takeLeaf_adds ⟨hholds _ rfl, nofun, fun _ => hpending⟩ 1
    · rw [hread]
      refine enter_adds ⟨hholds _ rfl, ?_, fun _ => hpending⟩ 1
      rintro _ ⟨⟩ h
      cases h

/-- **A step adds what the schema allows.** -/
theorem readNext_fits (hmade : scope.fragments.Made) (hspelled : state.view.Spelled)
    (houter : state.view.frame.branch.isFragment = true → state.outer ≠ []) :
    state.view.Adds (state.view.Fits scope.dialect.extendedComments)
      (readNext scope state).view := by
  cases hbranch : state.view.frame.branch with
  | root =>
    have hcontext : state.context = .root := congrArg Branch.context hbranch
    rw [readNext, hcontext]
    exact readGroup_fits hmade (congrArg Branch.isFragment hbranch)
      (fun kind => by rw [show state.frame.branch = _ from hbranch]; rfl) rfl
  | group bracket =>
    have hcontext : state.context = .ofBracket bracket := congrArg Branch.context hbranch
    rw [readNext, hcontext]
    cases bracket <;> exact readGroup_fits hmade (congrArg Branch.isFragment hbranch)
      (fun kind => by rw [show state.frame.branch = _ from hbranch]; rfl) rfl
  | quoted quote =>
    have hcontext : state.context = .ofQuote quote := congrArg Branch.context hbranch
    rw [readNext, hcontext]
    cases quote <;> exact readQuoted_fits hmade hbranch rfl
  | url => exact readUrl_fits hmade hbranch
  | comment form =>
    cases form with
    | block => exact readBlock_fits hmade hbranch
    | line => exact readLine_fits hmade hbranch
  | quasi form =>
    have hfragment : state.view.frame.branch.isFragment = true := by rw [hbranch]; rfl
    exact readFragment_fits hfragment hspelled (houter hfragment)
  | annotation form placement =>
    have hfragment : state.view.frame.branch.isFragment = true := by rw [hbranch]; rfl
    exact readFragment_fits hfragment hspelled (houter hfragment)
  | identifier value => exact readIdentifier_fits hbranch
  | hash hash => exact readHash_fits hbranch

/-! ## 5. What holds between steps

The invariant for scans that begin in a root.  It says of every open branch that it stands where the
schema allows it, so that it may be added to the one around it when it closes. -/

/-- Inside a root, every open branch stands where the schema allows it, and a fragment spells its
pattern. -/
structure View.Orderly (nesting : Bool) (view : View) : Prop where
  root : (outermost view.frame view.outer).branch = .root
  chain : (view.frame :: view.outer).IsChain fun inner around =>
    around.branch.holds nesting (.branch inner.branch) = true
  spelled : view.Spelled

namespace View.Orderly

/-- A fragment is not the outermost branch. -/
theorem outer_ne_nil (h : view.Orderly nesting)
    (hfragment : view.frame.branch.isFragment = true) : view.outer ≠ [] := by
  intro houter
  have hroot := h.root
  rw [houter] at hroot
  exact Branch.ne_root_of_isFragment hfragment hroot

/-- What closes inside a fragment is its group. -/
theorem spelled_closed (h : view.Orderly nesting) (scope : Scope) {around : Frame}
    {further : List Frame} (outer : view.outer = around :: further) {branch : Branch}
    (alike : view.frame.branch.Alike branch) (valid : Bool) (n : Nat) :
    ((view.closeBranch branch valid around further).consume scope n).Spelled := by
  intro hclosed
  have hfragment : around.branch.isFragment = true := hclosed
  have hchain := h.chain
  rw [outer, List.isChain_cons_cons] at hchain
  have hgroup := hchain.1
  rw [alike.held_eq, Branch.holds_of_isFragment hfragment] at hgroup
  obtain ⟨bracket, hbracket⟩ := Kind.exists_of_isGroup ((Bool.or_eq_true_iff.mp hgroup).resolve_left
    Bool.false_ne_true)
  exact Or.inl ⟨bracket, congrArg some hbracket⟩

/-- A fragment goes on as its pattern says, and no other branch is one after the step unless it
was opened there. -/
theorem readNext_spelled (h : state.view.Orderly nesting) (ahead : state.rest ≠ [])
    (hadds : state.view.Adds (state.view.Fits nesting) (readNext scope state).view) :
    (readNext scope state).view.Spelled := by
  by_cases hfragment : state.view.frame.branch.isFragment = true
  · have houter := h.outer_ne_nil hfragment
    by_cases hgroup : ∃ bracket, state.view.frame.pending = some (.branch (.group bracket))
    · obtain ⟨bracket, hpending⟩ := hgroup
      obtain ⟨around, further, hopen, hview⟩ :=
        closeBranch?_eq_some (readNext_of_group scope hfragment hpending houter)
      rw [hview]
      exact h.spelled_closed scope hopen (.refl _) true 0
    · have hspells := (h.spelled hfragment).resolve_left hgroup
      have hpending : ∀ bracket, state.view.frame.pending ≠ some (.branch (.group bracket)) :=
        fun bracket heq => hgroup ⟨bracket, heq⟩
      rcases readNext_of_spells scope hfragment hpending hspells with
        ⟨b, hread, hmore⟩ | ⟨bracket, hread⟩
      · rw [hread]
        exact fun _ => Or.inr hmore
      · rw [hread]
        intro hnever
        cases hnever
  · have hstep := readNext_step scope ahead
    generalize (readNext scope state).view = next at hstep hadds ⊢
    cases hstep with
    | leaf _ _ alike _ =>
      intro hleaf
      exact absurd (alike.isFragment_eq.trans hleaf) hfragment
    | grow => exact fun hgrown => absurd hgrown hfragment
    | @opened branch _ _ _ _ _ =>
      intro hopened
      have hspells := (hadds _ _ rfl rfl).spells branch rfl hopened
      refine Or.inr ?_
      have hzero : branch.openerLength = 0 := Branch.openerLength_of_isFragment hopened
      show Spells (state.view.rest.drop branch.openerLength)
      rw [hzero]
      exact hspells
    | closed outer alike => exact h.spelled_closed scope outer alike _ _
    | halted => exact fun hhalted => absurd hhalted hfragment

/-- **Every step keeps a view orderly.** -/
theorem step (h : view.Orderly nesting) (hadds : view.Adds (view.Fits nesting) next)
    (hstep : Step scope view next) (hspelled : next.Spelled) : next.Orderly nesting := by
  refine ⟨hstep.outermost_alike.eq_root_iff.mp h.root, ?_, hspelled⟩
  have hchain := h.chain
  cases hstep with
  | @leaf leaf valid branch n ahead positive alike sound =>
    show List.IsChain _ (_ :: view.outer)
    cases houter : view.outer with
    | nil => exact .singleton _
    | cons around further =>
      rw [houter, List.isChain_cons_cons] at hchain
      exact .cons_cons (alike.held_eq _ ▸ hchain.1) hchain.2
  | grow => exact hchain
  | @opened branch ahead proper fits inside begins =>
    refine .cons_cons (hadds _ _ rfl rfl).held ?_
    cases houter : view.outer with
    | nil => exact .singleton _
    | cons around further =>
      rw [houter, List.isChain_cons_cons] at hchain
      exact .cons_cons hchain.1 hchain.2
  | @closed branch valid n around further outer alike ends complete =>
    rw [outer, List.isChain_cons_cons] at hchain
    show List.IsChain _ (_ :: further)
    cases further with
    | nil => exact .singleton _
    | cons surround beyond =>
      have htail := List.isChain_cons_cons.mp hchain.2
      exact .cons_cons htail.1 htail.2
  | halted => exact hchain

end View.Orderly

/-- At the end of the input a step adds nothing. -/
theorem Step.adds_of_nil (h : Step scope view next) (hrest : view.rest = []) :
    view.Adds P next := by
  cases h with
  | leaf ahead => exact absurd hrest ahead
  | grow ahead => exact absurd hrest ahead
  | opened ahead => exact absurd hrest ahead
  | closed => exact adds_closed rfl
  | halted => exact adds_of_marks rfl

/-- What closes at the end of the input leaves no fragment without its group. -/
theorem View.Orderly.spelled_of_nil (h : view.Orderly nesting) (hstep : Step scope view next)
    (hrest : view.rest = []) : next.Spelled := by
  cases hstep with
  | leaf ahead => exact absurd hrest ahead
  | grow ahead => exact absurd hrest ahead
  | opened ahead => exact absurd hrest ahead
  | closed outer alike => exact h.spelled_closed scope outer alike _ _
  | halted => exact h.spelled

end Scan
end StyleLex
