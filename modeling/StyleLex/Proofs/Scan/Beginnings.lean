/-
# What stands where a branch begins

A branch is opened where the bytes ahead say so: a bracket, a quote, the marker of a comment, the
letters of an address, the pattern of a form, or what begins a name (`Branch.Begins`).  Every reader
that opens a branch makes sure of it (`readNext_begins_branch`), so it holds of every branch of a
source at its place (`Lexer.items_begun`).

From the tree alone one can thus tell why a branch is there: the bytes at its beginning are those
that its reader asks for.  With the readers that come before it in the list, this is one half of
saying when a branch is opened; the other half, that it is opened wherever it begins, is true for
few branches only, and is shown where it is needed.
-/
import StyleLex.Proofs.Scan.Hashing
import StyleLex.Proofs.Scan.Opened

namespace StyleLex

open Scan

/-! ## 1. Beginnings

`Branch.Begins` is stated by cases of the branch, in the terms in which the readers ask.  A backtick
begins a string only in some dialects. -/

/-- What is ahead where a branch begins.  No reader opens a root. -/
def Branch.Begins (dialect : Dialect) : Branch → List UInt8 → Prop
  | root, _ => False
  | group bracket, ahead => ahead.head? = some bracket.opener
  | quoted quote, ahead =>
    ahead.head? = some quote.byte ∧ (quote = .backtick → dialect.extendedStrings = true)
  | url, ahead => beginsUrl ahead = true
  | comment .block, ahead => [Byte.slash, Byte.asterisk] <+: ahead
  | comment .line, ahead => [Byte.slash, Byte.slash] <+: ahead
  | quasi _, ahead => Spells ahead
  | annotation _ _, ahead => Spells ahead
  | identifier _, ahead => beginsIdentifier ahead = true
  | hash _, ahead => ahead.head? = some Byte.hash

/-- Every branch was opened where it begins. -/
def Branch.beginning (dialect : Dialect) (input : List UInt8) : OpeningRule :=
  fun _ place branch => branch.Begins dialect (input.drop place)

/-- What a hash has gathered is not asked for where it begins. -/
theorem Branch.beginning_steady (dialect : Dialect) (input : List UInt8) :
    (beginning dialect input).Steady := by
  refine ⟨fun {around around' branch branch' place} _ hbranch h => ?_⟩
  cases hbranch with
  | refl => exact h
  | hash => exact h

/-! ## 2. Readers

For each reader that opens a branch there is a lemma `…_begins`; the other readers open none. -/

namespace Scan

variable {scope : Scope} {state after : State}

/-- A branch that is opened begins here. -/
def View.Begins (dialect : Dialect) (view next : View) : Prop :=
  view.Adds (fun kind => ∀ branch, kind = .branch branch → branch.Begins dialect view.rest) next

/-- Opening a branch with its opener … -/
theorem enter_begins (branch : Branch) (h : branch.Begins scope.dialect state.rest) (n : Nat) :
    state.view.Begins scope.dialect (state.enter scope branch n).view :=
  enter_adds (by rintro _ ⟨⟩; exact h) n

/-- … and without. -/
theorem openBranch_begins (branch : Branch) (h : branch.Begins scope.dialect state.rest) :
    state.view.Begins scope.dialect (state.openBranch branch).view :=
  openBranch_adds (by rintro _ ⟨⟩; exact h)

theorem readGroupOpening_begins (h : readGroupOpening scope state = some after) :
    state.view.Begins scope.dialect after.view := by
  unfold readGroupOpening at h
  split at h
  · rename_i b tail hrest
    obtain ⟨bracket, hbracket, rfl⟩ := Option.map_eq_some_iff.mp h
    have hhead : state.rest.head? = some bracket.opener := by
      rw [hrest, Bracket.opener_of_ofOpener? hbracket]
      rfl
    exact enter_begins (.group bracket) hhead 1
  · cases h

/-- A byte that is a quote is the byte of it. -/
theorem byte_of_ofByte? {b : UInt8} {quote : Quote} (h : Quote.ofByte? b = some quote) :
    quote.byte = b := by
  unfold Quote.ofByte? at h
  split at h
  · rename_i hb
    cases h
    exact (beq_iff_eq.mp hb).symm
  · split at h
    · rename_i hb
      cases h
      exact (beq_iff_eq.mp hb).symm
    · split at h
      · rename_i hb
        cases h
        exact (beq_iff_eq.mp hb).symm
      · cases h

theorem readQuotedOpening_begins (h : readQuotedOpening scope state = some after) :
    state.view.Begins scope.dialect after.view := by
  unfold readQuotedOpening at h
  split at h
  · rename_i b tail hrest
    split at h
    · rename_i quote hquote
      split at h
      · cases h
      · rename_i hallowed
        cases h
        refine enter_begins (.quoted quote) ⟨?_, ?_⟩ 1
        · rw [hrest, byte_of_ofByte? hquote]
          rfl
        · rintro rfl
          simpa using hallowed
    · cases h
  · cases h

theorem readUrlOpening_begins (h : readUrlOpening scope state = some after) :
    state.view.Begins scope.dialect after.view := by
  unfold readUrlOpening at h
  split at h
  · rename_i hbegins
    cases h
    exact enter_begins .url (Bool.and_eq_true_iff.mp hbegins).2 4
  · cases h

theorem readBlockOpening_begins (h : readBlockOpening scope state = some after) :
    state.view.Begins scope.dialect after.view := by
  unfold readBlockOpening at h
  split at h
  · rename_i hopens
    cases h
    exact enter_begins (.comment .block)
      (facingPair_iff.mp (Bool.and_eq_true_iff.mp hopens).1) 2
  · cases h

theorem readCommentOpening_begins (h : readCommentOpening scope state = some after) :
    state.view.Begins scope.dialect after.view := by
  unfold readCommentOpening at h
  simp only [Option.orElse_eq_orElse, Option.orElse_eq_or] at h
  rcases Option.or_eq_some_iff.mp h with h | ⟨-, h⟩
  · exact readBlockOpening_begins h
  · unfold readLineOpening at h
    split at h
    · rename_i hopens
      cases h
      exact enter_begins (.comment .line)
        (facingPair_iff.mp (Bool.and_eq_true_iff.mp hopens).2) 2
    · cases h

theorem readUrlComment_begins (h : readUrlComment scope state = some after) :
    state.view.Begins scope.dialect after.view := by
  unfold readUrlComment at h
  split at h
  · exact readCommentOpening_begins h
  · cases h

theorem readIdentifierOpening_begins (h : readIdentifierOpening scope state = some after) :
    state.view.Begins scope.dialect after.view := by
  unfold readIdentifierOpening at h
  split at h
  · rename_i hbegins
    cases h
    exact openBranch_begins (.identifier "") hbegins
  · cases h

/-- A hash begins with its sign. -/
theorem head?_of_begin? {ahead : List UInt8} {hash : Hash} (h : Hash.begin? ahead = some hash) :
    ahead.head? = some Byte.hash := by
  cases ahead with
  | nil => cases h
  | cons b tail =>
    rw [Hash.begin?] at h
    split at h
    · rename_i hb
      rw [List.head?_cons, beq_iff_eq.mp hb]
    · cases h

/-- **A branch is opened where it begins.** -/
theorem readNext_begins_branch (scope : Scope) (hmade : scope.fragments.Made) :
    state.view.Begins scope.dialect (readNext scope state).view := by
  have hleaf : ∀ leaf : Leaf, ∀ branch, Kind.leaf leaf = .branch branch →
      branch.Begins scope.dialect state.view.rest := by
    intro leaf branch hbranch
    cases hbranch
  refine readNext_of_readers (P := fun after => state.view.Begins scope.dialect after.view)
    (adds_of_marks rfl) ?_
  simp only [readers, List.forall_mem_cons]
  exact ⟨fun _ => readBlank_adds (hleaf _), fun _ => readNumeral_adds fun _ => hleaf _,
    fun _ => readCdx_adds fun _ => hleaf _, fun _ => readSeparator_adds fun _ => hleaf _,
    fun _ => readOperator_adds fun _ => hleaf _, fun _ => readEscape_adds fun _ => hleaf _,
    fun _ => readContinuation_adds (hleaf _), fun _ => readRaw_adds (hleaf _),
    fun _ => readUnexpected_adds (hleaf _), fun _ => readGroupOpening_begins,
    fun _ => readGroupClosing_adds, fun _ => readQuotedOpening_begins,
    fun _ => readQuotedClosing_adds, fun _ => readUrlOpening_begins, fun _ => readUrlClosing_adds,
    fun _ => readCommentOpening_begins, fun _ => readUrlComment_begins,
    fun _ => readBlockOpening_begins, fun _ => readBlockClosing_adds,
    fun _ => readLineClosing_adds,
    fun _ => readQuasiOpening_adds hmade (by rintro _ hspells _ ⟨⟩; exact hspells),
    fun _ => readAnnotationOpening_adds hmade (by rintro _ _ hspells _ ⟨⟩; exact hspells),
    fun _ => readFragmentClosing_adds,
    fun _ => readIdentifierOpening_begins, fun _ => readIdentifierClosing_adds,
    fun _ => readNameRun_adds (hleaf _),
    fun _ => readHashOpening_adds (by rintro _ hbegin _ ⟨⟩; exact head?_of_begin? hbegin),
    fun _ => readHashEscape_adds fun _ => hleaf _, fun _ => readHashRun_adds (hleaf _),
    fun _ => readHashClosing_adds_none, List.forall_mem_nil _⟩

end Scan

/-! ## 3. Whole scans

The rule does not speak of the branch around. -/

/-- **Every branch of a source stands where it begins.** -/
theorem Lexer.items_begun (lexer : Lexer) (hmade : lexer.fragments.Made) (bytes : Array UInt8) :
    ∀ item ∈ lexer.items { bytes := bytes },
      Item.Obeys (Branch.beginning lexer.dialect bytes.toList) .root item := by
  refine lexer.items_opened bytes (Branch.beginning_steady _ _) fun state hrest _ => ?_
  have hbegins : state.view.Begins lexer.dialect _ :=
    readNext_begins_branch (lexer.scope { bytes := bytes }) hmade
  intro mark kind hmarks hkind branch hbranch
  have hplace : branch.Begins lexer.dialect state.rest :=
    hbegins mark kind hmarks hkind branch hbranch
  rw [hrest] at hplace
  exact hplace

end StyleLex
