/-
# Readers do not look far

Two scans that mirror each other, one of which has to stop where `b` begins: does a reader do the
same in both?  Most readers are settled by what they take (section 1 and 2).  The others look
further than they take, and where they look behind the stop the first scan goes inside a branch
from which it does not come out in time (`StyleLex.Proofs.Scan.Inside`).

So one step of the first scan is mirrored by one step of the second one, or the first one never
stands outside of all branches where the second one has to stop (`readNext_agrees`).

For each reader there is one lemma `…_agrees`, in the order in which the readers stand in the source
of the scan.  Its proof is always one of three.  A reader that is settled by what it takes is put
into the form of a reading, and `take_agrees` or `close_agrees` does the rest.  A reader that only
looks at the branch, or at what was read last in it, sees the same in both scans.  And the five
readers that look further (line continuations, escapes, comments in addresses, fragments, names) are
compared by hand: where the two scans see different bytes, the cut is inside the token, and one of
the lemmas about cuts inside a token applies.

The order of the readers matters in one place.  A line continuation and an escape both begin with a
backslash, and they are told apart by the byte behind it, which the second scan may not see.
Readers of continuations are therefore compared under the hypothesis that no escape begins, which
holds because the readers of escapes and identifiers were asked before.
-/
import StyleLex.Proofs.Scan.Inside
import StyleLex.Proofs.Scan.Mirror
import StyleLex.Proofs.Token.Pattern

namespace StyleLex
namespace Scan

variable {scope : Scope} {b : List UInt8} {gauge : Gauge scope b} {old : List Mark} {f g : State}

/-! ## 1. Leaves

A leaf that is taken by a settled reading is the simplest case.  The `…_eq` lemmas put a reader into
the form that `leaf_agrees` is stated for. -/

/-- A leaf that a settled reading takes. -/
theorem leaf_agrees {α : Type} {read : List UInt8 → Option (α × Nat)}
    (hread : Splits read g.rest b) (h : Mirrors gauge old f g) (leaf : α → Leaf) :
    Agree gauge old
      ((read f.rest).map fun found => f.takeLeaf scope (leaf found.1) found.2)
      ((read g.rest).map fun found => g.takeLeaf gauge.scope (leaf found.1) found.2) :=
  take_agrees hread h (fun value state => state.addLeaf (leaf value) true) (fun _ _ => rfl)
    fun value => h.addLeaf (leaf value) true

/-- Blanks, as a reading. -/
theorem readBlank_eq (scope : Scope) (state : State) :
    readBlank scope state =
      (runOf Byte.isBlank state.rest).map fun found => state.takeLeaf scope .blank found.2 := by
  unfold readBlank runOf
  cases state.rest.takeWhile Byte.isBlank <;> rfl

/-- A run of blanks ends with the first byte that is none, or with the stop. -/
theorem readBlank_agrees (h : Mirrors gauge old f g) :
    Agree gauge old (readBlank scope f) (readBlank gauge.scope g) := by
  rw [readBlank_eq, readBlank_eq]
  exact leaf_agrees ((settles_runOf _).split _ _) h fun _ => .blank

/-- The reading of a number is settled, as the module on numbers shows. -/
theorem readNumeral_agrees (h : Mirrors gauge old f g) :
    Agree gauge old (readNumeral scope f) (readNumeral gauge.scope g) :=
  leaf_agrees ((Numeral.settles_read? _).split _ _) h .numeric

/-- A byte of a class, as a reading. -/
theorem readSeparator_eq (scope : Scope) (state : State) :
    readSeparator scope state =
      (headOf (fun b => if Byte.isSeparator b then some b else none) state.rest).map fun found =>
        state.takeLeaf scope (.separator found.1) found.2 := by
  unfold readSeparator headOf
  cases state.rest with
  | nil => rfl
  | cons x rest => cases hx : Byte.isSeparator x <;> simp [hx]

theorem readSeparator_agrees (h : Mirrors gauge old f g) :
    Agree gauge old (readSeparator scope f) (readSeparator gauge.scope g) := by
  rw [readSeparator_eq, readSeparator_eq]
  exact leaf_agrees ((settles_headOf _).split _ _) h .separator

/-- The same for operators. -/
theorem readOperator_eq (scope : Scope) (state : State) :
    readOperator scope state =
      (headOf (fun b => if Byte.isOperator b then some b else none) state.rest).map fun found =>
        state.takeLeaf scope (.operator found.1) found.2 := by
  unfold readOperator headOf
  cases state.rest with
  | nil => rfl
  | cons x rest => cases hx : Byte.isOperator x <;> simp [hx]

theorem readOperator_agrees (h : Mirrors gauge old f g) :
    Agree gauge old (readOperator scope f) (readOperator gauge.scope g) := by
  rw [readOperator_eq, readOperator_eq]
  exact leaf_agrees ((settles_headOf _).split _ _) h .operator

/-- One of two markers, as a reading. -/
def cdxOf (bytes : List UInt8) : Option (CdxMarker × Nat) :=
  (textOf (Utf8.encode CdxMarker.opening.text) CdxMarker.opening bytes).or
    (textOf (Utf8.encode CdxMarker.closing.text) CdxMarker.closing bytes)

/-- The reader of markers, as a reading. -/
theorem readCdx_eq (scope : Scope) (state : State) :
    readCdx scope state =
      (if scope.dialect.standardCdx then cdxOf state.rest else none).map fun found =>
        state.takeLeaf scope (.cdx found.1) found.2 := by
  unfold readCdx cdxOf textOf
  split
  · rw [List.findSome?_cons, List.findSome?_cons, List.findSome?_nil]
    dsimp only
    generalize (Utf8.encode CdxMarker.opening.text).isPrefixOf state.rest = opening
    generalize (Utf8.encode CdxMarker.closing.text).isPrefixOf state.rest = closing
    cases opening <;> cases closing <;> rfl
  · rfl

/-- A marker is there for both scans or is cut. -/
theorem readCdx_agrees (h : Mirrors gauge old f g) :
    Agree gauge old (readCdx scope f) (readCdx gauge.scope g) := by
  rw [readCdx_eq, readCdx_eq]
  have hread : Settles fun bytes => if scope.dialect.standardCdx then cdxOf bytes else none :=
    ((settles_textOf _ _).or (settles_textOf _ _)).guard _
  exact leaf_agrees (hread.split _ _) h .cdx

/-- A run of name bytes, as a reading. -/
theorem readNameRun_eq (scope : Scope) (state : State) :
    readNameRun scope state =
      (runOf Byte.isName state.rest).map fun found => state.takeLeaf scope .raw found.2 := by
  unfold readNameRun runOf
  cases state.rest.takeWhile Byte.isName <;> rfl

theorem readNameRun_agrees (h : Mirrors gauge old f g) :
    Agree gauge old (readNameRun scope f) (readNameRun gauge.scope g) := by
  rw [readNameRun_eq, readNameRun_eq]
  exact leaf_agrees ((settles_runOf _).split _ _) h fun _ => .raw

/-- A line continuation is told from an escape by the byte behind the backslash. -/
theorem readContinuation_agrees (h : Mirrors gauge old f g) (ahead : g.rest ≠ [])
    (hplain : Escape.begins f.rest = false) :
    Agree gauge old (readContinuation scope f) (readContinuation gauge.scope g) := by
  have heq : ∀ (scope : Scope) (state : State), readContinuation scope state =
      (Escape.continuationOf state.rest).map fun found =>
        state.takeLeaf scope (.escape ⟨none⟩) found.2 := by
    intro scope state
    rw [readContinuation, Escape.continuationOf, Option.map_map]
    rfl
  rw [heq, heq]
  rw [h.rest] at hplain
  exact leaf_agrees (Escape.splits_continuationOf ahead hplain) h fun _ => .escape ⟨none⟩

/-- One byte is there for both scans. -/
theorem Mirrors.consume_one (h : Mirrors gauge old f g) (ahead : g.rest ≠ []) :
    Mirrors gauge old (f.consume scope 1) (g.consume gauge.scope 1) :=
  h.consume (Or.inl (List.length_pos_iff.mpr ahead))

/-- Raw text takes a byte whatever it is. -/
theorem readRaw_agrees (h : Mirrors gauge old f g) (ahead : g.rest ≠ []) :
    Agree gauge old (readRaw scope f) (readRaw gauge.scope g) := by
  unfold readRaw
  rw [h.pending]
  split
  · exact .some (h.consume_one ahead)
  · exact .some ((h.addLeaf .raw true).consume_one ahead)

/-- So do unexpected bytes; what is recovered and logged with them is not compared. -/
theorem readUnexpected_agrees (h : Mirrors gauge old f g) (ahead : g.rest ≠ []) :
    Agree gauge old (readUnexpected scope f) (readUnexpected gauge.scope g) := by
  have hafter : Mirrors gauge old
      ((if g.frame.pending == some (.leaf .unexpected) then f
        else f.addLeaf .unexpected false).consume scope 1)
      ((if g.frame.pending == some (.leaf .unexpected) then g
        else g.addLeaf .unexpected false).consume gauge.scope 1) := by
    split
    · exact h.consume_one ahead
    · exact (h.addLeaf .unexpected false).consume_one ahead
  unfold readUnexpected
  dsimp only
  rw [h.rest, head?_append_of_ne_nil ahead, h.pending]
  refine .some ?_
  split
  · exact hafter.recover _ _ _
  · split
    · exact h.consume_one ahead
    · exact ((h.addLeaf .unexpected false).consume_one ahead).recover _ _ _

/-! ## 2. Escapes

An escape looks for its closing brace, or for a hexadecimal digit, and in a dialect with braces the
same backslash begins escapes of different lengths.  Readings of escapes split into the cases of
`Escape.Splits`; only the one where the cut is between the braces needs the scan. -/

/-- What an escape leaves behind is mirrored if the second scan sees it whole. -/
theorem Mirrors.escaped (h : Mirrors gauge old f g) {reading : Escape.Reading}
    (hn : reading.length ≤ g.rest.length ∨ b = []) :
    Mirrors gauge old (f.escaped scope reading) (g.escaped gauge.scope reading) := by
  have hafter := (h.addLeaf (.escape ⟨reading.codepoint⟩) reading.closed).consume hn
  unfold State.escaped
  dsimp only
  split
  · exact hafter
  · exact hafter.recover _ _ _

/-- **An escape is read alike**, or it is cut; if it is cut between its braces, the first brace is
read by itself. -/
theorem escape_agrees (h : Mirrors gauge old f g) {next next' : Escape.Reading → State}
    (hrest : ∀ reading, (next reading).rest = f.rest.drop reading.length)
    (hmirror : ∀ reading, reading.length ≤ g.rest.length ∨ b = [] →
      Mirrors gauge old (next reading) (next' reading))
    (hnext : ∀ reading, Escape.read? scope.dialect f.rest = some reading →
      (next reading).view.Sturdy ∧ (next reading).halted = false ∧
        (next reading).frame.branch.isFragment = false) :
    Agree gauge old ((Escape.read? scope.dialect f.rest).map next)
      ((Escape.read? scope.dialect g.rest).map next') := by
  have hrests := h.rest
  rcases Escape.read?_cut scope.dialect g.rest b with
    ⟨hf, hg⟩ | ⟨reading, hf, ⟨hb, hlt⟩ | ⟨hb, hlength, hbraces⟩ | ⟨hn, hg⟩⟩
  · rw [hrests, hf, hg]
    exact .none
  · rw [hrests, hf]
    refine .never hb (Never.of_lt ?_)
    have hpos : 0 < b.length := List.length_pos_iff.mpr hb
    rw [hrest, hrests, List.length_drop, List.length_append]
    omega
  · rw [← hrests] at hf
    obtain ⟨hsturdy, hrun, hfragment⟩ := hnext reading hf
    rw [hf]
    refine .never hb (Never.of_brace hb hsturdy hrun hfragment ?_)
    rw [hrest, hrests, hbraces, hlength]
    rfl
  · rw [hrests, hf, hg]
    exact .some (hmirror reading hn)

/-- In a string, an address or an identifier. -/
theorem readEscape_agrees (h : Mirrors gauge old f g) (hsturdy : f.view.Sturdy)
    (hrun : f.halted = false) (hfragment : f.frame.branch.isFragment = false) :
    Agree gauge old (readEscape scope f) (readEscape gauge.scope g) := by
  show Agree gauge old ((Escape.read? scope.dialect f.rest).map (f.escaped scope))
    ((Escape.read? scope.dialect g.rest).map (g.escaped gauge.scope))
  refine escape_agrees h ?_ (fun _ hn => h.escaped hn) ?_
  · intro reading
    exact congrArg View.rest (view_escaped scope f reading)
  · intro reading hread
    have hstep : Step scope f.view (f.escaped scope reading).view :=
      readEscape_step (by rw [readEscape, hread]; rfl)
    have hview := view_escaped scope f reading
    refine ⟨hsturdy.step (Or.inl hrun) hstep, (congrArg View.halted hview).trans hrun, ?_⟩
    rw [show (f.escaped scope reading).frame = _ from congrArg View.frame hview]
    exact hfragment

/-- In a hash, which also gathers what the escape means. -/
theorem readHashEscape_agrees (h : Mirrors gauge old f g) (hsturdy : f.view.Sturdy)
    (hrun : f.halted = false) {hash : Hash} (hbranch : f.frame.branch = .hash hash) :
    Agree gauge old (readHashEscape scope f) (readHashEscape gauge.scope g) := by
  rw [readHashEscape_eq, readHashEscape_eq]
  refine escape_agrees h ?_ (fun reading hn => (h.escaped hn).mapHash _) ?_
  · intro reading
    rw [(rest_mapHash _ _).1]
    exact congrArg View.rest (view_escaped scope f reading)
  · intro reading hread
    have hview : ((f.escaped scope reading).mapHash (Hash.escaped reading)).view = _ :=
      view_hashLeaf hbranch (view_escaped scope f reading)
    have hstep :
        Step scope f.view ((f.escaped scope reading).mapHash (Hash.escaped reading)).view := by
      rw [hview]
      exact (HashStep.escape hread).step hbranch
    refine ⟨hsturdy.step (Or.inl hrun) hstep, ?_, ?_⟩
    · exact (congrArg View.halted hview).trans hrun
    · rw [show State.frame _ = _ from congrArg View.frame hview]
      rfl

/-! ## 3. Branches

Openers and closers are texts of one, two or four bytes, which either are there for both scans or
are cut.  What a closer completes is the same branch in both. -/

/-- A branch whose opener a settled reading takes. -/
theorem enter_agrees {α : Type} {read : List UInt8 → Option (α × Nat)}
    (hread : Splits read g.rest b) (h : Mirrors gauge old f g) (branch : α → Branch) :
    Agree gauge old
      ((read f.rest).map fun found => f.enter scope (branch found.1) found.2)
      ((read g.rest).map fun found => g.enter gauge.scope (branch found.1) found.2) :=
  take_agrees hread h (fun value state => state.openBranch (branch value)) (fun _ _ => rfl)
    fun value => h.openBranch (branch value)

/-- The opener of a group is one byte. -/
theorem readGroupOpening_agrees (h : Mirrors gauge old f g) :
    Agree gauge old (readGroupOpening scope f) (readGroupOpening gauge.scope g) := by
  have heq : ∀ (scope : Scope) (state : State), readGroupOpening scope state =
      (headOf Bracket.ofOpener? state.rest).map fun found =>
        state.enter scope (.group found.1) found.2 := by
    intro scope state
    unfold readGroupOpening headOf
    cases state.rest with
    | nil => rfl
    | cons x rest =>
      dsimp only
      cases Bracket.ofOpener? x <;> rfl
  rw [heq, heq]
  exact enter_agrees ((settles_headOf _).split _ _) h .group

/-- So is a quote. -/
theorem readQuotedOpening_agrees (h : Mirrors gauge old f g) :
    Agree gauge old (readQuotedOpening scope f) (readQuotedOpening gauge.scope g) := by
  have heq : ∀ (scope : Scope) (state : State), readQuotedOpening scope state =
      (headOf (fun b => (Quote.ofByte? b).filter fun quote =>
        !(quote = .backtick && !scope.dialect.extendedStrings)) state.rest).map fun found =>
          state.enter scope (.quoted found.1) found.2 := by
    intro scope state
    unfold readQuotedOpening headOf
    cases state.rest with
    | nil => rfl
    | cons x rest =>
      dsimp only
      cases Quote.ofByte? x with
      | none => rfl
      | some quote => cases quote <;> cases scope.dialect.extendedStrings <;> rfl
  rw [heq, heq]
  exact enter_agrees ((settles_headOf _).split _ _) h .quoted

/-- The marker of a block comment is two bytes long; the dialect decides whether it is looked for.
-/
theorem readBlockOpening_agrees (h : Mirrors gauge old f g) :
    Agree gauge old (readBlockOpening scope f) (readBlockOpening gauge.scope g) := by
  have heq : ∀ (scope : Scope) (state : State), readBlockOpening scope state =
      (if state.context != .block || scope.dialect.extendedComments then
        textOf [Byte.slash, Byte.asterisk] () state.rest else none).map fun found =>
          state.enter scope (.comment .block) found.2 := by
    intro scope state
    unfold readBlockOpening textOf facingPair
    generalize (state.context != .block || scope.dialect.extendedComments) = allowed
    generalize List.isPrefixOf _ state.rest = facing
    cases allowed <;> cases facing <;> rfl
  rw [heq, heq, h.context]
  have hread : Settles fun bytes =>
      if g.context != .block || scope.dialect.extendedComments then
        textOf [Byte.slash, Byte.asterisk] () bytes else none := (settles_textOf _ _).guard _
  exact enter_agrees (hread.split _ _) h fun _ => .comment .block

/-- So is that of a line comment. -/
theorem readLineOpening_agrees (h : Mirrors gauge old f g) :
    Agree gauge old (readLineOpening scope f) (readLineOpening gauge.scope g) := by
  have heq : ∀ (scope : Scope) (state : State), readLineOpening scope state =
      (if scope.dialect.extendedComments then
        textOf [Byte.slash, Byte.slash] () state.rest else none).map fun found =>
          state.enter scope (.comment .line) found.2 := by
    intro scope state
    unfold readLineOpening textOf facingPair
    generalize List.isPrefixOf _ state.rest = facing
    cases scope.dialect.extendedComments <;> cases facing <;> rfl
  rw [heq, heq]
  have hread : Settles fun bytes => if scope.dialect.extendedComments then
      textOf [Byte.slash, Byte.slash] () bytes else none := (settles_textOf _ _).guard _
  exact enter_agrees (hread.split _ _) h fun _ => .comment .line

/-- The two are tried one after the other. -/
theorem readCommentOpening_agrees (h : Mirrors gauge old f g) :
    Agree gauge old (readCommentOpening scope f) (readCommentOpening gauge.scope g) := by
  unfold readCommentOpening
  simp only [Option.orElse_eq_orElse, Option.orElse_eq_or]
  exact (readBlockOpening_agrees h).findSome fun _ => readLineOpening_agrees h

/-- The beginning of an address, as a reading. -/
def urlOf (bytes : List UInt8) : Option (Unit × Nat) :=
  if beginsUrl bytes then some ((), 4) else none

/-- Four bytes settle whether an address begins. -/
theorem settles_urlOf : Settles urlOf where
  some := by
    intro a b value n hread hn
    unfold urlOf at hread ⊢
    split at hread
    · rename_i hbegins
      cases hread
      match a, hn with
      | u :: r :: l :: parenthesis :: rest, _ => exact if_pos hbegins
    · cases hread
  none := by
    intro a b hread
    unfold urlOf at hread ⊢
    split at hread
    · cases hread
    · rename_i hbegins
      rw [if_neg]
      intro ha
      have hlength := beginsUrl_length ha
      match a, hlength with
      | u :: r :: l :: parenthesis :: rest, _ => exact hbegins ha

theorem readUrlOpening_agrees (h : Mirrors gauge old f g) :
    Agree gauge old (readUrlOpening scope f) (readUrlOpening gauge.scope g) := by
  have heq : ∀ (scope : Scope) (state : State), readUrlOpening scope state =
      (if scope.dialect.standardUrls then urlOf state.rest else none).map fun found =>
        state.enter scope .url found.2 := by
    intro scope state
    unfold readUrlOpening urlOf
    cases scope.dialect.standardUrls <;> cases beginsUrl state.rest <;> rfl
  rw [heq, heq]
  have hread : Settles fun bytes => if scope.dialect.standardUrls then urlOf bytes else none :=
    settles_urlOf.guard _
  exact enter_agrees (hread.split _ _) h fun _ => .url

/-- What opens a comment. -/
theorem readCommentOpening_eq_some {state after : State}
    (h : readCommentOpening scope state = some after) :
    ∃ form, after = state.enter scope (.comment form) 2 := by
  unfold readCommentOpening at h
  simp only [Option.orElse_eq_orElse, Option.orElse_eq_or] at h
  rcases Option.or_eq_some_iff.mp h with h | ⟨-, h⟩
  · unfold readBlockOpening at h
    split at h
    · cases h
      exact ⟨_, rfl⟩
    · cases h
  · unfold readLineOpening at h
    split at h
    · cases h
      exact ⟨_, rfl⟩
    · cases h

/-- A comment in an address is told by the byte behind its marker. -/
theorem readUrlComment_agrees (h : Mirrors gauge old f g) (hsturdy : f.view.Sturdy)
    (hrun : f.halted = false) :
    Agree gauge old (readUrlComment scope f) (readUrlComment gauge.scope g) := by
  -- a comment in an address needs a byte behind its marker that the second scan may not see
  by_cases hseen : 2 < g.rest.length ∨ b = []
  · have hhead : (f.rest.drop 2).head? = (g.rest.drop 2).head? := by
      rw [h.rest]
      rcases hseen with hlt | rfl
      · have hdrop : g.rest.drop 2 ≠ [] :=
          List.ne_nil_of_length_pos (by rw [List.length_drop]; omega)
        rw [drop_append_of_le (Nat.le_of_lt hlt), head?_append_of_ne_nil hdrop]
      · rw [List.append_nil]
    unfold readUrlComment
    rw [hhead]
    split
    · exact readCommentOpening_agrees h
    · exact .none
  obtain ⟨hle, hb⟩ := not_or.mp hseen
  have hcut : readUrlComment gauge.scope g = none := by
    rw [readUrlComment, List.drop_eq_nil_of_le (Nat.le_of_not_lt hle)]
    rfl
  rw [hcut]
  cases hread : readUrlComment scope f with
  | none => exact .none
  | some after =>
    have hready := (hsturdy.step (Or.inl hrun) (readUrlComment_step hread)).ready
    unfold readUrlComment at hread
    split at hread
    · obtain ⟨form, rfl⟩ := readCommentOpening_eq_some hread
      refine .never hb ?_
      rcases Nat.lt_or_ge g.rest.length 2 with hlt | hge
      · exact Never.of_lt (by
          have hpos : 0 < b.length := List.length_pos_iff.mpr hb
          show (f.rest.drop 2).length < b.length
          rw [h.rest, List.length_drop, List.length_append]
          omega)
      · -- the stop is right behind the marker, and the comment is open there
        refine Never.of_barred hb hready
          (Or.inr ⟨?_, Or.inl (Walled.of_frame (List.cons_ne_nil _ _) rfl)⟩)
        show f.rest.drop 2 = b
        rw [h.rest, List.drop_left' (by omega)]
    · cases hread

/-- A delimiter of one byte, as a reading. -/
theorem leave_eq (scope : Scope) (x : UInt8) (state : State) :
    (if facing x state then state.leave? scope 1 else none) =
      (textOf [x] () state.rest).bind fun found =>
        (state.closeBranch? true).map (State.consume scope found.2) := by
  have hfacing : facing x state = List.isPrefixOf [x] state.rest := by
    rw [Bool.eq_iff_iff, facing_iff, List.isPrefixOf_iff_prefix]
  unfold textOf
  rw [hfacing]
  generalize List.isPrefixOf [x] state.rest = facing
  cases facing <;> rfl

theorem readGroupClosing_agrees (h : Mirrors gauge old f g) :
    Agree gauge old (readGroupClosing scope f) (readGroupClosing gauge.scope g) := by
  unfold readGroupClosing
  rw [h.branch]
  split
  · rename_i bracket hbranch
    rw [leave_eq, leave_eq]
    exact close_agrees ((settles_textOf _ _).split _ _) h true
  · exact .none

theorem readUrlClosing_agrees (h : Mirrors gauge old f g) :
    Agree gauge old (readUrlClosing scope f) (readUrlClosing gauge.scope g) := by
  unfold readUrlClosing
  rw [leave_eq, leave_eq]
  exact close_agrees ((settles_textOf _ _).split _ _) h true

theorem readBlockClosing_agrees (h : Mirrors gauge old f g) :
    Agree gauge old (readBlockClosing scope f) (readBlockClosing gauge.scope g) := by
  have heq : ∀ (scope : Scope) (state : State), readBlockClosing scope state =
      (textOf [Byte.asterisk, Byte.slash] () state.rest).bind fun found =>
        (state.closeBranch? true).map (State.consume scope found.2) := by
    intro scope state
    unfold readBlockClosing textOf facingPair
    generalize List.isPrefixOf _ state.rest = facing
    cases facing <;> rfl
  rw [heq, heq]
  exact close_agrees ((settles_textOf _ _).split _ _) h true

/-- A line break may be cut between its two bytes, but then the first scan takes a byte of `b`. -/
theorem readLineClosing_agrees (h : Mirrors gauge old f g) :
    Agree gauge old (readLineClosing scope f) (readLineClosing gauge.scope g) := by
  have heq : ∀ (scope : Scope) (state : State), readLineClosing scope state =
      (newlineOf state.rest).bind fun found =>
        (state.closeBranch? true).map (State.consume scope found.2) := by
    intro scope state
    unfold readLineClosing newlineOf
    cases Escape.newlineLength? state.rest <;> rfl
  rw [heq, heq]
  exact close_agrees (settles_newlineOf.split _ _) h true

/-- The same line breaks cut strings off. -/
theorem readStringBreak_agrees (h : Mirrors gauge old f g) :
    Agree gauge old (readStringBreak scope f) (readStringBreak gauge.scope g) := by
  have heq : ∀ (scope : Scope) (state : State), readStringBreak scope state =
      (if scope.dialect.extendedStrings = false then newlineOf state.rest else none).bind
        fun found => ((state.recoverBranch .brokenString).closeBranch? false).map
          (State.consume scope found.2) := by
    intro scope state
    unfold readStringBreak newlineOf
    cases scope.dialect.extendedStrings
    · cases Escape.newlineLength? state.rest <;> rfl
    · rfl
  rw [heq, heq]
  have hread : Settles fun bytes =>
      if scope.dialect.extendedStrings = false then newlineOf bytes else none :=
    settles_newlineOf.guard _
  exact close_agrees (hread.split _ _) (h.recover .brokenString _ _) false

/-- A quote, or what cuts the string off. -/
theorem readQuotedClosing_agrees (h : Mirrors gauge old f g) (ahead : g.rest ≠ []) :
    Agree gauge old (readQuotedClosing scope f) (readQuotedClosing gauge.scope g) := by
  have houter : f.outer.isEmpty = g.outer.isEmpty := by
    rw [Bool.eq_iff_iff, List.isEmpty_iff, List.isEmpty_iff, h.outer_eq_nil]
  unfold readQuotedClosing
  rw [h.branch, houter]
  split
  · rename_i quote hbranch
    split
    · exact .none
    · have hfacing : facing quote.byte f = facing quote.byte g := by
        rw [facing, facing, h.rest, head?_append_of_ne_nil ahead]
      have hleave : Agree gauge old _ _ := close_agrees
        ((settles_textOf [quote.byte] ()).split g.rest b) h true
      rw [← leave_eq, ← leave_eq, hfacing] at hleave
      rw [hfacing]
      split
      · rename_i hquote
        rw [if_pos hquote, if_pos hquote] at hleave
        exact hleave
      · exact readStringBreak_agrees h
  · exact .none

/-! ## 4. Fragments

Fragments are the reason for most of the work on cuts: their patterns are given by the caller and
may have any number of operators.  The forms are tried in the order in which they were given, so
both scans have to find the same one. -/

/-- The first of some forms that stands here opens a fragment.  A form that the second scan sees
only a part of begins with operators, and no more than that stands before the stop. -/
theorem fragment_agrees {α : Type} (h : Mirrors gauge old f g) (hsturdy : f.view.Sturdy)
    (hrun : f.halted = false) (ahead : g.rest ≠ []) (hwide : f.frame.branch.isNarrow = false)
    (forms : List α) (pattern : α → List UInt8) (branch : α → Branch)
    (hmade : ∀ form ∈ forms, IsPattern (pattern form))
    (hfragment : ∀ form, (branch form).isFragment = true) :
    Agree gauge old
      ((forms.find? fun form => (pattern form).isPrefixOf f.rest).map
        fun form => f.openBranch (branch form))
      ((forms.find? fun form => (pattern form).isPrefixOf g.rest).map
        fun form => g.openBranch (branch form)) := by
  have hback : ∀ form, (pattern form).isPrefixOf g.rest = true →
      (pattern form).isPrefixOf f.rest = true := by
    intro form hform
    rw [List.isPrefixOf_iff_prefix] at hform ⊢
    rw [h.rest]
    exact hform.trans (List.prefix_append _ _)
  induction forms with
  | nil => exact .none
  | cons form forms ih =>
    rw [List.find?_cons, List.find?_cons]
    -- what stands before the stop stands there for the first scan as well, but not the other way
    -- round
    cases hf : (pattern form).isPrefixOf f.rest with
    | false =>
      have hg : (pattern form).isPrefixOf g.rest = false :=
        Bool.eq_false_iff.mpr fun hg => Bool.false_ne_true (hf ▸ hback form hg)
      rw [hg]
      exact ih fun other hin => hmade other (List.mem_cons_of_mem _ hin)
    | true =>
      cases hg : (pattern form).isPrefixOf g.rest with
      | true => exact .some (h.openBranch (branch form))
      | false =>
        -- the pattern reaches behind the stop, so what is before the stop is a part of its
        -- operators
        have hfront := List.isPrefixOf_iff_prefix.mp hf
        rw [h.rest] at hfront
        have hlt : g.rest.length < (pattern form).length := by
          refine Nat.lt_of_not_le fun hle => Bool.false_ne_true ?_
          rw [← hg, List.isPrefixOf_iff_prefix]
          exact List.prefix_of_prefix_length_le hfront (List.prefix_append _ _) hle
        have hb : b ≠ [] := by
          rintro rfl
          rw [List.append_nil] at hfront
          exact absurd hfront.length_le (Nat.not_le_of_lt hlt)
        have hcut : g.rest <+: pattern form :=
          List.prefix_of_prefix_length_le (List.prefix_append _ _) hfront (Nat.le_of_lt hlt)
        have hoperators := (hmade form List.mem_cons_self).operators hcut hlt
        have hopened : Step scope f.view (f.openBranch (branch form)).view := by
          refine openBranch_step ?_ (Branch.ne_root_of_isFragment (hfragment form))
            (Branch.openerLength_of_isFragment (hfragment form)) hwide ?_
          · rw [h.rest]
            exact List.append_ne_nil_of_left_ne_nil ahead b
          · rw [Branch.isName_of_isFragment (hfragment form)]
            simp
        exact .never hb (Never.of_operators hb g.rest (hsturdy.step (Or.inl hrun) hopened) hrun
          (List.cons_ne_nil _ _) (hfragment form) (fun _ h => by cases h) h.rest hoperators)

/-- The forms of the context are those of the scope, in both scans. -/
theorem readQuasiOpening_agrees (h : Mirrors gauge old f g) (hsturdy : f.view.Sturdy)
    (hrun : f.halted = false) (ahead : g.rest ≠ []) (hwide : f.frame.branch.isNarrow = false)
    (hmade : scope.fragments.Made) :
    Agree gauge old (readQuasiOpening scope f) (readQuasiOpening gauge.scope g) := by
  unfold readQuasiOpening
  rw [h.context]
  exact fragment_agrees h hsturdy hrun ahead hwide _ QuasiForm.pattern
    (fun form => .quasi form.form)
    (fun form hin => isPattern_of_patternOf (hmade.quasi _ form hin)) fun _ => rfl

/-- Annotations are fragments of another sort. -/
theorem readAnnotationOpening_agrees (h : Mirrors gauge old f g) (hsturdy : f.view.Sturdy)
    (hrun : f.halted = false) (ahead : g.rest ≠ []) (hwide : f.frame.branch.isNarrow = false)
    (hmade : scope.fragments.Made) :
    Agree gauge old (readAnnotationOpening scope f) (readAnnotationOpening gauge.scope g) :=
  fragment_agrees h hsturdy hrun ahead hwide _ AnnotationForm.pattern
    (fun form => Branch.annotation form.form form.placement)
    (fun form hin => isPattern_of_patternOf (hmade.annotations form hin)) fun _ => rfl

/-- A fragment closes by what was read last in it, which is the same in both scans. -/
theorem readFragmentClosing_agrees (h : Mirrors gauge old f g) :
    Agree gauge old (readFragmentClosing scope f) (readFragmentClosing gauge.scope g) := by
  unfold readFragmentClosing
  rw [h.pending]
  split
  · rcases closeBranch_agrees h true with ⟨hf, hg⟩ | ⟨f', g', hf, hg, hclosed, -⟩
    · rw [hf, hg]
      exact .none
    · rw [hf, hg]
      exact .some hclosed
  · exact .none

/-! ## 5. Names

A name is opened before its text, so its readers look ahead by one, two or three bytes.  Where the
second scan does not see enough of them, it reads something else: a hyphen alone is an operator, and
a backslash alone continues a line that ends with the input. -/

/-- An identifier that begins before the stop begins there with the bytes behind it, too. -/
theorem beginsIdentifier_append {a : List UInt8} (h : beginsIdentifier a = true)
    (b : List UInt8) : beginsIdentifier (a ++ b) = true := by
  cases a with
  | nil => cases h
  | cons x rest =>
    rw [List.cons_append]
    rw [beginsIdentifier] at h ⊢
    split
    · rename_i hx
      rw [if_pos hx, Bool.or_eq_true] at h
      rw [Bool.or_eq_true]
      rcases h with h | h
      · refine Or.inl ?_
        cases rest with
        | nil => cases h
        | cons y further => exact h
      · exact Or.inr (Escape.begins_append h b)
    · rename_i hx
      rw [if_neg hx, Bool.or_eq_true] at h
      rw [Bool.or_eq_true, ← List.cons_append]
      exact h.imp id fun h => Escape.begins_append h b

/-- An identifier that the bytes behind the stop begin begins with a hyphen, a backslash, or
both. -/
theorem beginsIdentifier_cut {a : List UInt8} (ha : a ≠ [])
    (h : beginsIdentifier (a ++ b) = true) (hcut : beginsIdentifier a = false) :
    (a = [Byte.hyphen] ∧ NameAhead b) ∨
      (a = [Byte.backslash] ∧ Escape.begins (Byte.backslash :: b) = true) ∨
      (a = [Byte.hyphen, Byte.backslash] ∧ Escape.begins (Byte.backslash :: b) = true) := by
  obtain ⟨x, rest, rfl⟩ := List.exists_cons_of_ne_nil ha
  rw [beginsIdentifier] at hcut
  rw [List.cons_append, beginsIdentifier] at h
  split at h
  · rename_i hx
    obtain rfl : x = Byte.hyphen := by simpa using hx
    rw [if_pos hx, Bool.or_eq_false_iff] at hcut
    rw [Bool.or_eq_true] at h
    cases rest with
    | nil => exact Or.inl ⟨rfl, h⟩
    | cons y further =>
      rcases h with h | h
      · exact absurd (hcut.1.symm.trans h) Bool.false_ne_true
      · have hy := Escape.begins_cut (List.cons_ne_nil y further) h hcut.2
        rw [hy] at h ⊢
        exact Or.inr (Or.inr ⟨rfl, h⟩)
  · rename_i hx
    rw [if_neg hx, Bool.or_eq_false_iff] at hcut
    rw [Bool.or_eq_true] at h
    rcases h with h | h
    · exact absurd (hcut.1.symm.trans h) Bool.false_ne_true
    · have hx := Escape.begins_cut (List.cons_ne_nil x rest) h hcut.2
      rw [← List.cons_append, hx] at h
      exact Or.inr (Or.inl ⟨hx, h⟩)

/-- Identifiers begin alike, or the first scan opens one that goes on at the stop. -/
theorem readIdentifierOpening_agrees (h : Mirrors gauge old f g) (hsturdy : f.view.Sturdy)
    (hrun : f.halted = false) (ahead : g.rest ≠ []) (hwide : f.frame.branch.isNarrow = false) :
    Agree gauge old (readIdentifierOpening scope f) (readIdentifierOpening gauge.scope g) := by
  unfold readIdentifierOpening
  cases hf : beginsIdentifier f.rest with
  | false =>
    have hg : beginsIdentifier g.rest = false := by
      refine Bool.eq_false_iff.mpr fun hg => Bool.false_ne_true ?_
      rw [← hf, h.rest]
      exact beginsIdentifier_append hg b
    rw [hg]
    exact .none
  | true =>
    cases hg : beginsIdentifier g.rest with
    | true => exact .some (h.openBranch _)
    | false =>
      have hrest := h.rest
      have hopened : Step scope f.view (f.openBranch (.identifier "")).view := by
        refine openBranch_step ?_ (by simp) rfl hwide fun _ => nameAhead_of_beginsIdentifier hf
        rw [hrest]
        exact List.append_ne_nil_of_left_ne_nil ahead b
      have hsturdy' := hsturdy.step (Or.inl hrun) hopened
      rw [hrest] at hf
      have hb : b ≠ [] := by
        rintro rfl
        rw [List.append_nil, hg] at hf
        cases hf
      refine .never hb ?_
      rcases beginsIdentifier_cut ahead hf hg with ⟨ha, htext⟩ | ⟨ha, htext⟩ | ⟨ha, htext⟩
      · exact Never.of_hyphen hb hsturdy' hrun rfl (List.cons_ne_nil _ _)
          (hrest.trans (by rw [ha]; rfl)) htext
      · exact Never.of_escape hb rfl (hrest.trans (by rw [ha]; rfl)) htext
      · exact Never.of_hyphen_escape hb rfl (hrest.trans (by rw [ha]; rfl)) htext

theorem readIdentifierClosing_agrees (h : Mirrors gauge old f g) :
    Agree gauge old (readIdentifierClosing scope f) (readIdentifierClosing gauge.scope g) := by
  unfold readIdentifierClosing
  rcases closeBranch_agrees h true with ⟨hf, hg⟩ | ⟨f', g', hf, hg, hclosed, -⟩
  · rw [hf, hg]
    exact .some h.halt
  · rw [hf, hg]
    exact .some hclosed

/-- What begins a hash is settled by two bytes, or by three if the second one is a backslash. -/
theorem begin?_cut {a : List UInt8} (ha : a ≠ []) :
    Hash.begin? (a ++ b) = Hash.begin? a ∨
      ∃ hash, Hash.begin? (a ++ b) = some hash ∧ b ≠ [] ∧
        ((a = [Byte.hash] ∧ NameAhead b) ∨
          (a = [Byte.hash, Byte.backslash] ∧ Escape.begins (Byte.backslash :: b) = true)) := by
  obtain ⟨x, rest, rfl⟩ := List.exists_cons_of_ne_nil ha
  by_cases hx : x = Byte.hash
  · subst hx
    cases rest with
    | nil =>
      cases hf : Hash.begin? ([Byte.hash] ++ b) with
      | none => exact Or.inl rfl
      | some hash =>
        refine Or.inr ⟨hash, rfl, ?_, Or.inl ⟨rfl, nameAhead_of_begin? hf⟩⟩
        rintro rfl
        cases hf
    | cons y further =>
      have hcons : ∀ further, Hash.begin? (Byte.hash :: y :: further) =
          if Byte.isName y then
            some { isName := Byte.isNameStart y
                   color := if Byte.isHexadecimal y then .unchecked else .invalid }
          else if Escape.begins (y :: further) then some { isName := true } else none :=
        fun _ => rfl
      rw [List.cons_append, List.cons_append, hcons, hcons]
      cases hy : Byte.isName y with
      | true => exact Or.inl rfl
      | false =>
        cases hf : Escape.begins (y :: (further ++ b)) with
        | false =>
          have hg : Escape.begins (y :: further) = false := by
            refine Bool.eq_false_iff.mpr fun hg => Bool.false_ne_true ?_
            rw [← hf]
            exact Escape.begins_append hg b
          rw [hg]
          exact Or.inl rfl
        | true =>
          -- an escape begins only with the bytes behind the stop if the backslash is the last byte
          -- before it
          cases hg : Escape.begins (y :: further) with
          | true => exact Or.inl rfl
          | false =>
            have hcut := Escape.begins_cut (List.cons_ne_nil y further) hf hg
            have hb : b ≠ [] := by
              rintro rfl
              rw [List.append_nil, hg] at hf
              cases hf
            rw [← List.cons_append, hcut] at hf
            exact Or.inr ⟨{ isName := true }, rfl, hb, Or.inr ⟨by rw [hcut], hf⟩⟩
  · have hnone : ∀ further, Hash.begin? (x :: further) = none := by
      intro further
      rw [Hash.begin?, if_neg]
      simpa using hx
    exact Or.inl ((hnone _).trans (hnone _).symm)

/-- Hashes begin alike, or the first scan opens one that goes on at the stop. -/
theorem readHashOpening_agrees (h : Mirrors gauge old f g) (hsturdy : f.view.Sturdy)
    (hrun : f.halted = false) (ahead : g.rest ≠ []) (hwide : f.frame.branch.isNarrow = false) :
    Agree gauge old (readHashOpening scope f) (readHashOpening gauge.scope g) := by
  have hrest := h.rest
  rcases begin?_cut (b := b) ahead with heq | ⟨hash, hf, hb, hcut⟩
  · rw [readHashOpening, readHashOpening, hrest, heq]
    cases Hash.begin? g.rest with
    | none => exact .none
    | some hash => exact .some ((h.openBranch (.hash hash)).consume_one ahead)
  · have hread : readHashOpening scope f = some (f.enter scope (.hash hash) 1) := by
      rw [readHashOpening, hrest, hf]
      rfl
    have hsturdy' := hsturdy.step (Or.inl hrun) (readHashOpening_step hwide hread)
    have hnext : (f.enter scope (.hash hash) 1).rest = (g.rest ++ b).drop 1 :=
      congrArg (List.drop 1) hrest
    rw [hread]
    refine .never hb ?_
    rcases hcut with ⟨ha, htext⟩ | ⟨ha, htext⟩
    · rw [ha] at hnext
      exact Never.of_name_ahead hb hsturdy' rfl (List.cons_ne_nil _ _) hnext htext
    · rw [ha] at hnext
      exact Never.of_escape hb rfl hnext htext

/-- What a hash has gathered does not hang on where the scan stands. -/
theorem mapHash_consume (scope : Scope) (n : Nat) (change : Hash → Hash) (state : State) :
    (state.consume scope n).mapHash change = (state.mapHash change).consume scope n := by
  obtain ⟨rest, position, ⟨branch, start, pending⟩, outer, depth, halted, deepest, marks,
    recoveries⟩ := state
  cases branch <;> rfl

/-- A run of a hash is taken alike, and gathered alike. -/
theorem readHashRun_agrees (h : Mirrors gauge old f g) :
    Agree gauge old (readHashRun scope f) (readHashRun gauge.scope g) := by
  have heq : ∀ (scope : Scope) (state : State), readHashRun scope state =
      (runOf Byte.isName state.rest).map fun found =>
        ((state.addLeaf .raw true).mapHash fun hash =>
          found.1.foldl Hash.accumulate hash).consume scope found.2 := by
    intro scope state
    rw [readHashRun, readNameRun_eq, Option.map_map]
    unfold runOf
    cases state.rest.takeWhile Byte.isName with
    | nil => rfl
    | cons x run => exact congrArg some (mapHash_consume _ _ _ _)
  rw [heq, heq]
  exact take_agrees ((settles_runOf _).split _ _) h
    (fun run state => (state.addLeaf .raw true).mapHash fun hash => run.foldl Hash.accumulate hash)
    (fun _ _ => (rest_mapHash _ _).1) fun _ => (h.addLeaf .raw true).mapHash _

/-- Closing a branch is the same in both scans. -/
theorem Mirrors.close (h : Mirrors gauge old f g) (valid : Bool) :
    (f.closeBranch? valid = none ∧ g.closeBranch? valid = none) ∨
      ∃ f' g', f.closeBranch? valid = some f' ∧ g.closeBranch? valid = some g' ∧
        Mirrors gauge old f' g' := by
  rcases closeBranch_agrees h valid with hnone | ⟨f', g', hf, hg, hclosed, -⟩
  · exact Or.inl hnone
  · exact Or.inr ⟨f', g', hf, hg, hclosed⟩

/-- Settling a color is, too. -/
theorem closeHash_agrees (h : Mirrors gauge old f g) :
    (f.closeHash? = none ∧ g.closeHash? = none) ∨
      ∃ f' g', f.closeHash? = some f' ∧ g.closeHash? = some g' ∧ Mirrors gauge old f' g' := by
  unfold State.closeHash?
  rw [h.branch]
  split
  · dsimp only
    split
    · exact (h.mapHash _).close _
    · exact ((h.mapHash _).recover _ _ _).close _
  · exact h.close _

/-- Hashes settle to the same color, for they have gathered the same. -/
theorem readHashClosing_agrees (h : Mirrors gauge old f g) :
    Agree gauge old (readHashClosing scope f) (readHashClosing gauge.scope g) := by
  unfold readHashClosing
  rcases closeHash_agrees h with ⟨hf, hg⟩ | ⟨f', g', hf, hg, hclosed⟩
  · rw [hf, hg]
    exact .some h.halt
  · rw [hf, hg]
    exact .some hclosed

/-! ## 6. One step

It remains to ask the readers in their order.  `Agree.findSome` needs the next reader to agree
only where those before it declined, and this is where line continuations get their hypothesis. -/

/-- Where no identifier begins, no escape does. -/
theorem not_begins_of_readIdentifierOpening {state : State}
    (h : readIdentifierOpening scope state = none) : Escape.begins state.rest = false := by
  refine Bool.eq_false_iff.mpr fun hbegins => ?_
  obtain ⟨next, further, hrest, -⟩ := Escape.begins_iff.mp hbegins
  have hidentifier : beginsIdentifier state.rest = true := by
    rw [hrest] at hbegins ⊢
    rw [beginsIdentifier, if_neg (by decide), hbegins, Bool.or_true]
  rw [readIdentifierOpening, if_pos hidentifier] at h
  cases h

/-- Where no escape is read, none begins. -/
theorem not_begins_of_readEscape {state : State} (h : readEscape scope state = none) :
    Escape.begins state.rest = false := by
  rw [← Escape.isSome_read? scope.dialect, Option.map_eq_none_iff.mp h]
  rfl

section Step

variable (hmade : scope.fragments.Made) (h : Mirrors gauge old f g) (hsturdy : f.view.Sturdy)
  (hrun : f.halted = false) (ahead : g.rest ≠ [])

include hmade h hsturdy hrun ahead

/-- The readers of the root and of groups. -/
theorem readers_group_agree (hwide : f.frame.branch.isNarrow = false) :
    Agree gauge old ((readersOf .root).findSome? fun reader => reader scope f)
      ((readersOf .root).findSome? fun reader => reader gauge.scope g) := by
  simp only [readersOf, findSome?_or]
  refine (readBlank_agrees h).findSome fun _ => ?_
  refine (readNumeral_agrees h).findSome fun _ => ?_
  refine (readUrlOpening_agrees h).findSome fun _ => ?_
  refine (readCommentOpening_agrees h).findSome fun _ => ?_
  refine (readCdx_agrees h).findSome fun _ => ?_
  refine (readQuasiOpening_agrees h hsturdy hrun ahead hwide hmade).findSome fun _ => ?_
  refine (readAnnotationOpening_agrees h hsturdy hrun ahead hwide hmade).findSome fun _ => ?_
  refine (readIdentifierOpening_agrees h hsturdy hrun ahead hwide).findSome fun hidentifier => ?_
  refine (readHashOpening_agrees h hsturdy hrun ahead hwide).findSome fun _ => ?_
  refine (readQuotedOpening_agrees h).findSome fun _ => ?_
  refine (readSeparator_agrees h).findSome fun _ => ?_
  refine (readOperator_agrees h).findSome fun _ => ?_
  refine (readGroupOpening_agrees h).findSome fun _ => ?_
  refine (readGroupClosing_agrees h).findSome fun _ => ?_
  have hplain := not_begins_of_readIdentifierOpening hidentifier
  refine (readContinuation_agrees h ahead hplain).findSome fun _ => ?_
  exact (readUnexpected_agrees h ahead).findSome fun _ => .none

/-- The readers of strings. -/
theorem readers_quoted_agree (hwide : f.frame.branch.isNarrow = false) :
    Agree gauge old ((readersOf .double).findSome? fun reader => reader scope f)
      ((readersOf .double).findSome? fun reader => reader gauge.scope g) := by
  have hfragment : f.frame.branch.isFragment = false := (Bool.or_eq_false_iff.mp hwide).2
  simp only [readersOf, findSome?_or]
  refine (readEscape_agrees h hsturdy hrun hfragment).findSome fun hescape => ?_
  have hplain := not_begins_of_readEscape hescape
  refine (readContinuation_agrees h ahead hplain).findSome fun _ => ?_
  refine (readQuasiOpening_agrees h hsturdy hrun ahead hwide hmade).findSome fun _ => ?_
  refine (readQuotedClosing_agrees h ahead).findSome fun _ => ?_
  exact (readRaw_agrees h ahead).findSome fun _ => .none

/-- The readers of addresses. -/
theorem readers_url_agree (hwide : f.frame.branch.isNarrow = false) :
    Agree gauge old ((readersOf .url).findSome? fun reader => reader scope f)
      ((readersOf .url).findSome? fun reader => reader gauge.scope g) := by
  have hfragment : f.frame.branch.isFragment = false := (Bool.or_eq_false_iff.mp hwide).2
  simp only [readersOf, findSome?_or]
  refine (readEscape_agrees h hsturdy hrun hfragment).findSome fun hescape => ?_
  have hplain := not_begins_of_readEscape hescape
  refine (readContinuation_agrees h ahead hplain).findSome fun _ => ?_
  refine (readBlank_agrees h).findSome fun _ => ?_
  refine (readUrlComment_agrees h hsturdy hrun).findSome fun _ => ?_
  refine (readQuotedOpening_agrees h).findSome fun _ => ?_
  refine (readQuasiOpening_agrees h hsturdy hrun ahead hwide hmade).findSome fun _ => ?_
  refine (readUrlClosing_agrees h).findSome fun _ => ?_
  exact (readRaw_agrees h ahead).findSome fun _ => .none

/-- The readers of block comments. -/
theorem readers_block_agree (hwide : f.frame.branch.isNarrow = false) :
    Agree gauge old ((readersOf .block).findSome? fun reader => reader scope f)
      ((readersOf .block).findSome? fun reader => reader gauge.scope g) := by
  simp only [readersOf, findSome?_or]
  refine (readBlockOpening_agrees h).findSome fun _ => ?_
  refine (readBlockClosing_agrees h).findSome fun _ => ?_
  refine (readQuasiOpening_agrees h hsturdy hrun ahead hwide hmade).findSome fun _ => ?_
  exact (readRaw_agrees h ahead).findSome fun _ => .none

/-- The readers of line comments. -/
theorem readers_line_agree (hwide : f.frame.branch.isNarrow = false) :
    Agree gauge old ((readersOf .line).findSome? fun reader => reader scope f)
      ((readersOf .line).findSome? fun reader => reader gauge.scope g) := by
  simp only [readersOf, findSome?_or]
  refine (readQuasiOpening_agrees h hsturdy hrun ahead hwide hmade).findSome fun _ => ?_
  refine (readLineClosing_agrees h).findSome fun _ => ?_
  exact (readRaw_agrees h ahead).findSome fun _ => .none

omit hmade hsturdy hrun in
/-- The readers of fragments, which decline nothing by what is behind the stop. -/
theorem readers_fragment_agree :
    Agree gauge old ((readersOf .quasi).findSome? fun reader => reader scope f)
      ((readersOf .quasi).findSome? fun reader => reader gauge.scope g) := by
  simp only [readersOf, findSome?_or]
  refine (readFragmentClosing_agrees h).findSome fun _ => ?_
  refine (readOperator_agrees h).findSome fun _ => ?_
  refine (readGroupOpening_agrees h).findSome fun _ => ?_
  exact (readUnexpected_agrees h ahead).findSome fun _ => .none

omit hmade ahead in
/-- The readers of identifiers. -/
theorem readers_identifier_agree {value : String} (hbranch : f.frame.branch = .identifier value) :
    Agree gauge old ((readersOf .identifier).findSome? fun reader => reader scope f)
      ((readersOf .identifier).findSome? fun reader => reader gauge.scope g) := by
  simp only [readersOf, findSome?_or]
  refine (readEscape_agrees h hsturdy hrun (by rw [hbranch]; rfl)).findSome fun _ => ?_
  refine (readNameRun_agrees h).findSome fun _ => ?_
  exact (readIdentifierClosing_agrees h).findSome fun _ => .none

omit hmade ahead in
/-- The readers of hashes. -/
theorem readers_hash_agree {hash : Hash} (hbranch : f.frame.branch = .hash hash) :
    Agree gauge old ((readersOf .hash).findSome? fun reader => reader scope f)
      ((readersOf .hash).findSome? fun reader => reader gauge.scope g) := by
  simp only [readersOf, findSome?_or]
  refine (readHashEscape_agrees h hsturdy hrun hbranch).findSome fun _ => ?_
  refine (readHashRun_agrees h).findSome fun _ => ?_
  exact (readHashClosing_agrees h).findSome fun _ => .none

/-- The readers of any context. -/
theorem readers_agree :
    Agree gauge old ((readersOf f.context).findSome? fun reader => reader scope f)
      ((readersOf g.context).findSome? fun reader => reader gauge.scope g) := by
  rw [← h.context, State.context]
  cases hbranch : f.frame.branch with
  | root => exact readers_group_agree hmade h hsturdy hrun ahead (by rw [hbranch]; rfl)
  | group bracket =>
    cases bracket <;>
      exact readers_group_agree hmade h hsturdy hrun ahead (by rw [hbranch]; rfl)
  | quoted quote =>
    cases quote <;>
      exact readers_quoted_agree hmade h hsturdy hrun ahead (by rw [hbranch]; rfl)
  | url => exact readers_url_agree hmade h hsturdy hrun ahead (by rw [hbranch]; rfl)
  | comment form =>
    cases form with
    | block => exact readers_block_agree hmade h hsturdy hrun ahead (by rw [hbranch]; rfl)
    | line => exact readers_line_agree hmade h hsturdy hrun ahead (by rw [hbranch]; rfl)
  | quasi form => exact readers_fragment_agree h ahead
  | annotation form placement => exact readers_fragment_agree h ahead
  | identifier value => exact readers_identifier_agree h hsturdy hrun hbranch
  | hash hash => exact readers_hash_agree h hsturdy hrun hbranch

/-- **One step of the first scan is mirrored by one of the second**, or the first one goes where it
never stands outside of all branches with `b` left. -/
theorem readNext_agrees :
    (b ≠ [] ∧ Never scope b (readNext scope f)) ∨
      Mirrors gauge old (readNext scope f) (readNext gauge.scope g) := by
  have hreaders := readers_agree hmade h hsturdy hrun ahead
  unfold readNext
  generalize (readersOf f.context).findSome? (fun reader => reader scope f) = next at hreaders
  generalize (readersOf g.context).findSome? (fun reader => reader gauge.scope g) = next'
    at hreaders
  cases hreaders with
  | none => exact Or.inr h
  | never hb hnever => exact Or.inl ⟨hb, hnever⟩
  | some hmirror => exact Or.inr hmirror

end Step

end Scan
end StyleLex
