/-
# What is left to the last reader

In a root, a group, a string, an address and a comment the last reader takes whatever is ahead, byte
by byte: as raw text, or as unexpected.  It is reached only where every reader before it declines,
and `Branch.Leaves` says what the bytes ahead are then.  In a root and in groups the classes of
bytes leave few (`Byte.isOdd_of_declined`); elsewhere what ends the branch, or begins something in
it, is not left.

So every byte of such a leaf is a byte that its branch leaves (`Lexer.items_leave`): the readers
before the last one leave no leaf behind that grows (`Settles`), and hence a turn after which one
is pending was a turn of the last reader (`readNext_leaves`).

The conditions of `Branch.Leaves` are those of the readers before the last one, turned around, and
only as far as later modules need them.  For instance it is not said that no interpolation stands in
raw text, since whether one does is decided by the forms that the caller has defined.

That the branch has another one around it is a hypothesis of all these results: the caller's own
branch cannot be closed by the scan, so in it even a closer would be left over.
-/
import StyleLex.Proofs.Scan.Taking
import StyleLex.Proofs.Token.Settled

namespace StyleLex

/-! ## 1. What a branch leaves

A root and a group leave what belongs to no class of bytes.  `Branch.isStray` adds the two things
that depend on the branch and on the dialect: a closer may be the branch's own, and a backtick may
be a quote. -/

/-- Raw and unexpected bytes join a leaf of their kind. -/
def Kind.grows : Kind → Bool
  | .leaf .raw | .leaf .unexpected => true
  | _ => false

/-- A control that is no blank, a backtick, or a closing bracket. -/
def Byte.isOdd (b : UInt8) : Bool :=
  (isControl b && !isBlank b) || b == backtick || isCloser b

/-- The odd bytes one by one, as ranges. -/
theorem Byte.isOdd_cases {b : UInt8} (h : isOdd b = true) :
    b < space ∨ b = delete ∨ b = backtick ∨
      b = rightParenthesis ∨ b = rightBracket ∨ b = rightBrace := by
  grind [isOdd, isControl, isCloser]

/-- A byte of no other class is odd. -/
theorem Byte.isOdd_of_declined {b : UInt8} (hblank : isBlank b = false)
    (hdecimal : isDecimal b = false) (hname : (isNameStart b && b != hyphen) = false)
    (hbackslash : b ≠ backslash) (hquote : isQuote b = false) (hseparator : isSeparator b = false)
    (hoperator : isOperator b = false) (hopener : isOpener b = false) : isOdd b = true := by
  grind [isBlank, isWhitespace, isNewline, isDecimal, isNameStart, isLetter, isUppercase,
    isLowercase, isNonAscii, isQuote, isSeparator, isOperator, isOpener, isOdd, isControl, isCloser]

/-- No digit is a sign. -/
theorem Byte.not_isSign_of_isDecimal {b : UInt8} (h : isDecimal b = true) : isSign b = false := by
  grind [isDecimal, isSign]

namespace Escape

/-- Whether a line break is ahead is decided by the first byte. -/
theorem isSome_newlineLength? (b : UInt8) (tail : List UInt8) :
    (newlineLength? (b :: tail)).isSome = Byte.isNewline b := by
  rw [newlineLength?]
  split
  · rename_i hreturn
    obtain rfl : b = Byte.carriageReturn := by simpa using (Bool.and_eq_true_iff.mp hreturn).1
    rfl
  · cases Byte.isNewline b <;> rfl

/-- A backslash begins an escape, or continues a line. -/
theorem begins_or_continues (tail : List UInt8) :
    begins (Byte.backslash :: tail) = true ∨
      (continuationLength? (Byte.backslash :: tail)).isSome = true := by
  cases tail with
  | nil => exact Or.inr rfl
  | cons c more =>
    cases hnewline : Byte.isNewline c with
    | false => exact Or.inl (by simp [begins, hnewline])
    | true => exact Or.inr (by simp [continuationLength?, isSome_newlineLength?, hnewline])

end Escape

namespace Branch

/-- A byte that begins nothing in a root or in a group: an odd one, but a backtick only where it
begins no string, and a closing bracket only if it is not the branch's own. -/
def isStray (dialect : Dialect) (branch : Branch) (b : UInt8) : Bool :=
  Byte.isOdd b && (b != Byte.backtick || !dialect.extendedStrings) && branch.closer? != some [b]

/-- Roots and groups. -/
def IsOuter (branch : Branch) : Prop := branch = root ∨ ∃ bracket, branch = group bracket

/-- Only roots and groups hold what is unexpected. -/
theorem isOuter_of_holds {branch : Branch} {nesting : Bool}
    (h : branch.holds nesting (.leaf .unexpected) = true) : branch.IsOuter := by
  cases branch with
  | root => exact Or.inl rfl
  | group bracket => exact Or.inr ⟨bracket, rfl⟩
  | comment form => cases form <;> cases h
  | _ => cases h

/-- Strings, addresses and comments: the branches that go on until something ends them. -/
def isText : Branch → Bool
  | quoted _ | url | comment _ => true
  | _ => false

/-- The value of a name does not make it a text. -/
theorem isText_withValue (value : String) (branch : Branch) :
    (Tree.withValue value branch).isText = branch.isText := by
  cases branch <;> rfl

/-- The bytes ahead are left to the last reader of the branch, which takes the first of them.
Names and fragments have no such reader. -/
def Leaves (dialect : Dialect) (branch : Branch) (ahead : List UInt8) : Prop :=
  match branch with
  | root | group _ => ∀ b ∈ ahead.head?, branch.isStray dialect b = true
  | quoted quote => ∀ b ∈ ahead.head?, b ≠ quote.byte ∧ b ≠ Byte.backslash ∧
      (dialect.extendedStrings = false → Byte.isNewline b = false)
  | url => ∀ b ∈ ahead.head?, b ≠ Byte.rightParenthesis ∧ b ≠ Byte.backslash ∧
      Byte.isBlank b = false ∧ Byte.isQuote b = false ∧
        (dialect.extendedStrings = true → b ≠ Byte.backtick)
  | comment .block => ¬ [Byte.asterisk, Byte.slash] <+: ahead ∧
      (dialect.extendedComments = true → ¬ [Byte.slash, Byte.asterisk] <+: ahead)
  | comment .line => ∀ b ∈ ahead.head?, Byte.isNewline b = false
  | _ => True

/-- Of names and fragments nothing is said. -/
theorem leaves_of_isNarrow {dialect : Dialect} {branch : Branch} (h : branch.isNarrow = true)
    (ahead : List UInt8) : branch.Leaves dialect ahead := by
  cases branch with
  | comment form => cases h
  | quasi | annotation | identifier | hash => trivial
  | _ => cases h

/-- What a hash has gathered does not matter. -/
theorem Alike.leaves {a b : Branch} (h : a.Alike b) {dialect : Dialect} {ahead : List UInt8}
    (ha : a.Leaves dialect ahead) : b.Leaves dialect ahead := by
  cases h with
  | refl => exact ha
  | hash => trivial

end Branch

/-! ## 2. The readers before the last one

Of the readers before the last one it is enough to know what is pending behind them: a leaf that
does not grow, or a branch, or nothing.  The lemmas of `Settles` follow the ways in which readers
are written, so that each reader needs a line. -/

namespace Scan

variable {scope : Scope} {state after : State}

/-- A reader that accepts leaves no leaf behind that grows. -/
def Settles (next : Option State) : Prop :=
  ∀ after, next = some after → after.frame.pending.any Kind.grows = false

namespace Settles

variable {next other : Option State}

/-- A reader that declines leaves nothing. -/
theorem none : Settles none := fun _ h => by cases h

/-- One that accepts is looked at where it ends. -/
theorem some (h : after.frame.pending.any Kind.grows = false) : Settles (.some after) := by
  rintro _ ⟨⟩
  exact h

/-- A reader that asks a question first. -/
theorem ite {p : Prop} [Decidable p] (hnext : Settles next) (hother : Settles other) :
    Settles (if p then next else other) := by
  split
  · exact hnext
  · exact hother

/-- A reader that takes what a reading found. -/
theorem map {α : Type} {found : Option α} {go : α → State}
    (h : ∀ x, (go x).frame.pending.any Kind.grows = false) : Settles (found.map go) := by
  intro after hafter
  obtain ⟨x, -, rfl⟩ := Option.map_eq_some_iff.mp hafter
  exact h x

/-- A reader that tries two things. -/
theorem or (hnext : Settles next) (hother : Settles other) : Settles (next.or other) := by
  intro after hafter
  rcases Option.or_eq_some_iff.mp hafter with h | ⟨-, h⟩
  · exact hnext after h
  · exact hother after h

/-- Behind a branch that is complete, the branch is pending. -/
theorem close (valid : Bool) (n : Nat) (state : State) :
    Settles ((state.closeBranch? valid).map (State.consume scope n)) := by
  unfold State.closeBranch?
  split
  · exact none
  · exact some rfl

end Settles

/-- Leaves of the other kinds do not grow. -/
theorem readBlank_settles : Settles (readBlank scope state) := by
  unfold readBlank
  split
  · exact .none
  · exact .some rfl

theorem readNumeral_settles : Settles (readNumeral scope state) := .map fun _ => rfl

theorem readSeparator_settles : Settles (readSeparator scope state) := by
  unfold readSeparator
  split
  · exact .ite (.some rfl) .none
  · exact .none

theorem readOperator_settles : Settles (readOperator scope state) := by
  unfold readOperator
  split
  · exact .ite (.some rfl) .none
  · exact .none

theorem readCdx_settles : Settles (readCdx scope state) := by
  refine .ite ?_ .none
  intro after h
  obtain ⟨marker, -, hmarker⟩ := List.exists_of_findSome?_eq_some h
  exact Settles.ite (.some rfl) .none after hmarker

theorem readEscape_settles : Settles (readEscape scope state) :=
  .map fun reading => by
    dsimp only
    split <;> rfl

theorem readContinuation_settles : Settles (readContinuation scope state) := .map fun _ => rfl

/-- Behind an opener nothing is pending. -/
theorem readGroupOpening_settles : Settles (readGroupOpening scope state) := by
  unfold readGroupOpening
  split
  · exact .map fun _ => rfl
  · exact .none

/-- Behind a closer the branch that it closed is. -/
theorem readGroupClosing_settles : Settles (readGroupClosing scope state) := by
  unfold readGroupClosing
  split
  · exact .ite (.close true 1 state) .none
  · exact .none

theorem readQuotedOpening_settles : Settles (readQuotedOpening scope state) := by
  unfold readQuotedOpening
  split
  · split
    · exact .ite .none (.some rfl)
    · exact .none
  · exact .none

theorem readQuotedClosing_settles : Settles (readQuotedClosing scope state) := by
  unfold readQuotedClosing
  split
  · refine .ite .none (.ite (.close true 1 state) (.ite .none ?_))
    split
    · exact .close false _ _
    · exact .none
  · exact .none

theorem readUrlOpening_settles : Settles (readUrlOpening scope state) := .ite (.some rfl) .none

theorem readUrlClosing_settles : Settles (readUrlClosing scope state) :=
  .ite (.close true 1 state) .none

theorem readBlockOpening_settles : Settles (readBlockOpening scope state) :=
  .ite (.some rfl) .none

theorem readCommentOpening_settles : Settles (readCommentOpening scope state) := by
  unfold readCommentOpening
  simp only [Option.orElse_eq_orElse, Option.orElse_eq_or]
  exact .or readBlockOpening_settles (.ite (.some rfl) .none)

theorem readUrlComment_settles : Settles (readUrlComment scope state) :=
  .ite readCommentOpening_settles .none

theorem readBlockClosing_settles : Settles (readBlockClosing scope state) :=
  .ite (.close true 2 state) .none

theorem readLineClosing_settles : Settles (readLineClosing scope state) := by
  unfold readLineClosing
  split
  · exact .close true _ state
  · exact .none

theorem readQuasiOpening_settles : Settles (readQuasiOpening scope state) := .map fun _ => rfl

theorem readAnnotationOpening_settles : Settles (readAnnotationOpening scope state) :=
  .map fun _ => rfl

theorem readIdentifierOpening_settles : Settles (readIdentifierOpening scope state) :=
  .ite (.some rfl) .none

theorem readHashOpening_settles : Settles (readHashOpening scope state) := .map fun _ => rfl

/-! ## 3. Where they decline

If a reader declines, its condition does not hold of the bytes ahead.  There is a lemma `not_…` for
each condition that a branch needs, and `isStray_of_declined` puts those of a root or a group
together. -/

variable {b : UInt8} {tail : List UInt8}

/-- A branch inside another one can be left. -/
theorem leave?_ne_none (houter : state.outer ≠ []) (n : Nat) : state.leave? scope n ≠ none :=
  fun hnone => houter (closeBranch?_eq_none (Option.map_eq_none_iff.mp hnone))

/-- The first byte ahead is what the scan faces. -/
theorem facing_of_rest (hrest : state.rest = b :: tail) : facing b state = true :=
  facing_iff.mpr ⟨tail, hrest.symm⟩

/-- A blank would have been read. -/
theorem not_blank (hrest : state.rest = b :: tail) (h : readBlank scope state = none) :
    Byte.isBlank b = false := by
  rw [Bool.eq_false_iff]
  intro hblank
  simp [readBlank, hrest, hblank] at h

/-- A digit begins a numeral. -/
theorem not_decimal (hrest : state.rest = b :: tail) (h : readNumeral scope state = none) :
    Byte.isDecimal b = false := by
  rw [Bool.eq_false_iff]
  intro hdecimal
  have hread : ∀ extended, (Numeral.readDecimal? extended (b :: tail)).isSome = true := by
    intro extended
    simp [Numeral.readDecimal?, Numeral.readSign, Byte.not_isSign_of_isDecimal hdecimal,
      Numeral.beginsWith, hdecimal]
  rw [readNumeral, hrest, Option.map_eq_none_iff, Numeral.read?] at h
  split at h
  · simp only [Option.orElse_eq_orElse, Option.orElse_eq_or, Option.or_eq_none_iff] at h
    have hdeclined := hread scope.dialect.extendedNumbers
    simp [h] at hdeclined
  · have hdeclined := hread scope.dialect.extendedNumbers
    simp [h] at hdeclined

/-- A backslash that begins no escape continues a line, so one would have been read in either case.
-/
theorem not_backslash (hrest : state.rest = b :: tail)
    (hbegins : Escape.begins state.rest = false) (h : readContinuation scope state = none) :
    b ≠ Byte.backslash := by
  rintro rfl
  rw [readContinuation, Option.map_eq_none_iff, hrest] at h
  rw [hrest] at hbegins
  rcases Escape.begins_or_continues tail with hescape | hcontinues
  · simp [hbegins] at hescape
  · simp [h] at hcontinues

/-- An escape would have been read. -/
theorem not_begins (h : readEscape scope state = none) : Escape.begins state.rest = false := by
  rw [readEscape, Option.map_eq_none_iff] at h
  rw [← Escape.isSome_read? scope.dialect, h]
  rfl

/-- A quote would have opened a string. -/
theorem not_quote (hrest : state.rest = b :: tail) (h : readQuotedOpening scope state = none) :
    Byte.isQuote b = false ∧ (scope.dialect.extendedStrings = true → b ≠ Byte.backtick) := by
  have hopens : ∀ quote : Quote, b = quote.byte →
      quote = .backtick ∧ scope.dialect.extendedStrings = false := by
    rintro quote rfl
    simp only [readQuotedOpening, hrest, Quote.ofByte?_byte] at h
    split at h
    · rename_i hbacktick
      simpa using hbacktick
    · cases h
  refine ⟨Bool.eq_false_iff.mpr fun hquote => ?_, fun henabled hb => ?_⟩
  · rcases Bool.or_eq_true_iff.mp hquote with hb | hb
    · cases (hopens .double (beq_iff_eq.mp hb)).1
    · cases (hopens .single (beq_iff_eq.mp hb)).1
  · rw [(hopens .backtick hb).2] at henabled
    cases henabled

/-- A line break has a length. -/
theorem not_newline (hrest : state.rest = b :: tail)
    (h : Escape.newlineLength? state.rest = none) : Byte.isNewline b = false := by
  rw [← Escape.isSome_newlineLength? b tail, ← hrest, h]
  rfl

/-- A byte that begins an identifier, if it is no hyphen. -/
theorem not_nameStart (hrest : state.rest = b :: tail)
    (h : readIdentifierOpening scope state = none) :
    (Byte.isNameStart b && b != Byte.hyphen) = false ∧
      (b ≠ Byte.hyphen → Escape.begins state.rest = false) := by
  have hbegins : beginsIdentifier state.rest = false := by
    rw [readIdentifierOpening] at h
    split at h
    · cases h
    · rename_i hnot
      exact Bool.eq_false_iff.mpr hnot
  rw [hrest, beginsIdentifier] at hbegins
  split at hbegins
  · rename_i hb
    obtain rfl : b = Byte.hyphen := by simpa using hb
    exact ⟨by simp, fun hne => absurd rfl hne⟩
  · obtain ⟨hname, hescape⟩ := Bool.or_eq_false_iff.mp hbegins
    exact ⟨by rw [hname, Bool.false_and], fun _ => hrest ▸ hescape⟩

/-- The closer of a group would have closed it. -/
theorem not_closer {bracket : Bracket} (hbranch : state.frame.branch = .group bracket)
    (houter : state.outer ≠ []) (hrest : state.rest = b :: tail)
    (h : readGroupClosing scope state = none) : b ≠ bracket.closer := by
  rintro rfl
  simp only [readGroupClosing, hbranch, facing_of_rest hrest, if_true] at h
  exact leave?_ne_none houter 1 h

/-- **In a root and in a group, a byte that every reader before the last one declines is a
stray.** -/
theorem isStray_of_declined (hbranch : state.frame.branch = .root ∨
      ∃ bracket, state.frame.branch = .group bracket ∧ state.outer ≠ [])
    (hrest : state.rest = b :: tail)
    (h : ∀ reader ∈ [readBlank, readNumeral, readUrlOpening, readCommentOpening, readCdx,
      readQuasiOpening, readAnnotationOpening, readIdentifierOpening, readHashOpening,
      readQuotedOpening, readSeparator, readOperator, readGroupOpening, readGroupClosing,
      readContinuation], reader scope state = none) :
    state.frame.branch.isStray scope.dialect b = true := by
  -- addresses, comments, markers, fragments and hashes begin with bytes of other classes as well
  simp only [List.forall_mem_cons] at h
  obtain ⟨hblank, hnumeral, -, -, -, -, -, hidentifier, -, hquoted, hseparator, hoperator, hopening,
    hclosing, hcontinuation, -⟩ := h
  have hoperator : Byte.isOperator b = false := by simpa [readOperator, hrest] using hoperator
  have hhyphen : b ≠ Byte.hyphen := by
    rintro rfl
    exact absurd hoperator (by decide)
  obtain ⟨hname, hescape⟩ := not_nameStart hrest hidentifier
  obtain ⟨hquote, hbacktick⟩ := not_quote hrest hquoted
  have hseparator : Byte.isSeparator b = false := by simpa [readSeparator, hrest] using hseparator
  have hopener : Byte.isOpener b = false := by
    have hnone : Bracket.ofOpener? b = none := by simpa [readGroupOpening, hrest] using hopening
    unfold Bracket.ofOpener? at hnone
    simp only [Byte.isOpener, Bool.or_eq_false_iff]
    split at hnone <;> grind
  have hodd : Byte.isOdd b = true :=
    Byte.isOdd_of_declined (not_blank hrest hblank) (not_decimal hrest hnumeral) hname
      (not_backslash hrest (hescape hhyphen) hcontinuation) hquote hseparator hoperator hopener
  have hown : state.frame.branch.closer? ≠ some [b] := by
    rcases hbranch with hroot | ⟨bracket, hgroup, houter⟩
    · rw [hroot]
      intro hcloser
      cases hcloser
    · rw [hgroup]
      intro hcloser
      exact not_closer hgroup houter hrest hclosing
        (List.singleton_inj.mp (Option.some.inj hcloser)).symm
  rw [Branch.isStray, hodd]
  simp only [Bool.true_and, Bool.and_eq_true, Bool.or_eq_true, bne_iff_ne, ne_eq,
    Bool.not_eq_true']
  refine ⟨?_, hown⟩
  -- a backtick is left only where strings do not begin with one
  by_cases hb : b = Byte.backtick
  · exact Or.inr (Bool.eq_false_iff.mpr fun henabled => hbacktick henabled hb)
  · exact Or.inl hb

/-! ## 4. Turns

Each context that is no name and no fragment has a last reader (`readersOf_resorts`), so its turns
fall into two sorts.  If a leaf that grows is pending behind the turn, the last reader has made it,
all others have declined, and section 3 applies. -/

/-- The last of some readers takes raw or unexpected bytes, and the ones before it leave no leaf
behind that grows. -/
def Resorts (scope : Scope) (state : State) (readers : List Reader) : Prop :=
  ∃ front last, readers = front ++ [last] ∧ (last = readRaw ∨ last = readUnexpected) ∧
    ∀ reader ∈ front, Settles (reader scope state)

/-- Roots and groups: unexpected bytes. -/
theorem readGroup_resorts : Resorts scope state (readersOf .root) := by
  refine ⟨(readersOf .root).dropLast, _, rfl, Or.inr rfl, ?_⟩
  simp only [readersOf, List.dropLast, List.forall_mem_cons]
  exact ⟨readBlank_settles, readNumeral_settles, readUrlOpening_settles,
    readCommentOpening_settles, readCdx_settles, readQuasiOpening_settles,
    readAnnotationOpening_settles, readIdentifierOpening_settles, readHashOpening_settles,
    readQuotedOpening_settles, readSeparator_settles, readOperator_settles,
    readGroupOpening_settles, readGroupClosing_settles, readContinuation_settles,
    List.forall_mem_nil _⟩

/-- Strings: raw text, as in all that follow. -/
theorem readQuoted_resorts : Resorts scope state (readersOf .double) := by
  refine ⟨(readersOf .double).dropLast, _, rfl, Or.inl rfl, ?_⟩
  simp only [readersOf, List.dropLast, List.forall_mem_cons]
  exact ⟨readEscape_settles, readContinuation_settles, readQuasiOpening_settles,
    readQuotedClosing_settles, List.forall_mem_nil _⟩

theorem readUrl_resorts : Resorts scope state (readersOf .url) := by
  refine ⟨(readersOf .url).dropLast, _, rfl, Or.inl rfl, ?_⟩
  simp only [readersOf, List.dropLast, List.forall_mem_cons]
  exact ⟨readEscape_settles, readContinuation_settles, readBlank_settles,
    readUrlComment_settles, readQuotedOpening_settles, readQuasiOpening_settles,
    readUrlClosing_settles, List.forall_mem_nil _⟩

theorem readBlock_resorts : Resorts scope state (readersOf .block) := by
  refine ⟨(readersOf .block).dropLast, _, rfl, Or.inl rfl, ?_⟩
  simp only [readersOf, List.dropLast, List.forall_mem_cons]
  exact ⟨readBlockOpening_settles, readBlockClosing_settles, readQuasiOpening_settles,
    List.forall_mem_nil _⟩

theorem readLine_resorts : Resorts scope state (readersOf .line) := by
  refine ⟨(readersOf .line).dropLast, _, rfl, Or.inl rfl, ?_⟩
  simp only [readersOf, List.dropLast, List.forall_mem_cons]
  exact ⟨readQuasiOpening_settles, readLineClosing_settles, List.forall_mem_nil _⟩

/-- **Only the last reader of a branch leaves a leaf behind that grows.**  Names and fragments have
their own readers. -/
theorem readersOf_resorts (scope : Scope) (hwide : state.frame.branch.isNarrow = false) :
    Resorts scope state (readersOf state.context) := by
  rw [State.context]
  cases hbranch : state.frame.branch with
  | root => exact readGroup_resorts
  | group bracket => cases bracket <;> exact readGroup_resorts
  | quoted quote => cases quote <;> exact readQuoted_resorts
  | url => exact readUrl_resorts
  | comment form =>
    cases form with
    | block => exact readBlock_resorts
    | line => exact readLine_resorts
  | _ =>
    rw [hbranch] at hwide
    cases hwide

/-- The readers of a context decide in order, the last one if every other declines. -/
theorem readNext_of_last {P : State → Prop} {front : List Reader} {last : Reader}
    (hreaders : readersOf state.context = front ++ [last])
    (hfront : ∀ reader ∈ front, ∀ after, reader scope state = some after → P after)
    (hlast : (∀ reader ∈ front, reader scope state = none) →
      ∃ after, last scope state = some after ∧ P after) : P (readNext scope state) := by
  rw [readNext, hreaders, List.findSome?_append]
  cases hfound : front.findSome? fun reader => reader scope state with
  | some after =>
    obtain ⟨reader, hin, hread⟩ := List.exists_of_findSome?_eq_some hfound
    exact hfront reader hin after hread
  | none =>
    obtain ⟨after, hread, hP⟩ := hlast (List.findSome?_eq_none_iff.mp hfound)
    rw [List.findSome?_cons, hread]
    exact hP

/-- A reader of last resort takes one byte.  It begins a leaf unless one of the kind is pending. -/
theorem last_one (scope : Scope) (state : State) {last : Reader}
    (hlast : last = readRaw ∨ last = readUnexpected) :
    ∃ after, last scope state = some after ∧ after.rest = state.rest.drop 1 ∧
      (after.frame.pending = state.frame.pending → after.marks = state.marks) := by
  rcases hlast with rfl | rfl
  · unfold readRaw
    split
    · exact ⟨_, rfl, rfl, fun _ => rfl⟩
    · rename_i hother
      exact ⟨_, rfl, rfl, fun hsame => absurd hsame.symm hother⟩
  · refine ⟨_, rfl, ?_⟩
    cases hgrows : state.frame.pending == some (.leaf .unexpected) with
    | true =>
      split <;> exact ⟨rfl, fun _ => rfl⟩
    | false =>
      have hother : state.frame.pending ≠ some (.leaf .unexpected) := beq_eq_false_iff_ne.mp hgrows
      split <;> exact ⟨rfl, fun hsame => absurd hsame.symm hother⟩

/-- If a leaf that grows is pending behind a turn, the turn took one byte, which was left to it.
Names and fragments have their own readers. -/
def View.Leaves (dialect : Dialect) (view next : View) : Prop :=
  view.frame.branch.isNarrow = false → next.frame.pending.any Kind.grows = true →
    view.frame.branch.Leaves dialect view.rest ∧ next.rest = view.rest.drop 1

variable {view next : View}

/-- If no leaf that grows is pending, there is nothing to show. -/
theorem leaves_of_settled {dialect : Dialect}
    (h : next.frame.pending.any Kind.grows = false) : view.Leaves dialect next := by
  intro _ hgrows
  rw [h] at hgrows
  cases hgrows

/-- **A turn of the last reader takes a byte that was left to it.** -/
theorem readNext_leaves_of {front : List Reader} {last : Reader}
    (hreaders : readersOf state.context = front ++ [last])
    (hleaves : (∀ reader ∈ front, reader scope state = none) →
      state.frame.branch.Leaves scope.dialect state.rest) :
    state.view.Leaves scope.dialect (readNext scope state).view := by
  intro hwide
  obtain ⟨front', last', hsame, hlast, hsettles⟩ := readersOf_resorts scope hwide
  obtain ⟨rfl, heq⟩ := List.append_inj' (hreaders.symm.trans hsame) rfl
  obtain rfl := List.singleton_inj.mp heq
  refine readNext_of_last (P := fun after => after.frame.pending.any Kind.grows = true →
      state.frame.branch.Leaves scope.dialect state.rest ∧ after.rest = state.rest.drop 1) hreaders
    (fun reader hin after hread hgrows => ?_) fun hdeclined => ?_
  · rw [hsettles reader hin after hread] at hgrows
    cases hgrows
  · obtain ⟨after, hread, hrest, -⟩ := last_one scope state hlast
    exact ⟨after, hread, fun _ => ⟨hleaves hdeclined, hrest⟩⟩

/-- What holds of the first byte ahead, if there is one. -/
theorem forall_head? {P : UInt8 → Prop} {rest : List UInt8}
    (h : ∀ b tail, rest = b :: tail → P b) : ∀ b ∈ rest.head?, P b := by
  intro b hb
  obtain ⟨tail, hrest⟩ := List.head?_eq_some_iff.mp hb
  exact h b tail hrest

/-- In a root or in a group. -/
theorem readGroup_leaves (hbranch : state.frame.branch = .root ∨
      ∃ bracket, state.frame.branch = .group bracket ∧ state.outer ≠ []) :
    state.view.Leaves scope.dialect (readNext scope state).view := by
  have hreaders : readersOf state.context =
      [readBlank, readNumeral, readUrlOpening, readCommentOpening, readCdx, readQuasiOpening,
        readAnnotationOpening, readIdentifierOpening, readHashOpening, readQuotedOpening,
        readSeparator, readOperator, readGroupOpening, readGroupClosing, readContinuation] ++
          [readUnexpected] := by
    rcases hbranch with hroot | ⟨bracket, hgroup, -⟩
    · rw [State.context, hroot]
      rfl
    · rw [State.context, hgroup]
      cases bracket <;> rfl
  refine readNext_leaves_of hreaders fun hdeclined => ?_
  have hstray : ∀ b ∈ state.rest.head?, state.frame.branch.isStray scope.dialect b = true :=
    forall_head? fun b tail hrest => isStray_of_declined hbranch hrest hdeclined
  rcases hbranch with hroot | ⟨bracket, hgroup, -⟩
  · rw [hroot] at hstray ⊢
    exact hstray
  · rw [hgroup] at hstray ⊢
    exact hstray

/-- In a string; its quote or a line break would have ended it. -/
theorem readQuoted_leaves {quote : Quote} (hbranch : state.frame.branch = .quoted quote)
    (houter : state.outer ≠ []) :
    state.view.Leaves scope.dialect (readNext scope state).view := by
  have hreaders : readersOf state.context =
      [readEscape, readContinuation, readQuasiOpening, readQuotedClosing] ++ [readRaw] := by
    rw [State.context, hbranch]
    cases quote <;> rfl
  refine readNext_leaves_of hreaders fun hdeclined => ?_
  simp only [List.forall_mem_cons] at hdeclined
  obtain ⟨hescape, hcontinuation, -, hclosing, -⟩ := hdeclined
  rw [hbranch]
  refine forall_head? fun b tail hrest => ⟨?_, ?_, fun hplain => ?_⟩
  · rintro rfl
    simp only [readQuotedClosing, hbranch, facing_of_rest hrest, if_true, List.isEmpty_iff,
      houter, if_false] at hclosing
    exact leave?_ne_none houter 1 hclosing
  · exact not_backslash hrest (not_begins hescape) hcontinuation
  · refine not_newline hrest ?_
    have hbreak : readStringBreak scope state = none := by
      simp only [readQuotedClosing, hbranch, List.isEmpty_iff, houter, if_false] at hclosing
      split at hclosing
      · exact absurd hclosing (leave?_ne_none houter 1)
      · exact hclosing
    rw [readStringBreak, hplain, if_neg Bool.false_ne_true] at hbreak
    cases hnewline : Escape.newlineLength? state.rest with
    | none => rfl
    | some length =>
      simp only [hnewline, Option.map_eq_none_iff] at hbreak
      exact absurd (closeBranch?_eq_none hbreak) houter

/-- In an address, where blanks, quotes and escapes are read too. -/
theorem readUrl_leaves (hbranch : state.frame.branch = .url) (houter : state.outer ≠ []) :
    state.view.Leaves scope.dialect (readNext scope state).view := by
  have hreaders : readersOf state.context =
      [readEscape, readContinuation, readBlank, readUrlComment, readQuotedOpening,
        readQuasiOpening, readUrlClosing] ++ [readRaw] := by
    rw [State.context, hbranch]
    rfl
  refine readNext_leaves_of hreaders fun hdeclined => ?_
  simp only [List.forall_mem_cons] at hdeclined
  obtain ⟨hescape, hcontinuation, hblank, -, hquoted, -, hclosing, -⟩ := hdeclined
  rw [hbranch]
  refine forall_head? fun b tail hrest => ⟨?_, not_backslash hrest (not_begins hescape)
    hcontinuation, not_blank hrest hblank, not_quote hrest hquoted⟩
  rintro rfl
  rw [readUrlClosing, if_pos (facing_of_rest hrest)] at hclosing
  exact leave?_ne_none houter 1 hclosing

/-- In a block comment, where only its end and perhaps another comment are looked for. -/
theorem readBlock_leaves (hbranch : state.frame.branch = .comment .block)
    (houter : state.outer ≠ []) :
    state.view.Leaves scope.dialect (readNext scope state).view := by
  have hcontext : state.context = .block := congrArg Branch.context hbranch
  have hreaders : readersOf state.context =
      [readBlockOpening, readBlockClosing, readQuasiOpening] ++ [readRaw] := by
    rw [hcontext]
    rfl
  refine readNext_leaves_of hreaders fun hdeclined => ?_
  simp only [List.forall_mem_cons] at hdeclined
  obtain ⟨hopening, hclosing, -⟩ := hdeclined
  rw [hbranch]
  refine ⟨fun hahead => ?_, fun hnesting hahead => ?_⟩
  · rw [readBlockClosing, if_pos (facingPair_iff.mpr hahead)] at hclosing
    exact leave?_ne_none houter 2 hclosing
  · simp [readBlockOpening, facingPair_iff.mpr hahead, hnesting] at hopening

/-- In a line comment. -/
theorem readLine_leaves (hbranch : state.frame.branch = .comment .line)
    (houter : state.outer ≠ []) :
    state.view.Leaves scope.dialect (readNext scope state).view := by
  have hreaders : readersOf state.context = [readQuasiOpening, readLineClosing] ++ [readRaw] := by
    rw [State.context, hbranch]
    rfl
  refine readNext_leaves_of hreaders fun hdeclined => ?_
  simp only [List.forall_mem_cons] at hdeclined
  obtain ⟨-, hclosing, -⟩ := hdeclined
  rw [hbranch]
  refine forall_head? fun b tail hrest => not_newline hrest ?_
  cases hnewline : Escape.newlineLength? state.rest with
  | none => rfl
  | some length =>
    simp only [readLineClosing, hnewline] at hclosing
    exact absurd hclosing (leave?_ne_none houter length)

/-- **A leaf grows by the bytes that its branch leaves.** -/
theorem readNext_leaves (scope : Scope)
    (houter : state.frame.branch ≠ .root → state.outer ≠ []) :
    state.view.Leaves scope.dialect (readNext scope state).view := by
  cases hbranch : state.frame.branch with
  | root => exact readGroup_leaves (Or.inl hbranch)
  | group bracket =>
    exact readGroup_leaves (Or.inr ⟨bracket, hbranch, houter (by simp [hbranch])⟩)
  | quoted quote => exact readQuoted_leaves hbranch (houter (by simp [hbranch]))
  | url => exact readUrl_leaves hbranch (houter (by simp [hbranch]))
  | comment form =>
    cases form with
    | block => exact readBlock_leaves hbranch (houter (by simp [hbranch]))
    | line => exact readLine_leaves hbranch (houter (by simp [hbranch]))
  | _ =>
    intro hwide
    change state.frame.branch.isNarrow = false at hwide
    rw [hbranch] at hwide
    cases hwide

/-- At the end of the input no leaf is left to grow. -/
theorem Step.leaves_of_nil (h : Step scope view next) (hrest : view.rest = []) :
    view.Leaves scope.dialect next := by
  cases h with
  | leaf ahead => exact absurd hrest ahead
  | grow ahead => exact absurd hrest ahead
  | opened ahead => exact absurd hrest ahead
  | closed => exact leaves_of_settled rfl
  | halted name =>
    intro hwide
    rw [Branch.isNarrow, name] at hwide
    cases hwide

end Scan
end StyleLex
