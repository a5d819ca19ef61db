/-
# What a scan asks of its scope

Readers look at the bytes ahead.  Here and there one also asks the scope something: whether a flag
is set, how a numeral or an escape is read, which form begins here, and, where it moves, which byte
is behind the bound.  Two scopes are alike about some bytes if they answer alike whatever a reader
can ask of them there (`Scope.Alike`); a flag counts only in front of the bytes that it is about.

Readers do the same in scopes that are alike about the bytes ahead (`reader_alike`), and so do whole
scans, if the scopes are alike wherever a scan may stand (`run_alike`).  One case is two scopes
that differ in the byte behind the bound: it is asked for at line breaks only, so it counts only
after a carriage return (`run_behind`).

A reader that comes to ask for more needs a field of `Scope.Alike` and a case here.

Three results about lexers are cases of this one.  Lexers whose definitions are given in another
grouping answer alike everywhere, so they read alike.  Two dialects that differ in a flag answer
alike about a source in which nothing stands that the flag is about.  And a call on a part of a
buffer reads the same whatever stands behind the part, but for a line feed behind a carriage return.

For each reader that asks anything there is a lemma `…_alike`, which says that its answer depends on
what it may ask.  A reader that takes bytes always asks for the byte behind the bound, since it has
to move; that is why `Scope.Alike.beyond` is used in nearly every proof.
-/
import StyleLex.Proofs.Scan.Progress

namespace StyleLex

/-! ## 1. Positions

A carriage return ends a line unless a line feed follows, and this is the only thing about a
position that the next byte decides. -/

/-- Is it the same for lines whether `a` or `b` follows the bytes? -/
def BreaksAlike (bytes : List UInt8) (a b : Option UInt8) : Prop :=
  bytes.getLast? = some Byte.carriageReturn →
    (a = some Byte.lineFeed ↔ b = some Byte.lineFeed)

variable {a b : Option UInt8}

/-- What is left of some bytes ends as they do, if anything is left. -/
theorem BreaksAlike.drop {bytes : List UInt8} (h : BreaksAlike bytes a b) (n : Nat) :
    BreaksAlike (bytes.drop n) a b := by
  intro hlast
  refine h ?_
  rw [List.getLast?_drop] at hlast
  split at hlast
  · cases hlast
  · exact hlast

/-- Only a carriage return asks for the byte behind it. -/
theorem endsLine_congr {byte : UInt8} (h : BreaksAlike [byte] a b) :
    endsLine byte a = endsLine byte b := by
  unfold endsLine
  by_cases hbyte : byte = Byte.carriageReturn
  · subst hbyte
    have hiff := h rfl
    have hbeq : (a == some Byte.lineFeed) = (b == some Byte.lineFeed) := by
      rw [Bool.eq_iff_iff, beq_iff_eq, beq_iff_eq]
      exact hiff
    rw [hbeq]
  · rw [beq_eq_false_iff_ne.mpr hbyte, Bool.false_and, Bool.false_and]

/-- One byte leads to the same place if it ends a line in both cases or in none. -/
theorem Position.advance_congr {byte : UInt8} (h : BreaksAlike [byte] a b) (position : Position) :
    position.advance byte a = position.advance byte b := by
  rw [Position.advance, Position.advance, endsLine_congr h]

/-- So do several, of which only the last one can ask. -/
theorem Position.advanceOver_congr : ∀ {bytes : List UInt8} (position : Position),
    BreaksAlike bytes a b → position.advanceOver a bytes = position.advanceOver b bytes
  | [], _, _ => rfl
  | [byte], position, h => by
    simp only [Position.advanceOver, List.head?_nil, Option.none_or, advance_congr h]
  | byte :: next :: rest, position, h => by
    have hrest : BreaksAlike (next :: rest) a b := h.drop 1
    simp only [Position.advanceOver, List.head?_cons, Option.some_or]
    exact Position.advanceOver_congr _ hrest

/-! ## 2. Questions

Each field is a question.  A flag of the dialect is asked only in front of certain bytes, which
stand before the equation as its hypothesis, so that a flag without use in a source may differ. -/

/-- The contexts in which interpolations are looked for. -/
def Context.interpolating : List Context :=
  [root, parentheses, brackets, braces, double, single, backtick, url, block, line]

namespace Fragments

/-- The interpolation form that is found in front of some bytes. -/
def quasiAt? (fragments : Fragments) (context : Context) (ahead : List UInt8) : Option String :=
  ((fragments.quasiFor context).find? fun form => form.pattern.isPrefixOf ahead).map (·.form)

/-- The annotation form that is found in front of some bytes, with its placement. -/
def annotationAt? (fragments : Fragments) (ahead : List UInt8) : Option (String × Placement) :=
  (fragments.annotations.find? fun form => form.pattern.isPrefixOf ahead).map fun form =>
    (form.form, form.placement)

end Fragments

namespace Scan

/-- Two scopes that answer alike whatever a reader asks with these bytes ahead. -/
structure Scope.Alike (scope other : Scope) (ahead : List UInt8) : Prop where
  beyond : BreaksAlike ahead scope.beyond other.beyond
  numeral : Numeral.read? scope.dialect.extendedNumbers ahead =
    Numeral.read? other.dialect.extendedNumbers ahead
  escape : Escape.read? scope.dialect ahead = Escape.read? other.dialect ahead
  /-- A backtick may begin a string, and a line break may end one. -/
  string : (ahead.head?.any fun b => b == Byte.backtick || Byte.isNewline b) = true →
    scope.dialect.extendedStrings = other.dialect.extendedStrings
  /-- Block comments may nest, and there may be line comments. -/
  comment : [Byte.slash, Byte.asterisk].isPrefixOf ahead = true ∨
      [Byte.slash, Byte.slash].isPrefixOf ahead = true →
    scope.dialect.extendedComments = other.dialect.extendedComments
  url : beginsUrl ahead = true → scope.dialect.standardUrls = other.dialect.standardUrls
  cdx : ∀ marker : CdxMarker, (Utf8.encode marker.text).isPrefixOf ahead = true →
    scope.dialect.standardCdx = other.dialect.standardCdx
  quasi : ∀ context ∈ Context.interpolating,
    scope.fragments.quasiAt? context ahead = other.fragments.quasiAt? context ahead
  annotation : scope.fragments.annotationAt? ahead = other.fragments.annotationAt? ahead

variable {scope other : Scope} {state : State}

/-! ## 3. Moving

Moving is what all readers have in common, so it is treated once; what a reader does besides does
not involve the scope. -/

/-- **Moving past bytes** asks for the byte behind the bound, and for nothing else. -/
theorem consume_alike {s : State} (h : BreaksAlike s.rest scope.beyond other.beyond) (n : Nat) :
    s.consume scope n = s.consume other n := by
  have hposition : s.position.advanceOver ((s.rest.drop n).head?.or scope.beyond)
      (s.rest.take n) =
        s.position.advanceOver ((s.rest.drop n).head?.or other.beyond) (s.rest.take n) := by
    cases hdrop : s.rest.drop n with
    | nil =>
      have htake : s.rest.take n = s.rest :=
        List.take_of_length_le (List.drop_eq_nil_iff.mp hdrop)
      rw [htake]
      exact Position.advanceOver_congr _ h
    | cons byte rest => simp
  simp only [State.consume, hposition]

/-- Taking a leaf is moving past it. -/
theorem takeLeaf_alike (h : BreaksAlike state.rest scope.beyond other.beyond) (leaf : Leaf)
    (n : Nat) : state.takeLeaf scope leaf n = state.takeLeaf other leaf n :=
  consume_alike (s := state.addLeaf leaf true) h n

/-- Opening a branch is moving past its opener. -/
theorem enter_alike (h : BreaksAlike state.rest scope.beyond other.beyond) (branch : Branch)
    (n : Nat) : state.enter scope branch n = state.enter other branch n :=
  consume_alike (s := state.openBranch branch) h n

/-- Completing a branch takes nothing by itself. -/
theorem rest_closeBranch? {valid : Bool} {closed : State}
    (h : state.closeBranch? valid = some closed) : closed.rest = state.rest := by
  obtain ⟨around, further, -, hview⟩ := closeBranch?_eq_some h
  exact congrArg View.rest hview

/-- Closing a branch is moving past its closer. -/
theorem close_alike {s : State} (h : BreaksAlike s.rest scope.beyond other.beyond) (valid : Bool)
    (n : Nat) :
    (s.closeBranch? valid).map (State.consume scope n) =
      (s.closeBranch? valid).map (State.consume other n) := by
  cases hclose : s.closeBranch? valid with
  | none => rfl
  | some closed =>
    rw [Option.map_some, Option.map_some, consume_alike ((rest_closeBranch? hclose).symm ▸ h)]

/-- The same for a branch that is complete. -/
theorem leave_alike (h : BreaksAlike state.rest scope.beyond other.beyond) (n : Nat) :
    state.leave? scope n = state.leave? other n :=
  close_alike h true n

/-! ## 4. Readers of leaves

Most readers of leaves decide by the bytes ahead alone and ask only where they move.  Markers,
numerals and escapes are read by the dialect. -/

theorem readBlank_alike (h : scope.Alike other state.rest) :
    readBlank scope state = readBlank other state := by
  unfold readBlank
  split
  · rfl
  · rw [takeLeaf_alike h.beyond]

/-- How a numeral is read is one of the questions. -/
theorem readNumeral_alike (h : scope.Alike other state.rest) :
    readNumeral scope state = readNumeral other state := by
  unfold readNumeral
  simp only [h.numeral, takeLeaf_alike h.beyond]

theorem readSeparator_alike (h : scope.Alike other state.rest) :
    readSeparator scope state = readSeparator other state := by
  unfold readSeparator
  simp only [takeLeaf_alike h.beyond]

theorem readOperator_alike (h : scope.Alike other state.rest) :
    readOperator scope state = readOperator other state := by
  unfold readOperator
  simp only [takeLeaf_alike h.beyond]

/-- The markers are looked for where one of them stands. -/
theorem readCdx_alike (h : scope.Alike other state.rest) :
    readCdx scope state = readCdx other state := by
  by_cases hopening : (Utf8.encode CdxMarker.opening.text).isPrefixOf state.rest = true
  · simp only [readCdx, h.cdx _ hopening, takeLeaf_alike h.beyond]
  · by_cases hclosing : (Utf8.encode CdxMarker.closing.text).isPrefixOf state.rest = true
    · simp only [readCdx, h.cdx _ hclosing, takeLeaf_alike h.beyond]
    · rw [List.isPrefixOf_iff_prefix] at hopening hclosing
      simp [readCdx, hopening, hclosing]

/-- How an escape is read is another one. -/
theorem readEscape_alike (h : scope.Alike other state.rest) :
    readEscape scope state = readEscape other state := by
  have hadded : ∀ (leaf : Leaf) (valid : Bool) (n : Nat),
      (state.addLeaf leaf valid).consume scope n = (state.addLeaf leaf valid).consume other n :=
    fun leaf valid n => consume_alike (s := state.addLeaf leaf valid) h.beyond n
  unfold readEscape
  simp only [h.escape, hadded]

theorem readContinuation_alike (h : scope.Alike other state.rest) :
    readContinuation scope state = readContinuation other state := by
  unfold readContinuation
  simp only [takeLeaf_alike h.beyond]

theorem readRaw_alike (h : scope.Alike other state.rest) :
    readRaw scope state = readRaw other state := by
  unfold readRaw
  simp only [takeLeaf_alike h.beyond, consume_alike h.beyond]

/-- Unexpected bytes are recovered by what the byte is, and this is not asked of the scope. -/
theorem readUnexpected_alike (h : scope.Alike other state.rest) :
    readUnexpected scope state = readUnexpected other state := by
  have hgrown : ∀ grows : Bool,
      (if grows then state else state.addLeaf .unexpected false).consume scope 1 =
        (if grows then state else state.addLeaf .unexpected false).consume other 1 := by
    intro grows
    cases grows with
    | true => exact consume_alike h.beyond 1
    | false => exact consume_alike (s := state.addLeaf .unexpected false) h.beyond 1
  unfold readUnexpected
  simp only [hgrown]

theorem readNameRun_alike (h : scope.Alike other state.rest) :
    readNameRun scope state = readNameRun other state := by
  unfold readNameRun
  split
  · rfl
  · rw [takeLeaf_alike h.beyond]

/-! ## 5. Readers of branches

Quotes, line breaks in strings, addresses and comments are where flags count; groups are the same in
all dialects. -/

theorem readGroupOpening_alike (h : scope.Alike other state.rest) :
    readGroupOpening scope state = readGroupOpening other state := by
  unfold readGroupOpening
  simp only [enter_alike h.beyond]

theorem readGroupClosing_alike (h : scope.Alike other state.rest) :
    readGroupClosing scope state = readGroupClosing other state := by
  unfold readGroupClosing
  simp only [leave_alike h.beyond]

/-- Of the quotes, only the backtick asks. -/
theorem readQuotedOpening_alike (h : scope.Alike other state.rest) :
    readQuotedOpening scope state = readQuotedOpening other state := by
  unfold readQuotedOpening
  split
  · rename_i b rest hrest
    by_cases hbacktick : b = Byte.backtick
    · have hflag := h.string (by simp [hrest, hbacktick])
      simp only [hflag, enter_alike h.beyond]
    · cases hquote : Quote.ofByte? b with
      | none => rfl
      | some quote =>
        have hne : quote ≠ .backtick := by
          rintro rfl
          simp only [Quote.ofByte?] at hquote
          grind
        simp [hne, enter_alike h.beyond]
  · rfl

/-- A line break ends a string in some dialects only. -/
theorem readStringBreak_alike (h : scope.Alike other state.rest) :
    readStringBreak scope state = readStringBreak other state := by
  have hclose : ∀ n, ((state.recoverBranch .brokenString).closeBranch? false).map
      (State.consume scope n) =
        ((state.recoverBranch .brokenString).closeBranch? false).map (State.consume other n) :=
    fun n => close_alike (s := state.recoverBranch .brokenString) h.beyond false n
  cases hline : Escape.newlineLength? state.rest with
  | none => simp [readStringBreak, hline]
  | some n =>
    have hflag := h.string (by
      cases hrest : state.rest with
      | nil =>
        rw [hrest] at hline
        cases hline
      | cons b rest =>
        rw [hrest] at hline
        simp [Escape.isNewline_of_newlineLength? hline])
    unfold readStringBreak
    simp only [hline, hflag, hclose]

theorem readQuotedClosing_alike (h : scope.Alike other state.rest) :
    readQuotedClosing scope state = readQuotedClosing other state := by
  unfold readQuotedClosing
  simp only [leave_alike h.beyond, readStringBreak_alike h]

/-- An address is looked for where it begins. -/
theorem readUrlOpening_alike (h : scope.Alike other state.rest) :
    readUrlOpening scope state = readUrlOpening other state := by
  unfold readUrlOpening
  by_cases hurl : beginsUrl state.rest = true
  · simp only [h.url hurl, enter_alike h.beyond]
  · simp [hurl]

theorem readUrlClosing_alike (h : scope.Alike other state.rest) :
    readUrlClosing scope state = readUrlClosing other state := by
  unfold readUrlClosing
  simp only [leave_alike h.beyond]

/-- Block comments nest in some dialects. -/
theorem readBlockOpening_alike (h : scope.Alike other state.rest) :
    readBlockOpening scope state = readBlockOpening other state := by
  unfold readBlockOpening
  by_cases hfacing : facingPair Byte.slash Byte.asterisk state = true
  · simp only [h.comment (Or.inl hfacing), enter_alike h.beyond]
  · simp [hfacing]

/-- Line comments exist in some. -/
theorem readLineOpening_alike (h : scope.Alike other state.rest) :
    readLineOpening scope state = readLineOpening other state := by
  unfold readLineOpening
  by_cases hfacing : facingPair Byte.slash Byte.slash state = true
  · simp only [h.comment (Or.inr hfacing), enter_alike h.beyond]
  · simp [hfacing]

theorem readCommentOpening_alike (h : scope.Alike other state.rest) :
    readCommentOpening scope state = readCommentOpening other state := by
  unfold readCommentOpening
  rw [readBlockOpening_alike h, readLineOpening_alike h]

theorem readUrlComment_alike (h : scope.Alike other state.rest) :
    readUrlComment scope state = readUrlComment other state := by
  unfold readUrlComment
  rw [readCommentOpening_alike h]

theorem readBlockClosing_alike (h : scope.Alike other state.rest) :
    readBlockClosing scope state = readBlockClosing other state := by
  unfold readBlockClosing
  simp only [leave_alike h.beyond]

theorem readLineClosing_alike (h : scope.Alike other state.rest) :
    readLineClosing scope state = readLineClosing other state := by
  unfold readLineClosing
  simp only [leave_alike h.beyond]

/-- An interpolation is opened by the form that is found. -/
theorem readQuasiOpening_alike (h : scope.Alike other state.rest)
    (hcontext : state.context ∈ Context.interpolating) :
    readQuasiOpening scope state = readQuasiOpening other state := by
  have hopening : ∀ scope : Scope, readQuasiOpening scope state =
      (scope.fragments.quasiAt? state.context state.rest).map
        fun form => state.openBranch (.quasi form) := by
    intro scope
    simp [readQuasiOpening, Fragments.quasiAt?, Function.comp_def]
  rw [hopening, hopening, h.quasi _ hcontext]

/-- An annotation is opened by the form that is found, with its placement. -/
theorem readAnnotationOpening_alike (h : scope.Alike other state.rest) :
    readAnnotationOpening scope state = readAnnotationOpening other state := by
  have hopening : ∀ scope : Scope, readAnnotationOpening scope state =
      (scope.fragments.annotationAt? state.rest).map
        fun form => state.openBranch (Branch.annotation form.1 form.2) := by
    intro scope
    simp [readAnnotationOpening, Fragments.annotationAt?, Function.comp_def]
  rw [hopening, hopening, h.annotation]

/-! ## 6. Readers of hashes

A hash asks for nothing of its own: its escapes are read as all escapes are. -/

theorem readHashOpening_alike (h : scope.Alike other state.rest) :
    readHashOpening scope state = readHashOpening other state := by
  unfold readHashOpening
  simp only [enter_alike h.beyond]

theorem readHashEscape_alike (h : scope.Alike other state.rest) :
    readHashEscape scope state = readHashEscape other state := by
  unfold readHashEscape
  rw [readEscape_alike h, h.escape]

theorem readHashRun_alike (h : scope.Alike other state.rest) :
    readHashRun scope state = readHashRun other state := by
  unfold readHashRun
  rw [readNameRun_alike h]

/-! ## 7. The scan

From readers to turns, from turns to the loop, from the loop to the scan.  The hypothesis grows with
every step: for a turn the scopes are alike about the bytes ahead, for a scan about every end of
them. -/

/-- **A reader does the same in scopes that are alike.**  The readers that are not in the lists
above take nothing and ask for nothing; interpolations are looked for where the table counts. -/
theorem reader_alike (h : scope.Alike other state.rest) {reader : Reader}
    (hin : reader ∈ readersOf state.context) : reader scope state = reader other state := by
  have hquasi := readQuasiOpening_alike h
  generalize state.context = context at hin hquasi
  -- by contexts, and in each one by the readers in their order
  cases context with
  | root | parentheses | brackets | braces =>
    simp only [readersOf, List.mem_cons, List.not_mem_nil, or_false] at hin
    rcases hin with rfl | rfl | rfl | rfl | rfl | rfl | rfl | rfl | rfl | rfl | rfl | rfl | rfl |
      rfl | rfl | rfl
    · exact readBlank_alike h
    · exact readNumeral_alike h
    · exact readUrlOpening_alike h
    · exact readCommentOpening_alike h
    · exact readCdx_alike h
    · exact hquasi (by decide)
    · exact readAnnotationOpening_alike h
    · rfl
    · exact readHashOpening_alike h
    · exact readQuotedOpening_alike h
    · exact readSeparator_alike h
    · exact readOperator_alike h
    · exact readGroupOpening_alike h
    · exact readGroupClosing_alike h
    · exact readContinuation_alike h
    · exact readUnexpected_alike h
  | double | single | backtick =>
    simp only [readersOf, List.mem_cons, List.not_mem_nil, or_false] at hin
    rcases hin with rfl | rfl | rfl | rfl | rfl
    · exact readEscape_alike h
    · exact readContinuation_alike h
    · exact hquasi (by decide)
    · exact readQuotedClosing_alike h
    · exact readRaw_alike h
  | url =>
    simp only [readersOf, List.mem_cons, List.not_mem_nil, or_false] at hin
    rcases hin with rfl | rfl | rfl | rfl | rfl | rfl | rfl | rfl
    · exact readEscape_alike h
    · exact readContinuation_alike h
    · exact readBlank_alike h
    · exact readUrlComment_alike h
    · exact readQuotedOpening_alike h
    · exact hquasi (by decide)
    · exact readUrlClosing_alike h
    · exact readRaw_alike h
  | block =>
    simp only [readersOf, List.mem_cons, List.not_mem_nil, or_false] at hin
    rcases hin with rfl | rfl | rfl | rfl
    · exact readBlockOpening_alike h
    · exact readBlockClosing_alike h
    · exact hquasi (by decide)
    · exact readRaw_alike h
  | line =>
    simp only [readersOf, List.mem_cons, List.not_mem_nil, or_false] at hin
    rcases hin with rfl | rfl | rfl
    · exact hquasi (by decide)
    · exact readLineClosing_alike h
    · exact readRaw_alike h
  | quasi | annotation =>
    simp only [readersOf, List.mem_cons, List.not_mem_nil, or_false] at hin
    rcases hin with rfl | rfl | rfl | rfl
    · rfl
    · exact readOperator_alike h
    · exact readGroupOpening_alike h
    · exact readUnexpected_alike h
  | identifier =>
    simp only [readersOf, List.mem_cons, List.not_mem_nil, or_false] at hin
    rcases hin with rfl | rfl | rfl
    · exact readEscape_alike h
    · exact readNameRun_alike h
    · rfl
  | hash =>
    simp only [readersOf, List.mem_cons, List.not_mem_nil, or_false] at hin
    rcases hin with rfl | rfl | rfl
    · exact readHashEscape_alike h
    · exact readHashRun_alike h
    · rfl

/-- The first reader that accepts is the same one, and it does the same, if every reader of the
list does. -/
theorem findSome?_alike {readers : List Reader}
    (h : ∀ reader ∈ readers, reader scope state = reader other state) :
    (readers.findSome? fun reader => reader scope state) =
      readers.findSome? fun reader => reader other state := by
  induction readers with
  | nil => rfl
  | cons reader readers ih =>
    have hrest := ih fun later hin => h later (List.mem_cons_of_mem _ hin)
    rw [List.findSome?_cons, List.findSome?_cons, h reader List.mem_cons_self, hrest]

/-- A turn is the first reader that accepts. -/
theorem readNext_alike (h : scope.Alike other state.rest) :
    readNext scope state = readNext other state := by
  rw [readNext, readNext, findSome?_alike fun reader hin => reader_alike h hin]

/-- A step leaves a part of the bytes ahead. -/
theorem Step.exists_drop {view after : View} (h : Step scope view after) :
    ∃ n, after.rest = view.rest.drop n := by
  cases h with
  | @leaf _ _ _ n => exact ⟨n, rfl⟩
  | grow => exact ⟨1, rfl⟩
  | @opened branch => exact ⟨branch.openerLength, rfl⟩
  | @closed _ _ n => exact ⟨n, rfl⟩
  | halted => exact ⟨0, rfl⟩

/-- **The main loop does the same in scopes that are alike.**  By induction on its steps: what is
ahead stays an end of what was ahead first. -/
theorem steps_alike (n : Nat) (h : ∀ m, scope.Alike other (state.rest.drop m)) :
    steps scope n state = steps other n state := by
  induction n generalizing state with
  | zero => rfl
  | succ n ih =>
    rw [steps, steps]
    split
    · rfl
    · rename_i hfinished
      obtain ⟨ahead, -⟩ := running_iff.mp (Bool.eq_false_iff.mpr hfinished)
      obtain ⟨k, hrest⟩ := (readNext_step scope ahead).exists_drop
      have hleft : (readNext scope state).rest = state.rest.drop k := hrest
      rw [← readNext_alike (h 0)]
      refine ih fun m => ?_
      rw [hleft, List.drop_drop]
      exact h (k + m)

/-- **A scan does the same in scopes that are alike wherever it may stand.**  What is closed at the
end asks for nothing. -/
theorem run_alike (h : ∀ n, scope.Alike other (state.rest.drop n)) :
    run scope state = run other state := by
  rw [run, run, steps_alike _ h]

/-! ## 8. The byte behind the bound

The simplest use: all questions but one have the same answer because the dialect and the forms are
the same. -/

/-- The scope with another byte behind the bound. -/
def Scope.behind (scope : Scope) (beyond : Option UInt8) : Scope := { scope with beyond := beyond }

/-- **Two scans with the same bytes ahead do the same**, whatever byte is behind them, if it is
the same for lines. -/
theorem run_behind {beyond : Option UInt8} (h : BreaksAlike state.rest scope.beyond beyond) :
    run scope state = run (scope.behind beyond) state := by
  refine run_alike fun n => ?_
  constructor
  · exact h.drop n
  all_goals intros; rfl

end Scan
end StyleLex
