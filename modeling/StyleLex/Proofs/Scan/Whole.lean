/-
# A scan of a text cuts no character

Readers decide byte by byte, and raw text is taken byte by byte too, so a scan may stand within a
character of a text.  But then it is in the middle of raw text (`View.Whole`): what is not raw
begins with an ASCII byte or is a name, and no name stands in strings, addresses and comments.
Hence nothing begins or ends within a character (`View.Whole.step`).

Everything else that is taken ends with an ASCII byte, but for two: the character that a backslash
stands before, which is taken as a whole, and runs of name bytes, to which all bytes belong that are
not ASCII.

The result is needed where spans are used as indices of a string: they have to be boundaries of
characters.  It does not follow from the layout, which is about bytes, and it would be false of a
lexer whose strings could hold names, since a name takes bytes that are not ASCII in runs and might
begin in the middle of a character.

The invariant is a disjunction: either a character begins where the scan is, or raw text of a
string, an address or a comment is pending.  In the second case the turn either goes on with raw
text or meets an ASCII byte, and an ASCII byte is always a character of its own.
-/
import StyleLex.Proofs.Scan.Leading
import StyleLex.Proofs.Scan.Runs
import StyleLex.Proofs.Token.Places

namespace StyleLex

/-! ## 1. Bytes

A byte that is not ASCII belongs to a longer character, and among such bytes `Utf8.Leads` tells the
first one from the others. -/

/-- The bytes within a character are name bytes. -/
theorem Byte.isName_of_continuation {b : UInt8} (h : Utf8.isContinuation b = true) :
    isName b = true := by
  obtain ⟨⟨b⟩⟩ := b
  revert b
  decide +kernel

/-- Odd bytes are ASCII. -/
theorem Byte.ascii_of_isOdd {b : UInt8} (h : isOdd b = true) : b < 0x80 := by
  rcases isOdd_cases h with hlow | rfl | rfl | rfl | rfl | rfl
  · exact UInt8.lt_trans hlow (by decide)
  all_goals decide

namespace Utf8

variable {rest : List UInt8}

/-- A character begins with an ASCII byte. -/
theorem leads_of_ascii {n : Nat} (hn : 0 < n) (hascii : ∀ b ∈ rest.take n, b < 0x80) :
    Leads rest := by
  obtain ⟨m, rfl⟩ := Nat.exists_eq_succ_of_ne_zero (Nat.ne_of_gt hn)
  cases rest with
  | nil => exact leads_nil
  | cons b tail => exact leads_of_head? rfl (hascii b List.mem_cons_self)

/-- A character begins behind a run of name bytes. -/
theorem leads_behind_run (rest : List UInt8) :
    Leads (rest.drop (rest.takeWhile Byte.isName).length) := by
  intro b hb
  have hrun := Scan.takeWhile_behind_run Byte.isName rest
  obtain ⟨tail, htail⟩ := List.head?_eq_some_iff.mp hb
  rw [htail] at hrun
  rw [Bool.eq_false_iff]
  intro hcontinues
  rw [List.takeWhile_cons_of_pos (Byte.isName_of_continuation hcontinues)] at hrun
  cases hrun

end Utf8

/-! ## 2. Branches

Where raw text may stand, by the schema: in the text of a branch or in a name. -/

namespace Branch

variable {branch : Branch} {nesting : Bool}

/-- Raw text stands in the text of a branch, or it is part of a name. -/
theorem text_or_name_of_raw (h : branch.holds nesting (.leaf .raw) = true) :
    branch.isText = true ∨ branch.isName = true := by
  cases branch with
  | quoted | url | comment => exact Or.inl rfl
  | identifier | hash => exact Or.inr rfl
  | _ => cases h

/-- What a hash has gathered does not matter. -/
theorem Alike.isText_eq {a b : Branch} (h : a.Alike b) : a.isText = b.isText := by
  cases h <;> rfl

/-- No name stands in the text of a branch. -/
theorem not_name_of_isText (htext : branch.isText = true) {inner : Branch}
    (h : branch.holds nesting (.branch inner) = true) : inner.isName = false := by
  cases branch with
  | comment form => cases form <;> cases inner <;> first | rfl | cases h
  | quoted quote => cases inner <;> first | rfl | cases h
  | url => cases inner <;> first | rfl | cases h
  | _ => cases htext

end Branch

/-- What closes a branch is ASCII. -/
theorem Ends.ascii {dialect : Dialect} {branch : Branch} {last : Option Kind} {rest : List UInt8}
    {valid : Bool} {n : Nat} (h : Ends dialect branch last rest valid n) :
    ∀ b ∈ rest.take n, b < 0x80 := by
  cases h with
  | closer own ahead =>
    rw [← List.prefix_iff_eq_take.mp ahead]
    refine Byte.ascii_of_all ?_
    cases branch with
    | group bracket =>
      obtain rfl := Option.some.inj own
      cases bracket <;> decide
    | quoted quote =>
      obtain rfl := Option.some.inj own
      cases quote <;> decide
    | url =>
      obtain rfl := Option.some.inj own
      decide
    | comment form =>
      cases form with
      | block =>
        obtain rfl := Option.some.inj own
        decide
      | line => cases own
    | _ => cases own
  | broken plain ahead => exact Escape.ascii_of_newlineLength? ahead
  | line ahead => exact Escape.ascii_of_newlineLength? ahead
  | _ => exact List.forall_mem_nil _

/-- The text of a branch ends where a character begins. -/
theorem Ends.leads {dialect : Dialect} {branch : Branch} {last : Option Kind} {rest : List UInt8}
    {valid : Bool} {n : Nat} (h : Ends dialect branch last rest valid n)
    (htext : branch.isText = true) : Utf8.Leads rest := by
  have hascii := h.ascii
  cases h with
  | closer own ahead =>
    refine Utf8.leads_of_ascii ?_ hascii
    cases branch with
    | comment form =>
      cases form with
      | block =>
        obtain rfl := Option.some.inj own
        decide
      | line => cases own
    | quoted | url =>
      obtain rfl := Option.some.inj own
      exact Nat.one_pos
    | _ => cases htext
  | broken plain ahead => exact Utf8.leads_of_ascii (Escape.newlineLength?_pos ahead).1 hascii
  | line ahead => exact Utf8.leads_of_ascii (Escape.newlineLength?_pos ahead).1 hascii
  | fragment hfragment =>
    cases branch with
    | quasi | annotation => cases htext
    | _ => cases hfragment
  | identifier => cases htext
  | hash => cases htext
  | _ => exact Utf8.leads_nil

namespace Scan

variable {scope : Scope} {state : State} {view next : View} {nesting : Bool}

/-! ## 3. Raw text goes on

If raw text is pending, what is raw joins it, so a leaf of raw text that begins in the text of a
branch begins behind something else. -/

/-- **In the text of a branch, raw text does not begin where raw text goes on.** -/
theorem readNext_not_raw (hpending : state.frame.pending = some (.leaf .raw))
    (htext : state.frame.branch.isText = true) :
    state.view.Adds (· ≠ .leaf .raw) (readNext scope state).view := by
  have hopens : ∀ branch, Kind.branch branch ≠ .leaf .raw := fun _ h => by cases h
  have hescape : ∀ escape, Kind.leaf (.escape escape) ≠ .leaf .raw := fun _ h => by cases h
  have hblank : Kind.leaf .blank ≠ .leaf .raw := fun h => by cases h
  have hraw : ∀ after, readRaw scope state = some after →
      state.view.Adds (· ≠ .leaf .raw) after.view := by
    intro after h
    rw [readRaw, hpending] at h
    cases h
    exact adds_of_marks rfl
  have hquasi : ∀ after, readQuasiOpening scope state = some after →
      state.view.Adds (· ≠ .leaf .raw) after.view := by
    intro after h
    obtain ⟨entry, -, rfl⟩ := Option.map_eq_some_iff.mp h
    exact openBranch_adds (hopens _)
  refine findSome?_adds ?_
  -- by branches; among the readers of each, only the last one takes raw text, and it makes no mark
  cases hbranch : state.frame.branch with
  | quoted quote =>
    have hreaders : readersOf state.context = readersOf .double := by
      rw [State.context, hbranch]
      cases quote <;> rfl
    rw [hreaders]
    simp only [readersOf, List.forall_mem_cons]
    exact ⟨fun _ => readEscape_adds (fun _ => hescape _),
      fun _ => readContinuation_adds (hescape _), hquasi, fun _ => readQuotedClosing_adds, hraw,
      List.forall_mem_nil _⟩
  | url =>
    rw [State.context, hbranch]
    simp only [Branch.context, readersOf, List.forall_mem_cons]
    exact ⟨fun _ => readEscape_adds (fun _ => hescape _),
      fun _ => readContinuation_adds (hescape _), fun _ => readBlank_adds hblank,
      fun _ => readUrlComment_adds (fun _ => hopens _),
      fun _ => readQuotedOpening_adds (fun _ => hopens _), hquasi,
      fun _ => readUrlClosing_adds, hraw, List.forall_mem_nil _⟩
  | comment form =>
    cases form with
    | block =>
      rw [State.context, hbranch]
      simp only [Branch.context, readersOf, List.forall_mem_cons]
      exact ⟨fun _ => readBlockOpening_adds (fun _ => hopens _),
        fun _ => readBlockClosing_adds, hquasi, hraw, List.forall_mem_nil _⟩
    | line =>
      rw [State.context, hbranch]
      simp only [Branch.context, readersOf, List.forall_mem_cons]
      exact ⟨hquasi, fun _ => readLineClosing_adds, hraw, List.forall_mem_nil _⟩
  | _ =>
    rw [hbranch] at htext
    cases htext

/-! ## 4. Turns

What the earlier modules say of a turn, gathered in one structure, so that the invariant below is a
case analysis on steps. -/

/-- The child read last may stand in its branch. -/
def View.Kept (nesting : Bool) (view : View) : Prop :=
  ∀ kind ∈ view.frame.pending, view.frame.branch.holds nesting kind = true

/-- What is read last was added, and what is added may stand there. -/
theorem View.Kept.step (h : view.Kept nesting) (horderly : view.Orderly nesting)
    (hadds : view.Adds (view.Fits nesting) next) (hstep : Step scope view next) :
    next.Kept nesting := by
  cases hstep with
  | leaf ahead positive alike sound =>
    rintro _ ⟨⟩
    exact alike.holds_eq ▸ (hadds _ _ rfl rfl).held
  | grow => exact h
  | opened => exact nofun
  | closed outer alike ends complete =>
    rintro _ ⟨⟩
    have hchain := horderly.chain
    rw [outer, List.isChain_cons_cons] at hchain
    exact alike.held_eq _ ▸ hchain.1
  | halted => exact h

/-- Raw text goes on in the text of a branch. -/
def View.InRaw (view : View) : Prop :=
  view.frame.pending = some (.leaf .raw) ∧ view.frame.branch.isText = true

/-- What is known of a turn. -/
structure Turn (dialect : Dialect) (view next : View) : Prop where
  fits : view.Adds (view.Fits dialect.extendedComments) next
  takes : view.Takes dialect next
  begins : view.Begins dialect next
  leaves : view.Leaves dialect next
  name : view.frame.branch.isName = true → view.rest ≠ [] → NameTurn view next
  raw : view.InRaw → view.Adds (· ≠ .leaf .raw) next

/-- **What the readers do in a turn.** -/
theorem readNext_turn (hmade : scope.fragments.Made)
    (horderly : state.view.Orderly scope.dialect.extendedComments)
    (houter : state.frame.branch ≠ .root → state.outer ≠ []) :
    Turn scope.dialect state.view (readNext scope state).view where
  fits := readNext_fits hmade horderly.spelled horderly.outer_ne_nil
  takes := readNext_takes_leaf scope state
  begins := readNext_begins_branch scope hmade
  leaves := readNext_leaves scope houter
  name := fun hname _ => readNext_nameTurn scope hname
  raw := fun hraw => readNext_not_raw hraw.1 hraw.2

/-- At the end of the input nothing is read. -/
theorem Step.turn_of_nil (h : Step scope view next) (hrest : view.rest = []) :
    Turn scope.dialect view next where
  fits := h.adds_of_nil hrest
  takes := takes_of_adds (h.adds_of_nil hrest)
  begins := h.adds_of_nil hrest
  leaves := h.leaves_of_nil hrest
  name := fun _ ahead => absurd hrest ahead
  raw := fun _ => h.adds_of_nil hrest

/-! ## 5. Where a scan stands

The marks are part of the invariant because they are where nodes begin; where they end is where the
next mark stands, or the end of the input. -/

/-- A character begins where the scan is, or raw text goes on there; and one begins at each mark. -/
structure View.Whole (input : List UInt8) (view : View) : Prop where
  here : Utf8.Leads view.rest ∨ view.InRaw
  marks : ∀ mark ∈ view.marks, Utf8.Leads (input.drop mark.place.byte)

namespace View.Whole

variable {input : List UInt8} {dialect : Dialect}

/-- A leaf begins where a character does. -/
theorem leads_of_leaf (h : view.Whole input) (hturn : Turn dialect view next) {leaf : Leaf}
    {valid : Bool} {place : Position} (hmarks : next.marks = .leaf leaf valid place :: view.marks) :
    Utf8.Leads view.rest := by
  refine h.here.elim id fun hin => ?_
  cases hgrows : (Kind.leaf leaf).grows with
  | false =>
    obtain ⟨n, -, htakes⟩ := hturn.takes leaf valid place hmarks
    obtain ⟨b, hb, hleads⟩ := htakes.exists_head hgrows
    exact Utf8.leads_of_head? hb (Byte.of_leads hleads).1
  | true =>
    have hfits := hturn.fits _ _ hmarks rfl
    cases leaf with
    | raw => exact absurd rfl (hturn.raw hin _ _ hmarks rfl)
    | unexpected =>
      have htext := hin.2
      rcases Branch.isOuter_of_holds hfits.held with houter | ⟨bracket, houter⟩ <;>
      · rw [houter] at htext
        cases htext
    | _ => cases hgrows

/-- A branch begins where a character does. -/
theorem leads_of_opened (h : view.Whole input) (hturn : Turn dialect view next) {branch : Branch}
    {place : Position} (hmarks : next.marks = .opened branch place :: view.marks) :
    Utf8.Leads view.rest := by
  refine h.here.elim id fun hin => ?_
  have hname := Branch.not_name_of_isText hin.2 (hturn.fits _ _ hmarks rfl).held
  have hbegins : branch.Begins dialect view.rest := hturn.begins _ _ hmarks rfl branch rfl
  obtain ⟨b, hb, hascii⟩ := hbegins.head_ascii hname
  exact Utf8.leads_of_head? hb hascii

/-- A branch ends where a character begins. -/
theorem leads_of_closed (h : view.Whole input) {branch : Branch} {valid : Bool} {n : Nat}
    (alike : view.frame.branch.Alike branch)
    (ends : Ends dialect branch view.frame.pending view.rest valid n) : Utf8.Leads view.rest := by
  refine h.here.elim id fun hin => ends.leads ?_
  rw [← alike.isText_eq]
  exact hin.2

/-- Behind ASCII bytes a character begins, if one began before them. -/
theorem leads_drop (htext : Utf8.IsText input) (hrest : view.rest = input.drop view.position.byte)
    (hleads : Utf8.Leads view.rest) {n : Nat} (hascii : ∀ b ∈ view.rest.take n, b < 0x80) :
    Utf8.Leads (view.rest.drop n) := by
  rcases Nat.eq_zero_or_pos n with rfl | hn
  · exact hleads
  · rw [hrest] at hascii ⊢
    rw [List.drop_drop]
    exact htext.leads_behind hn hascii

/-- A byte that becomes unexpected, in a leaf of its own or not, is ASCII. -/
theorem of_unexpected (hturn : Turn dialect view next)
    (hheld : view.frame.branch.holds nesting (.leaf .unexpected) = true)
    (hpending : next.frame.pending = some (.leaf .unexpected)) :
    (∀ b ∈ view.rest.take 1, b < 0x80) ∧ next.rest = view.rest.drop 1 := by
  have hleaves := hturn.leaves
  rw [View.Leaves, hpending] at hleaves
  have hodd : view.frame.branch.isNarrow = false ∧
      (view.frame.branch.Leaves dialect view.rest →
        ∀ b ∈ view.rest.head?, view.frame.branch.isStray dialect b = true) := by
    rcases Branch.isOuter_of_holds hheld with houter | ⟨bracket, houter⟩ <;>
    · rw [houter]
      exact ⟨rfl, id⟩
  obtain ⟨hleft, hone⟩ := hleaves hodd.1 rfl
  refine ⟨fun b hb => ?_, hone⟩
  cases hahead : view.rest with
  | nil =>
    rw [hahead] at hb
    cases hb
  | cons c tail =>
    rw [hahead] at hb
    obtain rfl := List.mem_singleton.mp hb
    have hstray := hodd.2 hleft b (by rw [hahead]; rfl)
    rw [Branch.isStray, Bool.and_eq_true, Bool.and_eq_true] at hstray
    exact Byte.ascii_of_isOdd hstray.1.1

/-- **Behind a leaf a character begins**, or raw text goes on. -/
theorem behind_leaf (htext : Utf8.IsText input) (hrest : view.rest = input.drop view.position.byte)
    (hleads : Utf8.Leads view.rest) {leaf : Leaf} {valid : Bool} {branch : Branch} {n : Nat}
    (ahead : view.rest ≠ []) (alike : view.frame.branch.Alike branch)
    (hturn : Turn dialect view ((view.addLeaf leaf valid branch).consume scope n)) :
    Utf8.Leads (view.rest.drop n) ∨
      ((view.addLeaf leaf valid branch).consume scope n).InRaw := by
  have hheld := (hturn.fits _ _ rfl rfl).held
  -- a leaf that does not grow is ASCII or a whole character; raw text goes on, or was a whole run
  cases hgrows : (Kind.leaf leaf).grows with
  | false =>
    refine Or.inl ?_
    obtain ⟨m, hsame, htakes⟩ := hturn.takes leaf valid view.position rfl
    change view.rest.drop n = view.rest.drop m at hsame
    rw [hsame]
    rcases htakes.ascii hgrows with hascii | ⟨tail, reading, hahead, rfl, hliteral⟩
    · exact leads_drop htext hrest hleads hascii
    · cases tail with
      | nil => cases hliteral
      | cons lead more =>
        rw [Escape.readLiteral?] at hliteral
        split at hliteral
        · cases hliteral
        · cases hliteral
          rw [hrest] at hahead ⊢
          rw [List.drop_drop, Nat.add_comm (Utf8.sequenceLength lead)]
          exact htext.leads_behind_escaped hahead
  | true =>
    cases leaf with
    | raw =>
      rcases Branch.text_or_name_of_raw hheld with hin | hname
      · exact Or.inr ⟨rfl, alike.isText_eq.symm.trans hin⟩
      · refine Or.inl ?_
        have hrun : view.rest.drop n = _ := (hturn.name hname ahead).run valid view.position rfl
        rw [hrun]
        exact Utf8.leads_behind_run view.rest
    | unexpected =>
      obtain ⟨hascii, hone⟩ := of_unexpected hturn hheld rfl
      change view.rest.drop n = view.rest.drop 1 at hone
      rw [hone]
      exact Or.inl (leads_drop htext hrest hleads hascii)
    | _ => cases hgrows

/-- **Every turn keeps a scan of a text whole.** -/
theorem step (h : view.Whole input) (htext : Utf8.IsText input)
    (hrest : view.rest = input.drop view.position.byte)
    (hkept : view.Kept nesting) (hturn : Turn scope.dialect view next)
    (hstep : Step scope view next) : next.Whole input := by
  have hmark : ∀ mark : Mark, mark.place = view.position → Utf8.Leads view.rest →
      ∀ other ∈ mark :: view.marks, Utf8.Leads (input.drop other.place.byte) := by
    rintro mark hplace hleads
    rw [List.forall_mem_cons, hplace, ← hrest]
    exact ⟨hleads, h.marks⟩
  cases hstep with
  | @leaf leaf valid branch n ahead positive alike sound =>
    have hleads := h.leads_of_leaf hturn rfl
    exact ⟨behind_leaf htext hrest hleads ahead alike hturn, hmark _ rfl hleads⟩
  | grow ahead run =>
    refine ⟨?_, h.marks⟩
    rcases run with hraw | hunexpected
    · rcases Branch.text_or_name_of_raw (hkept _ hraw) with hin | hname
      · exact Or.inr ⟨hraw, hin⟩
      · -- in a name nothing is taken without a mark
        have hstill : view.rest.drop 1 = view.rest := (hturn.name hname ahead).still rfl
        have hlength := congrArg List.length hstill
        have hpositive := List.length_pos_iff.mpr ahead
        rw [List.length_drop] at hlength
        omega
    · obtain ⟨hascii, -⟩ := of_unexpected hturn (hkept _ hunexpected) hunexpected
      have hleads := Utf8.leads_of_ascii Nat.one_pos hascii
      exact Or.inl (leads_drop htext hrest hleads hascii)
  | @opened branch ahead proper fits inside begins =>
    have hleads := h.leads_of_opened hturn rfl
    have hbegins : branch.Begins scope.dialect view.rest := hturn.begins _ _ rfl rfl branch rfl
    exact ⟨Or.inl (leads_drop htext hrest hleads hbegins.opener_ascii), hmark _ rfl hleads⟩
  | closed outer alike ends complete =>
    have hleads := h.leads_of_closed alike ends
    exact ⟨Or.inl (leads_drop htext hrest hleads ends.ascii), hmark _ rfl hleads⟩
  | halted => exact ⟨h.here, h.marks⟩

end View.Whole
end Scan
end StyleLex
