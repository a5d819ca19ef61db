/-
# What items are read of

A leaf is what a reader makes of the first bytes of what is ahead (`Leaf.Takes`), and it covers as
many bytes as the reader takes.  Raw text in a name is a whole run of name bytes, and a name ends
only where its text does not go on.  A turn of the scan keeps to this (`readNext_takes`), and a leaf
that grows is of no other kind than raw or unexpected bytes, so at the end every item that was read
says what stands in the source at its place (`Lexer.items_read`).

The steps of a scan say that a leaf has bytes, and not which ones; the layout says where it stands.
Here the two are joined with the reader that made the leaf, so that a finished leaf can be read
again: what its reader finds at its first byte is the leaf, and the number of bytes that it takes is
its length.  Numbers, escapes, separators and markers are known by their leaves in this way.

Raw and unexpected bytes are left open, for their leaves grow.  Inside a name they do not: a run of
name bytes is taken at once, and this is what `WholeRun` keeps.
-/
import StyleLex.Proofs.Scan.Hashing
import StyleLex.Proofs.Scan.Splitting
import StyleLex.Proofs.Tiling

namespace StyleLex

/-! ## 1. Leaves

One case for each reader of leaves, with what the reader asked. -/

/-- `leaf.Takes dialect rest n`: with `rest` ahead, the leaf is read of `n` bytes.  Raw and
unexpected bytes join a leaf of their kind, so these may be of any length. -/
inductive Leaf.Takes (dialect : Dialect) (rest : List UInt8) : Leaf → Nat → Prop where
  | numeric {numeral : Numeral} {n : Nat}
      (read : Numeral.read? dialect.extendedNumbers rest = some (numeral, n)) :
      Takes dialect rest (.numeric numeral) n
  | separator {b : UInt8} (ahead : rest.head? = some b) (separates : Byte.isSeparator b = true) :
      Takes dialect rest (.separator b) 1
  | operator {b : UInt8} (ahead : rest.head? = some b) (operates : Byte.isOperator b = true) :
      Takes dialect rest (.operator b) 1
  | blank (ahead : rest.takeWhile Byte.isBlank ≠ []) :
      Takes dialect rest .blank (rest.takeWhile Byte.isBlank).length
  | cdx {marker : CdxMarker} (enabled : dialect.standardCdx = true)
      (ahead : Utf8.encode marker.text <+: rest) :
      Takes dialect rest (.cdx marker) (Utf8.encode marker.text).length
  | escape {reading : Escape.Reading} (read : Escape.read? dialect rest = some reading) :
      Takes dialect rest (.escape ⟨reading.codepoint⟩) reading.length
  | continuation {n : Nat} (read : Escape.continuationLength? rest = some n) :
      Takes dialect rest (.escape ⟨none⟩) n
  | raw {n : Nat} : Takes dialect rest .raw n
  | unexpected {n : Nat} : Takes dialect rest .unexpected n

namespace Scan

variable {scope : Scope} {state after : State} {view next : View}

/-! ## 2. Readers of leaves

For each reader of a leaf there is a lemma `…_takes`.  A reader that begins a branch, or makes no
mark, has nothing to show, and so the readers of branches are settled together by what they add
(`takes_of_adds`). -/

/-- If a leaf is begun, the bytes that are taken are those that it is read of. -/
def View.Takes (dialect : Dialect) (view next : View) : Prop :=
  ∀ leaf valid start, next.marks = .leaf leaf valid start :: view.marks →
    ∃ n, next.rest = view.rest.drop n ∧ leaf.Takes dialect view.rest n

/-- A step that adds branches only begins no leaf. -/
theorem takes_of_adds {dialect : Dialect}
    (h : view.Adds (fun kind => kind.isBranch = true) next) : view.Takes dialect next := by
  intro leaf valid start hmarks
  cases h _ _ hmarks rfl

/-- A step without a mark begins no leaf. -/
theorem takes_of_marks {dialect : Dialect} (h : next.marks = view.marks) :
    view.Takes dialect next := takes_of_adds (adds_of_marks h)

/-- A step that begins a leaf has to say what it is read of. -/
theorem takes_of_mark {dialect : Dialect} {leaf : Leaf} {valid : Bool} {start : Position} {n : Nat}
    (hmarks : next.marks = .leaf leaf valid start :: view.marks)
    (hrest : next.rest = view.rest.drop n) (h : leaf.Takes dialect view.rest n) :
    view.Takes dialect next := by
  intro other flag place hother
  rw [hmarks, List.cons.injEq, Mark.leaf.injEq] at hother
  obtain ⟨⟨rfl, -, -⟩, -⟩ := hother
  exact ⟨n, hrest, h⟩

/-- The usual form of such a step. -/
theorem takeLeaf_takes {dialect : Dialect} {leaf : Leaf} {n : Nat}
    (h : leaf.Takes dialect state.rest n) :
    state.view.Takes dialect (state.takeLeaf scope leaf n).view :=
  takes_of_mark rfl rfl h

theorem readBlank_takes (h : readBlank scope state = some after) :
    state.view.Takes scope.dialect after.view := by
  unfold readBlank at h
  split at h
  · cases h
  · rename_i hrun
    cases h
    exact takeLeaf_takes (.blank hrun)

theorem readNumeral_takes (h : readNumeral scope state = some after) :
    state.view.Takes scope.dialect after.view := by
  obtain ⟨⟨numeral, n⟩, hread, rfl⟩ := Option.map_eq_some_iff.mp h
  exact takeLeaf_takes (.numeric hread)

theorem readSeparator_takes (h : readSeparator scope state = some after) :
    state.view.Takes scope.dialect after.view := by
  unfold readSeparator at h
  split at h
  · rename_i b tail hrest
    split at h
    · rename_i hseparates
      cases h
      exact takeLeaf_takes (.separator (by rw [hrest]; rfl) hseparates)
    · cases h
  · cases h

theorem readOperator_takes (h : readOperator scope state = some after) :
    state.view.Takes scope.dialect after.view := by
  unfold readOperator at h
  split at h
  · rename_i b tail hrest
    split at h
    · rename_i hoperates
      cases h
      exact takeLeaf_takes (.operator (by rw [hrest]; rfl) hoperates)
    · cases h
  · cases h

theorem readCdx_takes (h : readCdx scope state = some after) :
    state.view.Takes scope.dialect after.view := by
  unfold readCdx at h
  split at h
  · rename_i henabled
    obtain ⟨marker, -, hmarker⟩ := List.exists_of_findSome?_eq_some h
    dsimp only at hmarker
    split at hmarker
    · rename_i hfront
      cases hmarker
      exact takeLeaf_takes (.cdx henabled (List.isPrefixOf_iff_prefix.mp hfront))
    · cases hmarker
  · cases h

/-- An escape is taken whole, noted or not. -/
theorem escaped_takes {reading : Escape.Reading}
    (h : Escape.read? scope.dialect state.rest = some reading) :
    state.view.Takes scope.dialect (state.escaped scope reading).view := by
  rw [view_escaped]
  exact takes_of_mark rfl rfl (.escape h)

theorem readEscape_takes (h : readEscape scope state = some after) :
    state.view.Takes scope.dialect after.view := by
  obtain ⟨reading, hread, rfl⟩ := Option.map_eq_some_iff.mp h
  exact escaped_takes hread

theorem readContinuation_takes (h : readContinuation scope state = some after) :
    state.view.Takes scope.dialect after.view := by
  obtain ⟨n, hread, rfl⟩ := Option.map_eq_some_iff.mp h
  exact takeLeaf_takes (.continuation hread)

theorem readRaw_takes (h : readRaw scope state = some after) :
    state.view.Takes scope.dialect after.view := by
  unfold readRaw at h
  split at h
  · cases h
    exact takes_of_marks rfl
  · cases h
    exact takeLeaf_takes .raw

theorem readUnexpected_takes (h : readUnexpected scope state = some after) :
    state.view.Takes scope.dialect after.view := by
  have hview : after.view =
      ((if state.frame.pending == some (.leaf .unexpected) then state
        else state.addLeaf .unexpected false).consume scope 1).view := by
    unfold readUnexpected at h
    cases h
    split
    · rfl
    · split <;> rfl
  rw [hview]
  split
  · exact takes_of_marks rfl
  · exact takes_of_mark rfl rfl .unexpected

theorem readNameRun_takes (h : readNameRun scope state = some after) :
    state.view.Takes scope.dialect after.view := by
  unfold readNameRun at h
  split at h
  · cases h
  · cases h
    exact takeLeaf_takes .raw

/-- What a hash gathers changes neither marks nor what is ahead. -/
theorem mapHash_takes {dialect : Dialect} {change : Hash → Hash}
    (h : state.view.Takes dialect after.view) :
    state.view.Takes dialect (after.mapHash change).view := by
  intro leaf valid start hmarks
  obtain ⟨n, hrest, htakes⟩ := h leaf valid start ((marks_mapHash change after).symm.trans hmarks)
  exact ⟨n, (rest_mapHash change after).1.trans hrest, htakes⟩

theorem readHashEscape_takes (h : readHashEscape scope state = some after) :
    state.view.Takes scope.dialect after.view := by
  obtain ⟨reading, -, h⟩ := Option.bind_eq_some_iff.mp h
  obtain ⟨escaped, hescaped, rfl⟩ := Option.map_eq_some_iff.mp h
  exact mapHash_takes (readEscape_takes hescaped)

theorem readHashRun_takes (h : readHashRun scope state = some after) :
    state.view.Takes scope.dialect after.view := by
  obtain ⟨run, hrun, rfl⟩ := Option.map_eq_some_iff.mp h
  exact mapHash_takes (readNameRun_takes hrun)

theorem readQuasiOpening_takes (h : readQuasiOpening scope state = some after) :
    state.view.Takes scope.dialect after.view := by
  obtain ⟨form, -, rfl⟩ := Option.map_eq_some_iff.mp h
  exact takes_of_adds (openBranch_adds rfl)

theorem readAnnotationOpening_takes (h : readAnnotationOpening scope state = some after) :
    state.view.Takes scope.dialect after.view := by
  obtain ⟨form, -, rfl⟩ := Option.map_eq_some_iff.mp h
  exact takes_of_adds (openBranch_adds rfl)

/-! ## 3. Turns

In a name a turn is one of three things, and a run is one of them.  `NameTurn` keeps what is needed
of that: raw text is a whole run, and nothing is taken without a mark. -/

/-- **A turn that begins a leaf takes the bytes that the leaf is read of.** -/
theorem readNext_takes_leaf (scope : Scope) (state : State) :
    state.view.Takes scope.dialect (readNext scope state).view := by
  have hother : ∀ {after : State},
      state.view.Adds (fun kind => kind.isBranch = true) after.view →
      state.view.Takes scope.dialect after.view := takes_of_adds
  refine readNext_of_readers (P := fun after => state.view.Takes scope.dialect after.view)
    (takes_of_marks rfl) ?_
  simp only [readers, List.forall_mem_cons]
  exact ⟨fun _ => readBlank_takes, fun _ => readNumeral_takes, fun _ => readCdx_takes,
    fun _ => readSeparator_takes, fun _ => readOperator_takes, fun _ => readEscape_takes,
    fun _ => readContinuation_takes, fun _ => readRaw_takes, fun _ => readUnexpected_takes,
    fun _ h => hother (readGroupOpening_adds (fun _ => rfl) h),
    fun _ h => hother (readGroupClosing_adds h),
    fun _ h => hother (readQuotedOpening_adds (fun _ => rfl) h),
    fun _ h => hother (readQuotedClosing_adds h),
    fun _ h => hother (readUrlOpening_adds rfl h), fun _ h => hother (readUrlClosing_adds h),
    fun _ h => hother (readCommentOpening_adds (fun _ => rfl) h),
    fun _ h => hother (readUrlComment_adds (fun _ => rfl) h),
    fun _ h => hother (readBlockOpening_adds (fun _ => rfl) h),
    fun _ h => hother (readBlockClosing_adds h), fun _ h => hother (readLineClosing_adds h),
    fun _ => readQuasiOpening_takes, fun _ => readAnnotationOpening_takes,
    fun _ h => hother (readFragmentClosing_adds h),
    fun _ h => hother (readIdentifierOpening_adds rfl h),
    fun _ h => hother (readIdentifierClosing_adds h), fun _ => readNameRun_takes,
    fun _ h => hother (readHashOpening_adds (fun _ _ => rfl) h), fun _ => readHashEscape_takes,
    fun _ => readHashRun_takes, fun _ h => hother (readHashClosing_adds_none h),
    List.forall_mem_nil _⟩

/-- What a turn in a name does to raw text and to the bytes ahead. -/
structure NameTurn (view next : View) : Prop where
  /-- Raw text is a whole run of name bytes. -/
  run : ∀ valid start, next.marks = .leaf .raw valid start :: view.marks →
    next.rest = view.rest.drop (view.rest.takeWhile Byte.isName).length
  /-- Without a mark nothing is taken, so no leaf grows. -/
  still : next.marks = view.marks → next.rest = view.rest

/-- The turns in a hash are listed by `HashStep`, and a run is one of the cases. -/
theorem HashStep.nameTurn {hash : Hash} (h : HashStep scope hash view next) :
    NameTurn view next := by
  refine ⟨fun valid start hmarks => ?_, fun hmarks => ?_⟩
  · cases h with
    | escape => cases (List.cons.inj hmarks).1
    | run => rfl
    | closed => cases (List.cons.inj hmarks).1
    | halted => exact absurd hmarks.symm (List.cons_ne_self _ _)
  · cases h with
    | escape | run | closed => exact absurd hmarks (List.cons_ne_self _ _)
    | halted => rfl

/-- In an identifier the readers are asked one after the other. -/
theorem readIdentifier_nameTurn {value : String}
    (hbranch : state.frame.branch = .identifier value) :
    NameTurn state.view (readNext scope state).view := by
  have hcontext : state.context = .identifier := congrArg Branch.context hbranch
  rw [readNext, hcontext, readersOf, findSome?_or, findSome?_or, findSome?_or]
  -- an escape, a run, the end of the identifier, or a halt; only the second makes raw text
  cases hescape : readEscape scope state with
  | some after =>
    obtain ⟨reading, -, rfl⟩ := Option.map_eq_some_iff.mp hescape
    show NameTurn state.view (state.escaped scope reading).view
    rw [view_escaped]
    refine ⟨fun _ _ hmarks => ?_, fun hmarks => absurd hmarks (List.cons_ne_self _ _)⟩
    cases (List.cons.inj hmarks).1
  | none =>
    cases hrun : readNameRun scope state with
    | some after =>
      unfold readNameRun at hrun
      split at hrun
      · cases hrun
      · cases hrun
        exact ⟨fun _ _ _ => rfl, fun hmarks => absurd hmarks (List.cons_ne_self _ _)⟩
    | none =>
      show NameTurn state.view ((readIdentifierClosing scope state).or none |>.getD state).view
      cases hclose : state.closeBranch? true with
      | some closed =>
        obtain ⟨around, further, -, hview⟩ := closeBranch?_eq_some hclose
        rw [readIdentifierClosing, hclose]
        show NameTurn state.view closed.view
        rw [hview]
        refine ⟨fun _ _ hmarks => ?_, fun hmarks => absurd hmarks (List.cons_ne_self _ _)⟩
        cases (List.cons.inj hmarks).1
      | none =>
        rw [readIdentifierClosing, hclose]
        exact ⟨fun _ _ hmarks => absurd hmarks.symm (List.cons_ne_self _ _), fun _ => rfl⟩

/-- **Raw text in a name is a whole run, and it does not grow.** -/
theorem readNext_nameTurn (scope : Scope) (hname : state.frame.branch.isName = true) :
    NameTurn state.view (readNext scope state).view := by
  cases hbranch : state.frame.branch with
  | identifier value => exact readIdentifier_nameTurn hbranch
  | hash hash => exact (readNext_hash scope hbranch).nameTurn
  | _ =>
    rw [hbranch] at hname
    cases hname

end Scan

/-! ## 4. Items

`Says` is about one item and the input at its place, so it stays true when the item is put into
another one.  While a leaf is pending it may still grow, so it is looked at as if it ended where the
scan is. -/

namespace Item

variable {dialect : Dialect} {input : List UInt8} {item : Item}

/-- Raw text that covers a whole run of name bytes. -/
def WholeRun (input : List UInt8) (item : Item) : Prop :=
  item.label.kind = .leaf .raw → item.label.span.stop.byte = item.label.span.start.byte +
    ((input.drop item.label.span.start.byte).takeWhile Byte.isName).length

/-- What an item says of the input at its place. -/
structure Says (dialect : Dialect) (input : List UInt8) (item : Item) : Prop where
  leaf : ∀ leaf, item.label.kind = .leaf leaf →
    ∃ n, leaf.Takes dialect (input.drop item.label.span.start.byte) n ∧
      item.label.span.stop.byte = min (item.label.span.start.byte + n) input.length
  name : ∀ branch, item.label.kind = .branch branch → branch.isName = true →
    ¬ Scan.NameAhead (input.drop item.label.span.stop.byte) ∧
      ∀ child ∈ item.children, Item.WholeRun input child

/-- An item and everything below it say what stands in the input. -/
def Read (dialect : Dialect) (input : List UInt8) (item : Item) : Prop :=
  ∀ sub ∈ item.subtrees, Item.Says dialect input sub

/-- It is enough to look at the item and at its children. -/
theorem read_iff : Item.Read dialect input item ↔
    Item.Says dialect input item ∧ ∀ child ∈ item.children, Item.Read dialect input child :=
  Rose.forall_mem_subtrees

/-- An item that may stand in a branch. -/
def ReadIn (dialect : Dialect) (input : List UInt8) (branch : Branch) (item : Item) : Prop :=
  Item.Read dialect input item ∧ (branch.isName = true → Item.WholeRun input item)

/-- What a hash has gathered does not matter. -/
theorem ReadIn.alike {branch other : Branch} (h : Item.ReadIn dialect input branch item)
    (alike : branch.Alike other) : Item.ReadIn dialect input other item :=
  ⟨h.1, fun hname => h.2 (alike.isName_eq.trans hname)⟩

/-- What is dropped says where one is. -/
theorem stop_eq_of_drop {a b n : Nat} (hb : b ≤ input.length)
    (h : input.drop b = (input.drop a).drop n) : b = min (a + n) input.length := by
  have hlength := congrArg List.length h
  rw [List.length_drop, List.length_drop, List.length_drop] at hlength
  omega

end Item

/-- A name takes nothing where it ends. -/
theorem Ends.of_name {dialect : Dialect} {branch : Branch} {last : Option Kind}
    {rest : List UInt8} {valid : Bool} {n : Nat} (h : Ends dialect branch last rest valid n)
    (hname : branch.isName = true) : n = 0 := by
  cases h with
  | closer own =>
    cases branch with
    | identifier | hash => cases own
    | _ => cases hname
  | broken | line => cases hname
  | _ => rfl

namespace Scan

variable {scope : Scope} {dialect : Dialect} {input : List UInt8} {view next : View}
  {start : Draft}

/-- What is complete in an open branch was read there, and so was the child read last, if it ends
here. -/
structure View.Reading (dialect : Dialect) (input : List UInt8) (start : Draft) (view : View) :
    Prop where
  frames : List.Forall₂
    (fun branch drafted => ∀ item ∈ drafted.done, Item.ReadIn dialect input branch item)
    ((view.frame :: view.outer).map (·.branch)) (view.draft start).frames
  loose : ∀ item ∈ (view.draft start).loose,
    Item.ReadIn dialect input view.frame.branch (Item.endAt view.position item)

namespace View.Reading

/-- Completing the pending child leaves the branches further out alone. -/
theorem outer (h : view.Reading dialect input start) (stop : Position) :
    List.Forall₂
      (fun branch drafted => ∀ item ∈ drafted.done, Item.ReadIn dialect input branch item)
      (view.outer.map (·.branch)) ((view.draft start).settle stop).outer := by
  rw [Draft.outer_settle]
  exact (List.forall₂_cons.mp h.frames).2

/-- It makes it a child of the innermost branch. -/
theorem settle (h : view.Reading dialect input start) {branch : Branch}
    (alike : view.frame.branch.Alike branch) :
    ∀ item ∈ ((view.draft start).settle view.position).frame.done,
      Item.ReadIn dialect input branch item := by
  intro item hitem
  rw [Draft.done_frame_settle, List.mem_append, List.mem_map] at hitem
  rcases hitem with hitem | ⟨last, hlast, rfl⟩
  · exact ((List.forall₂_cons.mp h.frames).1 item hitem).alike alike
  · exact (h.loose last hlast).alike alike

/-- A leaf that is begun says what it is read of. -/
theorem leaf (h : view.Reading dialect input start) (hlaid : view.Laid dialect input start)
    {leaf : Leaf} {valid : Bool} {branch : Branch} {n : Nat}
    (alike : view.frame.branch.Alike branch)
    (hnext : ((view.addLeaf leaf valid branch).consume scope n).Laid dialect input start)
    (htakes : view.Takes dialect ((view.addLeaf leaf valid branch).consume scope n))
    (hname : view.frame.branch.isName = true →
      NameTurn view ((view.addLeaf leaf valid branch).consume scope n)) :
    ((view.addLeaf leaf valid branch).consume scope n).Reading dialect input start := by
  refine ⟨?_, ?_⟩
  · rw [draft_consume, draft_addLeaf]
    exact .cons (h.settle alike) (h.outer _)
  · rw [draft_consume, draft_addLeaf]
    intro item hitem
    obtain rfl := List.mem_singleton.mp hitem
    obtain ⟨m, hrest, hleaf⟩ := htakes leaf valid view.position rfl
    rw [hnext.rest, hlaid.rest] at hrest
    rw [hlaid.rest] at hleaf
    refine ⟨Item.read_iff.mpr ⟨⟨fun other heq => ?_, nofun⟩, nofun⟩, fun hnamed heq => ?_⟩
    · cases heq
      exact ⟨m, hleaf, Item.stop_eq_of_drop hnext.within hrest⟩
    · cases heq
      have hrun := (hname (alike.isName_eq.trans hnamed)).run valid view.position rfl
      rw [hnext.rest, hlaid.rest] at hrun
      have hle := (List.takeWhile_prefix Byte.isName (l := input.drop view.position.byte)).length_le
      rw [List.length_drop] at hle
      have hwithin := hlaid.within
      refine (Item.stop_eq_of_drop hnext.within hrun).trans (Nat.min_eq_left ?_)
      omega

/-- A leaf that grows says nothing of its bytes. -/
theorem grow (h : view.Reading dialect input start) (hlaid : view.Laid dialect input start)
    (ahead : view.rest ≠ [])
    (run : view.frame.pending = some (.leaf .raw) ∨
      view.frame.pending = some (.leaf .unexpected))
    (hname : view.frame.branch.isName = false) :
    (view.consume scope 1).Reading dialect input start := by
  refine ⟨h.frames, fun item hitem => ?_⟩
  rw [draft_consume] at hitem
  have hlast := hlaid.last
  have hloose : (view.draft start).loose = [item] := by
    unfold Draft.loose at hitem ⊢
    rw [Option.mem_toList.mp hitem]
    rfl
  rw [Draft.done_frame_settle, hloose, List.map_singleton, List.getLast?_concat, Option.map_some,
    Item.kind_label_endAt] at hlast
  rw [hlast, Option.some.injEq, Option.some.injEq] at run
  obtain ⟨⟨id, kind, valid, span⟩, below⟩ := item
  obtain ⟨htold, hbelow⟩ := Item.read_iff.mp (h.loose _ hitem).1
  refine ⟨Item.read_iff.mpr ⟨⟨fun leaf hleaf => ?_, fun branch hbranch => ?_⟩, hbelow⟩,
    fun hnamed => absurd hnamed (Bool.eq_false_iff.mp hname)⟩
  · obtain ⟨n, -, hstop⟩ := htold.leaf leaf hleaf
    refine ⟨n + 1, ?_, ?_⟩
    · obtain rfl : kind = .leaf leaf := hleaf
      -- its length is not told by its kind, so one byte more is as good
      rcases run with hrun | hrun
      · cases hrun
        exact .raw
      · cases hrun
        exact .unexpected
    · have hmoved := View.byte_consume scope 1 view
      have hlength := List.length_pos_iff.mpr ahead
      have hrest := congrArg List.length hlaid.rest
      rw [List.length_drop] at hrest
      have hhere : view.position.byte = min (span.start.byte + n) input.length := hstop
      show (view.consume scope 1).position.byte = min (span.start.byte + (n + 1)) input.length
      omega
  · obtain rfl : kind = .branch branch := hbranch
    rcases run with hrun | hrun <;> cases hrun

/-- A branch that closes says where its text ends. -/
theorem closed (h : view.Reading dialect input start) (hlaid : view.Laid dialect input start)
    {branch : Branch} {valid : Bool} {n : Nat} {around : Frame} {further : List Frame}
    (outer : view.outer = around :: further) (alike : view.frame.branch.Alike branch)
    (ends : Ends dialect branch view.frame.pending view.rest valid n)
    (complete : branch.isName = true → ¬ NameAhead view.rest) :
    ((view.closeBranch branch valid around further).consume scope n).Reading dialect input
      start := by
  have houter := (List.forall₂_cons.mp h.frames).2
  rw [outer] at houter
  cases hdrafted : (view.draft start).outer with
  | nil =>
    rw [hdrafted] at houter
    cases houter
  | cons surround beyond =>
    rw [hdrafted] at houter
    have hdraft := draft_closed hdrafted branch valid around further scope n
    refine ⟨?_, ?_⟩
    · rw [hdraft]
      exact houter
    · rw [hdraft]
      intro item hitem
      obtain rfl := List.mem_singleton.mp hitem
      have hdone := h.settle alike
      refine ⟨Item.read_iff.mpr ⟨⟨nofun, fun closing heq hnamed => ?_⟩,
        fun child hchild => (hdone child hchild).1⟩, nofun⟩
      cases heq
      refine ⟨?_, fun child hchild => (hdone child hchild).2 hnamed⟩
      have hzero : n = 0 := ends.of_name hnamed
      subst hzero
      show ¬ NameAhead (input.drop view.position.byte)
      rw [← hlaid.rest]
      exact complete hnamed

/-- **Every turn keeps to what stands in the input.** -/
theorem step (h : view.Reading scope.dialect input start)
    (hlaid : view.Laid scope.dialect input start) (hready : view.Ready)
    (hstep : Step scope view next) (htakes : view.Takes scope.dialect next)
    (hname : view.frame.branch.isName = true → view.rest ≠ [] → NameTurn view next) :
    next.Reading scope.dialect input start := by
  have hnext := hlaid.step hready hstep
  cases hstep with
  | leaf ahead positive alike sound =>
    exact h.leaf hlaid alike hnext htakes fun hnamed => hname hnamed ahead
  | grow ahead run =>
    refine h.grow hlaid ahead run (Bool.eq_false_iff.mpr fun hnamed => ?_)
    -- in a name nothing is taken without a mark
    have hstill : view.rest.drop 1 = view.rest := (hname hnamed ahead).still rfl
    have hlength := congrArg List.length hstill
    have hpositive := List.length_pos_iff.mpr ahead
    rw [List.length_drop] at hlength
    omega
  | opened ahead proper fits inside begins =>
    refine ⟨?_, ?_⟩
    · rw [draft_consume, draft_openBranch]
      exact .cons nofun (.cons (h.settle (.refl _)) (h.outer _))
    · rw [draft_consume, draft_openBranch]
      nofun
  | closed outer alike ends complete => exact h.closed hlaid outer alike ends complete
  | halted => exact ⟨h.frames, h.loose⟩

end View.Reading
end Scan

/-! ## 5. Whole scans

For a whole source the two invariants, layout and reading, hold side by side until the end. -/

namespace Lexer

open Scan

/-- **Every item of a source says what stands there.** -/
theorem items_read (lexer : Lexer) (bytes : Array UInt8) :
    ∀ item ∈ lexer.items { bytes := bytes }, Item.Read lexer.dialect bytes.toList item := by
  have hstart : (initial .root { bytes := bytes }).view.Reading lexer.dialect bytes.toList
      (blank { bytes := bytes }) := ⟨.cons nofun .nil, nofun⟩
  obtain ⟨-, -, hreading⟩ := lexer.scan_preserves bytes hstart
    (fun state hready _ hlaid hstep h => h.step hlaid hready hstep (readNext_takes_leaf _ state)
      fun hname _ => readNext_nameTurn _ hname)
    fun _ _ hready hrest hlaid hstep h => h.step hlaid hready hstep
      (takes_of_adds (hstep.adds_of_nil hrest)) fun _ ahead => absurd hrest ahead
  exact fun item hitem => (hreading.settle (.refl _) item hitem).1

end Lexer

/-- **Every leaf of a tree is read of the bytes that it covers.** -/
theorem Lexer.leaf_takes (lexer : Lexer) {bytes : Array UInt8} {id : NodeId} {node : Node}
    {leaf : Leaf} (hnode : (lexer.tokenizeBytes bytes).tree.node? id = some node)
    (hkind : node.kind = .leaf leaf) :
    ∃ n, leaf.Takes lexer.dialect (bytes.toList.drop node.span.start.byte) n ∧
      node.span.stop.byte = min (node.span.start.byte + n) bytes.size ∧
      node.span.slice bytes = (bytes.toList.drop node.span.start.byte).take n := by
  have hshown := lexer.tokenizeBytes_shown bytes
  have hne : id ≠ Tree.root := by
    rintro rfl
    obtain ⟨root, hroot, hbranch, -⟩ := hshown.root
    rw [hnode, Option.some.injEq] at hroot
    rw [← hroot, hkind] at hbranch
    cases hbranch
  obtain ⟨item, hitem, -, hshows, -⟩ := hshown.exists_item hnode hne
  obtain ⟨top, htop, hin⟩ := Rose.mem_subtreesAll.mp hitem
  obtain ⟨n, htakes, hstop⟩ :=
    (lexer.items_read bytes top htop item hin).leaf leaf (hshows.label_leaf hkind)
  rw [← hshows.span] at htakes hstop
  refine ⟨n, htakes, hstop, ?_⟩
  rw [Span.slice, Array.toList_extract, List.extract_eq_take_drop, hstop, List.take_eq_take_iff,
    List.length_drop]
  omega

end StyleLex
