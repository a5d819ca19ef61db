/-
# Scans of brackets

Where there are no fragments, a scan of brackets has nothing but groups open.  These are the
brackets on the stack of a machine that reads the same bytes: an opener opens a group
(`View.Matches.opened`), the closer of the innermost group closes it (`View.Matches.closed`), and
any other closer is unexpected (`View.Matches.strayed`).  The log of the machine is what the items
note in the order in which they are complete (`Item.Notes`); an unexpected leaf notes each of its
bytes, for it grows with the strays.

The machine is the specification: it knows bytes, a stack and a log, and nothing of readers, frames
or spans.  Scan and machine go through the word together, a byte in a turn, and the relation between
them (`View.Matches`) has to say three things: they are at the same place, the open groups are the
brackets on the stack, and what the machine has logged is what the finished items note.  A group is
logged when it closes, so its items come before it, as its bytes do.

Strays are logged one by one but read as one leaf while they follow each other.  That is the only
place where an item changes after it has been noted (`Item.Notes.grow`).
-/
import StyleLex.Proofs.Scan.Inside
import StyleLex.Proofs.Scan.Reading
import StyleLex.Proofs.Scan.Splitting
import StyleLex.Proofs.Token.Matching

namespace StyleLex

open StyleLex.Bracket

/-! ## 1. What items note

`Notes` reads the log off the items.  The bracket around is passed down, since a verdict on a group
says in which group it stands. -/

namespace Item

/-- `Notes around items log`: the items are groups and unexpected leaves, and they note `log`.
Around them is the group that begins at `around`, or none. -/
inductive Notes : Option Nat → List Item → List Verdict → Prop where
  | nil {around : Option Nat} : Notes around [] []
  | unexpected {around : Option Nat} {front : List Item} {log : List Verdict} {id : NodeId}
      {span : Span} (before : Notes around front log)
      (proper : span.start.byte < span.stop.byte) :
      Notes around (front ++ [.node ⟨id, .leaf .unexpected, false, span⟩ []])
        (log ++ (List.range' span.start.byte span.length).map .stray)
  | group {around : Option Nat} {front below : List Item} {log inner : List Verdict}
      {id : NodeId} {bracket : Bracket} {valid : Bool} {span : Span}
      (before : Notes around front log) (inside : Notes (some span.start.byte) below inner) :
      Notes around (front ++ [.node ⟨id, .branch (.group bracket), valid, span⟩ below])
        (log ++ (inner ++
          [.matched ⟨bracket, span.start.byte, span.stop.byte, around, valid⟩]))

/-- An unexpected leaf that grows by a byte notes one more stray. -/
theorem Notes.grow {around : Option Nat} {front : List Item} {item : Item} {log : List Verdict}
    {stop stop' : Position} (h : Notes around (front ++ [Item.endAt stop item]) log)
    (hkind : item.label.kind = .leaf .unexpected) (hstop : stop'.byte = stop.byte + 1) :
    Notes around (front ++ [Item.endAt stop' item]) (log ++ [.stray stop.byte]) := by
  obtain ⟨⟨id, kind, valid, span⟩, below⟩ := item
  obtain rfl : kind = .leaf .unexpected := hkind
  generalize hitems :
    front ++ [Item.endAt stop (.node ⟨id, .leaf .unexpected, valid, span⟩ below)] = items at h
  cases h with
  | nil => exact absurd hitems (by simp)
  | group before inside =>
    obtain ⟨-, hlast⟩ := List.append_inj' hitems rfl
    cases List.singleton_inj.mp hlast
  | @unexpected _ front' log _ _ before proper =>
    obtain ⟨rfl, hlast⟩ := List.append_inj' hitems rfl
    cases List.singleton_inj.mp hlast
    have hproper : span.start.byte < stop.byte := proper
    have hlength : Span.length ⟨span.start, stop'⟩ = Span.length ⟨span.start, stop⟩ + 1 := by
      show stop'.byte - span.start.byte = stop.byte - span.start.byte + 1
      omega
    have hplace : span.start.byte + Span.length ⟨span.start, stop⟩ = stop.byte :=
      Nat.add_sub_of_le (Nat.le_of_lt hproper)
    have hfurther : span.start.byte < stop'.byte := by omega
    have hgrown : Notes around (front ++
        [.node ⟨id, .leaf .unexpected, false, ⟨span.start, stop'⟩⟩ []]) _ :=
      .unexpected before hfurther
    rw [hlength, List.range'_1_concat, hplace, List.map_append, ← List.append_assoc] at hgrown
    exact hgrown

end Item

/-! ## 2. Open groups

The stack of the machine, the frames of the scan and the frames of the draft are three lists of one
shape; `Stands` follows them at once, from the root outwards to the innermost group. -/

namespace Scan

/-- `Stands stack frames done log`: the open branches are the groups of the brackets on the stack,
and the root around them, and what is complete in them, from the outside in, notes the log. -/
inductive Stands : List Pending → List Frame → List (List Item) → List Verdict → Prop where
  | root {frame : Frame} {done : List Item} {log : List Verdict} (branch : frame.branch = .root)
      (noted : Item.Notes none done log) : Stands [] [frame] [done] log
  | group {top : Pending} {further : List Pending} {frame : Frame} {outer : List Frame}
      {done : List Item} {around : List (List Item)} {before log : List Verdict}
      (branch : frame.branch = .group top.bracket) (start : frame.start.byte = top.start)
      (surround : Stands further outer around before)
      (noted : Item.Notes (some top.start) done log) :
      Stands (top :: further) (frame :: outer) (done :: around) (before ++ log)

variable {stack : List Pending} {frame : Frame} {outer : List Frame} {done done' : List Item}
  {around : List (List Item)} {log : List Verdict}

/-- More in the innermost branch notes more. -/
theorem Stands.more (h : Stands stack (frame :: outer) (done :: around) log) (frame' : Frame)
    (hbranch : frame'.branch = frame.branch) (hstart : frame'.start = frame.start)
    {added : List Verdict}
    (hmore : ∀ log, Item.Notes (stack.head?.map Pending.start) done log →
      Item.Notes (stack.head?.map Pending.start) done' (log ++ added)) :
    Stands stack (frame' :: outer) (done' :: around) (log ++ added) := by
  cases h with
  | root branch noted => exact .root (hbranch.trans branch) (hmore _ noted)
  | group branch start surround noted =>
    rw [List.append_assoc]
    exact .group (hbranch.trans branch) (hstart ▸ start) surround (hmore _ noted)

variable {scope : Scope} {state after : State} {view : View} {dialect : Dialect}
  {input : List UInt8} {start : Draft} {machine : Machine} {bracket : Bracket} {b : UInt8}
  {rest : List UInt8}

/-- The scan stands where the machine does, with the same brackets open, and what is complete in
them notes the log. -/
structure View.Matches (start : Draft) (machine : Machine) (view : View) : Prop where
  place : view.position.byte = machine.place
  stands : Stands machine.stack (view.frame :: view.outer)
    (((view.draft start).settle view.position).frames.map (·.done)) machine.log

/-- The child read last is pending. -/
theorem View.Laid.exists_pending (h : view.Laid dialect input start) {kind : Kind}
    (hpending : view.frame.pending = some kind) :
    ∃ item, (view.draft start).pending = some item ∧ item.label.kind = kind := by
  have hlast := h.last
  rw [hpending, Draft.done_frame_settle] at hlast
  cases hloose : (view.draft start).pending with
  | none =>
    rw [Draft.loose_of_none hloose, h.open_ hloose] at hlast
    cases hlast
  | some item =>
    rw [Draft.loose_of_some hloose, List.map_singleton, List.getLast?_concat, Option.map_some,
      Item.kind_label_endAt, Option.some.injEq] at hlast
    exact ⟨item, rfl, hlast.symm⟩

namespace View.Matches

/-- An opener opens a group. -/
theorem opened (h : view.Matches start machine) (ahead : view.rest ≠ []) (bracket : Bracket) :
    ((view.openBranch (.group bracket)).consume scope 1).Matches start
      (machine.read bracket.opener) := by
  have hlength : 0 < view.rest.length := List.length_pos_iff.mpr ahead
  rw [Machine.read_opener]
  refine ⟨?_, ?_⟩
  · rw [View.byte_consume]
    show view.position.byte + min 1 view.rest.length = machine.place + 1
    rw [h.place, Nat.min_eq_left hlength]
  · rw [draft_consume, draft_openBranch, ← List.append_nil machine.log]
    refine .group rfl h.place ?_ .nil
    rw [← List.append_nil machine.log]
    exact h.stands.more { view.frame with pending := none } rfl rfl fun log hlog => by
      rwa [List.append_nil]

/-- An unexpected leaf grows by a stray. -/
theorem grown (h : view.Matches start machine) (hlaid : view.Laid dialect input start)
    (hpending : view.frame.pending = some (.leaf .unexpected))
    (hposition : (view.consume scope 1).position.byte = view.position.byte + 1) :
    (view.consume scope 1).Matches start { machine with
      place := machine.place + 1
      log := machine.log ++ [.stray machine.place] } := by
  refine ⟨hposition.trans (congrArg (· + 1) h.place), ?_⟩
  obtain ⟨item, hitem, hkind⟩ := hlaid.exists_pending hpending
  have hstands := h.stands
  rw [Draft.frames_settle, Draft.loose_of_some hitem] at hstands
  rw [draft_consume, Draft.frames_settle, Draft.loose_of_some hitem, ← h.place]
  exact hstands.more view.frame rfl rfl fun log hlog => hlog.grow hkind hposition

/-- An unexpected leaf begins with a stray. -/
theorem begun (h : view.Matches start machine)
    (hposition : (view.consume scope 1).position.byte = view.position.byte + 1) :
    ((view.addLeaf .unexpected false view.frame.branch).consume scope 1).Matches start
      { machine with
        place := machine.place + 1
        log := machine.log ++ [.stray machine.place] } := by
  refine ⟨hposition.trans (congrArg (· + 1) h.place), ?_⟩
  have hproper : view.position.byte < (view.consume scope 1).position.byte := by omega
  have hnoted : [Verdict.stray machine.place] = (List.range' view.position.byte
      (Span.length ⟨view.position, (view.consume scope 1).position⟩)).map .stray := by
    have hone : Span.length ⟨view.position, (view.consume scope 1).position⟩ = 1 := by
      show (view.consume scope 1).position.byte - view.position.byte = 1
      omega
    rw [hone, h.place]
    rfl
  rw [draft_consume, draft_addLeaf]
  show Stands machine.stack (_ :: view.outer)
    ((((view.draft start).settle view.position).frame.done ++ [_]) ::
      ((view.draft start).settle view.position).outer.map (·.done)) _
  refine h.stands.more { view.frame with pending := some (.leaf .unexpected) } rfl rfl
    fun log hlog => ?_
  rw [hnoted]
  exact hlog.unexpected hproper

/-- A closer that does not belong to the innermost group is unexpected. -/
theorem strayed (h : view.Matches start machine) (hlaid : view.Laid dialect input start)
    (ahead : view.rest ≠ []) (hopener : ofOpener? b = none)
    (hstack : ∀ top ∈ machine.stack.head?, top.bracket.closer ≠ b) :
    ((if view.frame.pending = some (.leaf .unexpected) then view
      else view.addLeaf .unexpected false view.frame.branch).consume scope 1).Matches start
      (machine.read b) := by
  have hlength : 0 < view.rest.length := List.length_pos_iff.mpr ahead
  have hposition : (view.consume scope 1).position.byte = view.position.byte + 1 := by
    rw [View.byte_consume, Nat.min_eq_left hlength]
  rw [Machine.read_stray hopener hstack]
  split
  · rename_i hpending
    exact h.grown hlaid hpending hposition
  · exact h.begun hposition

/-- A group that closes is what is noted of the bracket on top. -/
theorem closed (h : view.Matches start machine) (hlaid : view.Laid dialect input start)
    (hbranch : view.frame.branch = .group bracket) (valid : Bool) (n : Nat) {around : Frame}
    {further : List Frame} (houter : view.outer = around :: further) :
    ((view.closeBranch (.group bracket) valid around further).consume scope n).Matches start
      ({ machine with place := machine.place + min n view.rest.length }.close valid) := by
  obtain ⟨place, stack, log⟩ := machine
  obtain ⟨hplace, hstands⟩ := h
  have hposition := View.byte_consume scope n view
  have horigin := hlaid.stacked.fills.origin
  rw [houter, Draft.frames, List.map_cons, Draft.outer_settle] at hstands
  -- a group that closes has the root or another group around it, in the draft as on the stack
  cases hdrafted : (view.draft start).outer with
  | nil =>
    rw [hdrafted] at hstands
    cases hstands with
    | group _ _ surround => cases surround
  | cons surround beyond =>
    rw [hdrafted] at hstands
    cases hstands with
    | @group top stack _ _ _ _ before inner branch begin surrounds noted =>
      obtain rfl : bracket = top.bracket := by
        rw [hbranch] at branch
        exact Branch.group.inj branch
      have hdraft := draft_closed hdrafted (.group top.bracket) valid around further scope n
      rw [Machine.close_of_stack rfl]
      refine ⟨hposition.trans (congrArg (· + min n view.rest.length) hplace), ?_⟩
      rw [hdraft]
      show Stands stack (_ :: further) ((surround.done ++ [_]) :: beyond.map (·.done))
        ((before ++ inner) ++ [_])
      rw [List.append_assoc]
      refine surrounds.more { around with pending := some (.branch (.group top.bracket)) } rfl rfl
        fun log hlog => ?_
      have hnoted : Item.Notes (stack.head?.map Pending.start)
          (surround.done ++ [.node ⟨((view.draft start).settle view.position).frame.id,
            .branch (.group top.bracket), valid,
            ⟨view.frame.start, (view.consume scope n).position⟩⟩
              ((view.draft start).settle view.position).frame.done]) _ :=
        hlog.group (begin ▸ noted)
      rw [Draft.closing, horigin]
      rw [hposition, hplace, begin] at hnoted
      exact hnoted

end View.Matches

/-! ## 3. Turns

The word has nothing but brackets, so three readers matter: those that open a group, that close one,
and that take what is left. -/

/-- With no bracket open, the items of the root note the whole log. -/
theorem Stands.notes (h : Stands [] (frame :: outer) (done :: around) log) :
    Item.Notes none done log := by
  cases h with
  | root branch noted => exact noted

/-- The innermost branch is the group of the bracket on top, or the root. -/
theorem Stands.innermost (h : Stands stack (frame :: outer) (done :: around) log) :
    (frame.branch = .root ∧ outer = [] ∧ stack = []) ∨
      ∃ top further, frame.branch = .group top.bracket ∧ outer ≠ [] ∧ stack = top :: further := by
  cases h with
  | root branch => exact Or.inl ⟨branch, rfl, rfl⟩
  | @group top further _ outer _ _ _ _ branch start surround =>
    refine Or.inr ⟨top, further, branch, ?_, rfl⟩
    rintro rfl
    cases surround

/-- An unexpected byte joins the leaf before it, if that one is unexpected too. -/
theorem readUnexpected_view (scope : Scope) (state : State) :
    ∃ after, readUnexpected scope state = some after ∧ after.view =
      (if state.view.frame.pending = some (.leaf .unexpected) then state.view
        else state.view.addLeaf .unexpected false state.view.frame.branch).consume scope 1 := by
  refine ⟨_, rfl, ?_⟩
  by_cases hgrows : state.frame.pending = some (.leaf .unexpected)
  · have hpending : state.view.frame.pending = some (.leaf .unexpected) := hgrows
    rw [if_pos hpending, hgrows]
    split <;> rfl
  · have hpending : ¬ state.view.frame.pending = some (.leaf .unexpected) := hgrows
    have hdiffers : (state.frame.pending == some (.leaf .unexpected)) = false :=
      beq_eq_false_iff_ne.mpr hgrows
    rw [if_neg hpending, hdiffers]
    split <;> rfl

/-- Without forms, only the readers of groups and of unexpected bytes accept a bracket. -/
theorem readNext_bracket (hempty : scope.fragments = Fragments.empty)
    (hbranch : state.frame.branch = .root ∨ ∃ bracket, state.frame.branch = .group bracket)
    {bracket : Bracket} (hb : b = bracket.opener ∨ b = bracket.closer)
    (hrest : state.rest = b :: rest) :
    readNext scope state = ((readGroupOpening scope state).or
      ((readGroupClosing scope state).or (readUnexpected scope state))).getD state := by
  have hreaders : readersOf state.context = readersOf .root := by
    rcases hbranch with hroot | ⟨open_, hgroup⟩
    · rw [State.context, hroot]
      rfl
    · rw [State.context, hgroup]
      cases open_ <;> rfl
  have hquasi : readQuasiOpening scope state = none := by
    rw [readQuasiOpening, hempty, Fragments.quasiFor_empty]
    rfl
  have hannotation : readAnnotationOpening scope state = none := by
    rw [readAnnotationOpening, hempty]
    rfl
  rw [readNext, hreaders, readers_bracket scope hb hrest, hquasi, hannotation, Option.none_or,
    Option.none_or]

/-- The closer of the innermost group closes it. -/
theorem readGroupClosing_closer (scope : Scope) (hbranch : state.frame.branch = .group bracket)
    (houter : state.outer ≠ []) (hrest : state.rest = bracket.closer :: rest) :
    ∃ after around further, readGroupClosing scope state = some after ∧
      state.view.outer = around :: further ∧ after.view =
        (state.view.closeBranch (.group bracket) true around further).consume scope 1 := by
  have hfacing : facing bracket.closer state = true := by
    rw [facing, hrest]
    exact beq_self_eq_true _
  have hread : readGroupClosing scope state =
      (state.closeBranch? true).map (State.consume scope 1) := by
    rw [readGroupClosing, hbranch]
    exact if_pos hfacing
  cases hclosed : state.closeBranch? true with
  | none => exact absurd (closeBranch?_eq_none hclosed) houter
  | some closed =>
    obtain ⟨around, further, hsurround, hview⟩ := closeBranch?_eq_some hclosed
    rw [hbranch] at hview
    exact ⟨closed.consume scope 1, around, further, by rw [hread, hclosed]; rfl, hsurround,
      congrArg (View.consume scope 1) hview⟩

/-- Any other closer is left to others. -/
theorem readGroupClosing_eq_none (scope : Scope) {x : UInt8}
    (hbranch : ∀ bracket : Bracket, state.frame.branch = .group bracket → bracket.closer ≠ x)
    (hrest : state.rest = x :: rest) : readGroupClosing scope state = none := by
  unfold readGroupClosing
  split
  · rename_i bracket hgroup
    refine if_neg ?_
    rw [facing, hrest, List.head?_cons, beq_iff_eq, Option.some.injEq]
    exact Ne.symm (hbranch bracket hgroup)
  · rfl

/-- No group opens with a closer. -/
theorem readGroupOpening_closer (scope : Scope) (hrest : state.rest = bracket.closer :: rest) :
    readGroupOpening scope state = none := by
  rw [readGroupOpening, hrest]
  show Option.map _ (ofOpener? bracket.closer) = none
  rw [ofOpener?_closer]
  rfl

namespace View.Matches

/-- The scan closes the group whose bracket the machine takes off its stack. -/
theorem readClosing (h : state.view.Matches start machine)
    (hlaid : state.view.Laid dialect input start) {top : Pending} {further : List Pending}
    (hstack : machine.stack = top :: further) (hrest : state.rest = top.bracket.closer :: rest) :
    ∃ after, readGroupClosing scope state = some after ∧
      after.view.Matches start (machine.read top.bracket.closer) := by
  have hlength : 0 < state.view.rest.length := by
    rw [show state.view.rest = top.bracket.closer :: rest from hrest, List.length_cons]
    omega
  obtain ⟨-, -, hnil⟩ | ⟨found, beyond, hgroup, houter, hfound⟩ := h.stands.innermost
  · rw [hnil] at hstack
    cases hstack
  obtain ⟨rfl, rfl⟩ := List.cons.inj (hstack.symm.trans hfound)
  obtain ⟨after, around, outer, hafter, hsurround, hview⟩ :=
    readGroupClosing_closer scope hgroup houter hrest
  refine ⟨after, hafter, ?_⟩
  rw [hview, Machine.read_closer top further hstack]
  have hclosed : ((state.view.closeBranch (.group top.bracket) true around outer).consume scope
      1).Matches start _ := h.closed hlaid hgroup true 1 hsurround
  rwa [Nat.min_eq_left hlength] at hclosed

/-- The scan closes nothing where the machine takes nothing off its stack. -/
theorem readClosing_eq_none (scope : Scope) (h : state.view.Matches start machine)
    (hstack : ∀ top ∈ machine.stack.head?, top.bracket.closer ≠ b)
    (hrest : state.rest = b :: rest) : readGroupClosing scope state = none := by
  refine readGroupClosing_eq_none scope (fun open_ hgroup => ?_) hrest
  obtain ⟨hroot, -⟩ | ⟨top, further, hgroup', -, hopen⟩ := h.stands.innermost
  · cases hgroup.symm.trans hroot
  · obtain rfl := Branch.group.inj (hgroup.symm.trans hgroup')
    refine hstack top ?_
    rw [hopen]
    rfl

/-- A turn reads one byte and leaves the others to both. -/
theorem readNext (h : state.view.Matches start machine)
    (hlaid : state.view.Laid dialect input start) (hempty : scope.fragments = Fragments.empty)
    (hrest : state.rest = b :: rest) (hb : b = bracket.opener ∨ b = bracket.closer) :
    (readNext scope state).view.Matches start (machine.read b) := by
  have ahead : state.view.rest ≠ [] := by
    rw [show state.view.rest = b :: rest from hrest]
    exact List.cons_ne_nil _ _
  have hbranch : state.frame.branch = .root ∨ ∃ bracket, state.frame.branch = .group bracket :=
    h.stands.innermost.imp (·.1) fun ⟨top, _, hgroup, _⟩ => ⟨top.bracket, hgroup⟩
  rw [readNext_bracket hempty hbranch hb hrest]
  rcases hb with rfl | rfl
  · rw [readGroupOpening_opener scope hrest, Option.some_or, Option.getD_some]
    exact h.opened ahead bracket
  rw [readGroupOpening_closer scope hrest, Option.none_or]
  by_cases htop : ∃ top ∈ machine.stack.head?, top.bracket.closer = bracket.closer
  · obtain ⟨top, htop, hcloser⟩ := htop
    obtain ⟨further, hstack⟩ := List.head?_eq_some_iff.mp htop
    rw [← hcloser] at hrest ⊢
    obtain ⟨after, hafter, hmatches⟩ := h.readClosing hlaid hstack hrest
    rw [hafter, Option.some_or, Option.getD_some]
    exact hmatches
  · have hstack : ∀ top ∈ machine.stack.head?, top.bracket.closer ≠ bracket.closer :=
      fun top hmem heq => htop ⟨top, hmem, heq⟩
    obtain ⟨after, hafter, hview⟩ := readUnexpected_view scope state
    rw [h.readClosing_eq_none scope hstack hrest, Option.none_or, hafter, Option.getD_some, hview]
    exact h.strayed hlaid ahead (ofOpener?_closer bracket) hstack

/-- The end of the input closes a group in both. -/
theorem closeAtEnd? (scope : Scope) (h : state.view.Matches start machine)
    (hlaid : state.view.Laid dialect input start) (hclosed : state.closeAtEnd? = some after) :
    after.view.Matches start (machine.close false) ∧
      (machine.close false).finish = machine.finish ∧ after.rest = state.rest := by
  obtain ⟨hroot, houter, -⟩ | ⟨top, further, hgroup, -, hstack⟩ := h.stands.innermost
  · rw [State.closeAtEnd?, show state.frame.branch = .root from hroot] at hclosed
    obtain ⟨around, outer, hsurround, -⟩ := closeBranch?_eq_some hclosed
    cases houter.symm.trans hsurround
  · have hclose : (state.recoverBranch .unterminated).closeBranch? false = some after := by
      rw [State.closeAtEnd?, show state.frame.branch = .group top.bracket from hgroup] at hclosed
      exact hclosed
    obtain ⟨around, outer, hsurround, hview⟩ := closeBranch?_eq_some hclose
    refine ⟨?_, machine.finish_close hstack, congrArg View.rest hview⟩
    have hnothing : ((state.view.closeBranch (.group top.bracket) false around outer).consume scope
        0).Matches start _ := h.closed hlaid hgroup false 0 hsurround
    rw [Nat.zero_min] at hnothing
    rw [hview,
      show (state.recoverBranch .unterminated).frame.branch = .group top.bracket from hgroup]
    exact hnothing

end View.Matches

/-! ## 4. Whole scans

At the end of the input the machine closes what is on its stack, as the scan does, and the groups
are logged with the flag that the scan gives them. -/

/-- A scan of a word of brackets: a machine that stands where the scan does goes on to the verdicts
on the word. -/
structure View.Follows (dialect : Dialect) (word : List UInt8) (start : Draft) (view : View) :
    Prop where
  laid : view.Laid dialect word start
  machine : ∃ machine, view.Matches start machine ∧
    (view.rest.foldl Machine.read machine).finish.log = verdicts word
  brackets : ∀ b ∈ view.rest, ∃ bracket : Bracket, b = bracket.opener ∨ b = bracket.closer

namespace View.Follows

theorem readNext (h : state.view.Follows scope.dialect input start) (hready : state.view.Ready)
    (hempty : scope.fragments = Fragments.empty) (ahead : state.rest ≠ []) :
    (readNext scope state).view.Follows scope.dialect input start := by
  obtain ⟨hlaid, ⟨machine, hmatches, hlog⟩, hbrackets⟩ := h
  obtain ⟨b, rest, hrest⟩ := List.exists_cons_of_ne_nil ahead
  rw [show state.view.rest = b :: rest from hrest, List.forall_mem_cons] at hbrackets
  rw [show state.view.rest = b :: rest from hrest, List.foldl_cons] at hlog
  obtain ⟨⟨bracket, hb⟩, hbrackets⟩ := hbrackets
  have hnext : (Scan.readNext scope state).view.Matches start (machine.read b) :=
    hmatches.readNext hlaid hempty hrest hb
  have hnextlaid := hlaid.step hready (readNext_step scope ahead)
  have hplace : (Scan.readNext scope state).view.position.byte =
      state.view.position.byte + 1 := by
    rw [hnext.place, Machine.place_read, hmatches.place]
  have hleft : (Scan.readNext scope state).view.rest = rest := by
    rw [hnextlaid.rest, hplace, ← List.drop_drop, ← hlaid.rest]
    exact congrArg (List.drop 1) hrest
  exact ⟨hnextlaid, ⟨machine.read b, hnext, hleft ▸ hlog⟩, hleft ▸ hbrackets⟩

theorem closeAtEnd? (h : state.view.Follows scope.dialect input start) (hready : state.view.Ready)
    (hrest : state.rest = []) (hclosed : state.closeAtEnd? = some after) :
    after.view.Follows scope.dialect input start := by
  obtain ⟨hlaid, ⟨machine, hmatches, hlog⟩, hbrackets⟩ := h
  obtain ⟨hnext, hfinish, hleft⟩ := hmatches.closeAtEnd? scope hlaid hclosed
  have hsame : after.view.rest = state.view.rest := hleft
  refine ⟨hlaid.step hready (closeAtEnd?_step scope hrest hclosed),
    ⟨machine.close false, hnext, ?_⟩, hsame ▸ hbrackets⟩
  rw [show state.view.rest = [] from hrest] at hlog hsame
  rw [hsame]
  exact (congrArg Machine.log hfinish).trans hlog

/-- When all is closed, the items of the root note the verdicts on the word. -/
theorem notes (h : view.Follows dialect input start) (hrest : view.rest = [])
    (houter : view.outer = []) :
    Item.Notes none ((view.draft start).settle view.position).frame.done (verdicts input) := by
  obtain ⟨-, ⟨machine, hmatches, hlog⟩, -⟩ := h
  have hstands := hmatches.stands
  obtain ⟨-, -, hstack⟩ | ⟨_, _, -, hopen, -⟩ := hstands.innermost
  · rw [hrest, List.foldl_nil, Machine.finish_of_nil hstack] at hlog
    rw [hstack, hlog] at hstands
    exact hstands.notes
  · exact absurd houter hopen

end View.Follows
end Scan

open Scan

/-- **The items of a word of brackets note what the machine notes of it.** -/
theorem Lexer.items_note {lexer : Lexer} (hempty : lexer.fragments = Fragments.empty)
    {bytes : Array UInt8}
    (hbytes : ∀ b ∈ bytes.toList, ∃ bracket : Bracket, b = bracket.opener ∨ b = bracket.closer) :
    Item.Notes none (lexer.items { bytes := bytes }) (verdicts bytes.toList) := by
  have hrange : (initial .root { bytes := bytes }).rest = bytes.toList := Source.range_all bytes
  have hstart : (initial .root { bytes := bytes }).view.Follows lexer.dialect bytes.toList
      (blank { bytes := bytes }) := by
    refine ⟨?_, ⟨{}, ⟨rfl, .root rfl .nil⟩, ?_⟩, ?_⟩
    · rw [← hrange]
      exact initial_laid lexer.dialect { bytes := bytes } rfl _ rfl rfl rfl rfl
    · show ((initial .root { bytes := bytes }).rest.foldl Machine.read {}).finish.log = _
      rw [hrange]
      rfl
    · show ∀ b ∈ (initial .root { bytes := bytes }).rest, _
      rw [hrange]
      exact hbytes
  obtain ⟨houter, hfollows, hdone⟩ := run_states
    (P := fun state => state.view.Follows (lexer.scope { bytes := bytes }).dialect bytes.toList
      (blank { bytes := bytes })) (initial_fresh .root { bytes := bytes }) hstart
    (fun state hready ahead _ h => h.readNext hready hempty ahead)
    fun before after hready hrest hclosed h => h.closeAtEnd? hready hrest hclosed
  rw [← scan_eq] at houter hfollows hdone
  refine hfollows.notes (hdone.resolve_right ?_) houter
  exact Bool.eq_false_iff.mp hfollows.laid.running

end StyleLex
