/-
# Cuts inside a token

Some readers look further than they take: a hyphen begins an identifier only before the text of a
name, a hash needs a byte after its sign, a fragment is recognised by a whole pattern, and a brace
after `\u` counts for something only if it is not closed at once.  Cut the source there, and other
readers would read.  But then the cut is inside a token: from each of these places the scan goes
on to where it is behind a fence, or past the cut.

Each section deals with one of these readers and ends in a statement of the form
`Never scope b state`: if a token is cut here, the scan of the whole is not outside of all branches
at the cut.  The next module uses them in one place each, where the readings of the two scans
differ.

The statements are about states of a scan that began in a root (`View.Sturdy`), for in such a scan a
name has a branch around it, and the branch around a name or a fragment has a closer or is the root.
-/
import StyleLex.Proofs.Scan.Barrier

namespace StyleLex
namespace Scan

variable {scope : Scope} {b : List UInt8} {view after : View} {state : State}

/-! ## 1. Scans that began in a root

A scan that begins in some other branch may halt, and the branch it began in may be a name.  Neither
happens if it began in a root, and this is what the sections below rest on. -/

/-- Branches from the inside out; the outermost one is a root, and no other one is. -/
def Rooted : List Branch → Prop
  | [] => False
  | [branch] => branch = .root
  | inner :: around :: further => inner ≠ .root ∧ Rooted (around :: further)

/-- What holds of every state of a scan that began in a root. -/
structure View.Sturdy (view : View) : Prop where
  ready : view.Ready
  rooted : Rooted (view.frame.branch :: view.outer.map Frame.branch)

/-- A hash that gathers digits stays a branch that is no root. -/
theorem Rooted.congr {inner inner' : Branch} {further : List Branch}
    (h : Rooted (inner :: further)) (halike : inner.Alike inner') :
    Rooted (inner' :: further) := by
  cases further with
  | nil => exact halike.eq_root_iff.mp h
  | cons around further => exact ⟨fun heq => h.1 (halike.eq_root_iff.mpr heq), h.2⟩

/-- Only the outermost branch is a root. -/
theorem View.Sturdy.eq_root_iff (h : view.Sturdy) :
    view.frame.branch = .root ↔ view.outer = [] := by
  have hrooted := h.rooted
  cases houter : view.outer with
  | nil =>
    rw [houter] at hrooted
    exact iff_of_true hrooted rfl
  | cons around further =>
    rw [houter] at hrooted
    exact iff_of_false hrooted.1 (List.cons_ne_nil _ _)

/-- **Every step of such a scan leads to such a state.** -/
theorem View.Sturdy.step (h : view.Sturdy) (hrun : view.halted = false ∨ view.rest = [])
    (hstep : Step scope view after) : after.Sturdy := by
  refine ⟨h.ready.step hrun hstep, ?_⟩
  have hrooted := h.rooted
  cases hstep with
  | leaf _ _ alike _ => exact hrooted.congr alike
  | grow => exact hrooted
  | opened _ proper _ _ _ => exact ⟨proper, hrooted⟩
  | closed outer _ _ _ =>
    rw [outer] at hrooted
    exact hrooted.2
  | halted name outer =>
    rw [h.eq_root_iff.mpr outer] at name
    cases name

/-- Such a scan does not halt. -/
theorem Step.running (h : Step scope view after) (hsturdy : view.Sturdy)
    (hrun : view.halted = false) : after.halted = false := by
  cases h with
  | halted name outer =>
    rw [hsturdy.eq_root_iff.mpr outer] at name
    cases name
  | _ => exact hrun

/-- The next state of a scan that is not done. -/
theorem View.Sturdy.next (h : state.view.Sturdy) (scope : Scope) (hrun : state.halted = false)
    (ahead : state.rest ≠ []) : (readNext scope state).view.Sturdy :=
  h.step (Or.inl hrun) (readNext_step scope ahead)

/-! ## 2. Names

A name is read in at most two sorts of pieces, escapes and runs.  A piece is read whole, and the
name closes only where no piece begins, so a name that was opened at a hyphen or an escape is
still open behind the byte for which it was opened. -/

/-- The readers of a name. -/
theorem readersOf_name (hname : state.frame.branch.isName = true) :
    readersOf state.context = [readEscape, readNameRun, readIdentifierClosing] ∨
      readersOf state.context = [readHashEscape, readHashRun, readHashClosing] := by
  unfold State.context
  cases hbranch : state.frame.branch with
  | identifier value => exact Or.inl rfl
  | hash hash => exact Or.inr rfl
  | _ =>
    rw [hbranch] at hname
    cases hname

/-- Where no escape begins, none is read. -/
theorem readEscape_eq_none (scope : Scope) (hbegins : Escape.begins state.rest = false) :
    Escape.read? scope.dialect state.rest = none := by
  rw [← Option.isNone_iff_eq_none, ← Option.not_isSome, Escape.isSome_read?, hbegins]
  rfl

/-- Changing what a hash has gathered changes nothing of the place. -/
theorem rest_mapHash (change : Hash → Hash) (state : State) :
    (state.mapHash change).rest = state.rest ∧ (state.mapHash change).outer = state.outer ∧
      (state.mapHash change).frame.branch.isName = state.frame.branch.isName := by
  unfold State.mapHash
  split
  · rename_i hash hbranch
    exact ⟨rfl, rfl, by rw [hbranch]; rfl⟩
  · exact ⟨rfl, rfl, rfl⟩

/-- An escape of a name takes two bytes or more. -/
theorem readNext_name_escape (scope : Scope) (hname : state.frame.branch.isName = true)
    (hbegins : Escape.begins state.rest = true) :
    ∃ n, 2 ≤ n ∧ (readNext scope state).rest = state.rest.drop n := by
  obtain ⟨reading, hread⟩ := Option.isSome_iff_exists.mp
    ((Escape.isSome_read? scope.dialect state.rest).trans hbegins)
  refine ⟨reading.length, (Escape.closed_iff hread).1, ?_⟩
  obtain ⟨next, hnext, hrest⟩ : ∃ next, readEscape scope state = some next ∧
      next.rest = state.rest.drop reading.length := by
    rw [readEscape, hread]
    refine ⟨_, rfl, ?_⟩
    dsimp only
    split <;> rfl
  rcases readersOf_name hname with hreaders | hreaders
  · rw [readNext_of_first hreaders hnext, hrest]
  · obtain ⟨change, hhash⟩ : ∃ change, readHashEscape scope state = some (next.mapHash change) := by
      rw [readHashEscape, hread, Option.bind_some, hnext]
      exact ⟨_, rfl⟩
    rw [readNext_of_first hreaders hhash, (rest_mapHash _ next).1, hrest]

/-- A run of a name takes all name bytes, and the name goes on. -/
theorem readNext_name_run (scope : Scope) (hname : state.frame.branch.isName = true)
    (hbegins : Escape.begins state.rest = false)
    (hrun : state.rest.head?.any Byte.isName = true) :
    (readNext scope state).rest = state.rest.drop (state.rest.takeWhile Byte.isName).length ∧
      (readNext scope state).outer = state.outer ∧
      (readNext scope state).frame.branch.isName = true := by
  obtain ⟨x, tail, hrest⟩ : ∃ x tail, state.rest = x :: tail := by
    cases hrest : state.rest with
    | nil =>
      rw [hrest] at hrun
      cases hrun
    | cons x tail => exact ⟨x, tail, rfl⟩
  have hx : Byte.isName x = true := by
    rw [hrest] at hrun
    exact hrun
  have hread : readNameRun scope state = some
      (state.takeLeaf scope .raw (state.rest.takeWhile Byte.isName).length) := by
    rw [readNameRun, hrest, List.takeWhile_cons, if_pos hx]
  have hescape := readEscape_eq_none scope hbegins
  -- the two sorts of names have readers of their own, which ask in the same order
  rcases readersOf_name hname with hreaders | hreaders
  · have hfirst : readEscape scope state = none := by
      rw [readEscape, hescape]
      rfl
    rw [readNext_of_second hreaders hfirst hread]
    exact ⟨rfl, rfl, hname⟩
  · have hfirst : readHashEscape scope state = none := by
      rw [readHashEscape, hescape]
      rfl
    have hhash : readHashRun scope state = some
        ((state.takeLeaf scope .raw (state.rest.takeWhile Byte.isName).length).mapHash
          fun hash => (state.rest.takeWhile Byte.isName).foldl Hash.accumulate hash) := by
      rw [readHashRun, hread]
      rfl
    rw [readNext_of_second hreaders hfirst hhash]
    obtain ⟨hrest', houter', hname'⟩ := rest_mapHash
      (fun hash => (state.rest.takeWhile Byte.isName).foldl Hash.accumulate hash)
      (state.takeLeaf scope .raw (state.rest.takeWhile Byte.isName).length)
    rw [hrest', houter', hname']
    exact ⟨rfl, rfl, hname⟩

/-- Bytes ahead of a place are not the place. -/
theorem cons_append_ne (x : UInt8) (front : List UInt8) : x :: front ++ b ≠ b := by
  intro heq
  have := congrArg List.length heq
  rw [List.length_append, List.length_cons] at this
  omega

/-- A name that goes on where `b` is left is not left there. -/
theorem Never.of_name_ahead (hb : b ≠ []) (hsturdy : state.view.Sturdy)
    (hname : state.frame.branch.isName = true) (houter : state.outer ≠ [])
    (hrest : state.rest = b) (hahead : NameAhead b) : Never scope b state :=
  Never.of_barred hb hsturdy.ready (Or.inr ⟨hrest, Or.inr (Or.inl ⟨houter, hname, hahead⟩)⟩)

/-- An escape is read whole: it takes the byte behind the backslash as well. -/
theorem Never.of_escape (hb : b ≠ []) (hname : state.frame.branch.isName = true) {x : UInt8}
    (hrest : state.rest = x :: b) (hbegins : Escape.begins (x :: b) = true) :
    Never scope b state := by
  obtain ⟨n, hn, hnext⟩ := readNext_name_escape scope hname (by rw [hrest, hbegins])
  refine Never.of_next ?_ (Never.of_lt ?_)
  · intro heq
    exact absurd (hrest.symm.trans heq) (cons_append_ne _ [])
  · have hpos : 0 < b.length := List.length_pos_iff.mpr hb
    rw [hnext, hrest, List.length_drop, List.length_cons]
    omega

/-- A hyphen that begins a name is read with the name byte behind it, or the name goes on behind
it. -/
theorem Never.of_hyphen (hb : b ≠ []) (hsturdy : state.view.Sturdy) (hrun : state.halted = false)
    (hname : state.frame.branch.isName = true) (houter : state.outer ≠ [])
    (hrest : state.rest = Byte.hyphen :: b) (hahead : NameAhead b) : Never scope b state := by
  have hbegins : Escape.begins state.rest = false := by
    rw [hrest]
    cases b <;> rfl
  have hhead : state.rest.head?.any Byte.isName = true := by
    rw [hrest]
    exact (by decide : Byte.isName Byte.hyphen = true)
  have hrunlength : (state.rest.takeWhile Byte.isName).length =
      1 + (b.takeWhile Byte.isName).length := by
    rw [hrest, List.takeWhile_cons, if_pos (by decide), List.length_cons, Nat.add_comm]
  obtain ⟨hnext, houter', hname'⟩ := readNext_name_run scope hname hbegins hhead
  rw [hrunlength, hrest, Nat.add_comm, List.drop_succ_cons] at hnext
  refine Never.of_next ?_ ?_
  · intro heq
    exact absurd (hrest.symm.trans heq) (cons_append_ne _ [])
  · -- the run ends with the hyphen, or takes bytes of `b` too
    rcases Nat.eq_zero_or_pos (b.takeWhile Byte.isName).length with hzero | hpos
    · rw [hzero, List.drop_zero] at hnext
      refine Never.of_name_ahead hb (hsturdy.next scope hrun ?_) hname' (houter' ▸ houter) hnext
        hahead
      rw [hrest]
      exact List.cons_ne_nil _ _
    · refine Never.of_lt ?_
      have hlength : 0 < b.length := List.length_pos_iff.mpr hb
      rw [hnext, List.length_drop]
      omega

/-- So is a hyphen before an escape, for the escape is the next piece. -/
theorem Never.of_hyphen_escape (hb : b ≠ []) (hname : state.frame.branch.isName = true)
    (hrest : state.rest = Byte.hyphen :: Byte.backslash :: b)
    (hbegins : Escape.begins (Byte.backslash :: b) = true) : Never scope b state := by
  have hnot : Escape.begins state.rest = false := by
    rw [hrest]
    rfl
  have hhead : state.rest.head?.any Byte.isName = true := by
    rw [hrest]
    exact (by decide : Byte.isName Byte.hyphen = true)
  have hrunlength : (state.rest.takeWhile Byte.isName).length = 1 := by
    rw [hrest, List.takeWhile_cons, if_pos (by decide), List.takeWhile_cons,
      if_neg (by decide)]
    rfl
  obtain ⟨hnext, -, hname'⟩ := readNext_name_run scope hname hnot hhead
  rw [hrunlength, hrest, List.drop_succ_cons, List.drop_zero] at hnext
  refine Never.of_next ?_ (Never.of_escape hb hname' hnext hbegins)
  intro heq
  exact absurd (hrest.symm.trans heq) (cons_append_ne _ [Byte.backslash])

/-! ## 3. Fragments

A fragment is recognised by its operators and its group together.  If the cut is among them, the
fragment is open there and has no group. -/

/-- The operators of a fragment are read one by one, and do not complete it. -/
theorem Never.of_operators (hb : b ≠ []) : ∀ (operators : List UInt8) {state : State},
    state.view.Sturdy → state.halted = false → state.outer ≠ [] →
    state.frame.branch.isFragment = true →
    (∀ bracket, state.frame.pending ≠ some (.branch (.group bracket))) →
    state.rest = operators ++ b → (∀ x ∈ operators, Byte.isOperator x = true) →
    Never scope b state
  | [], state, hsturdy, _, houter, hfragment, hpending, hrest, _ =>
    Never.of_barred hb hsturdy.ready
      (Or.inr ⟨hrest, Or.inr (Or.inr ⟨houter, hfragment, hpending⟩)⟩)
  | x :: operators, state, hsturdy, hrun, houter, hfragment, hpending, hrest, hoperators => by
    have hread : readOperator scope state = some (state.takeLeaf scope (.operator x) 1) := by
      rw [readOperator, hrest]
      exact if_pos (hoperators x List.mem_cons_self)
    have hnext : readNext scope state = state.takeLeaf scope (.operator x) 1 :=
      readNext_of_second (readersOf_fragment hfragment) (readFragmentClosing_eq_none hpending) hread
    have hnextsturdy := hsturdy.next scope hrun (by rw [hrest]; simp)
    refine Never.of_next ?_ ?_
    · intro heq
      exact absurd (hrest.symm.trans heq) (cons_append_ne _ _)
    · rw [hnext] at hnextsturdy ⊢
      refine Never.of_operators hb operators hnextsturdy hrun houter hfragment ?_ ?_ ?_
      · intro bracket hpending
        cases hpending
      · show state.rest.drop 1 = _
        rw [hrest]
        rfl
      · exact fun y hy => hoperators y (List.mem_cons_of_mem _ hy)

/-! ## 4. Braces

A brace matters because `\u` before it may be an escape with braces or one without.  Where the two
scans disagree about that, a brace is left ahead of the first one, and it is shown that this scan
opens a group with it, or is inside a branch with a closer. -/

/-- A name that does not go on is completed as at the end of the input. -/
theorem readNext_name_close (scope : Scope) (hname : state.frame.branch.isName = true)
    (hahead : ¬ NameAhead state.rest) :
    readNext scope state = state.closeAtEnd?.getD { state with halted := true } := by
  obtain ⟨hhead, hbegins⟩ := not_or.mp hahead
  have hescape := readEscape_eq_none scope (Bool.eq_false_iff.mpr hbegins)
  have hrun : state.rest.takeWhile Byte.isName = [] := by
    cases hrest : state.rest with
    | nil => rfl
    | cons x tail =>
      rw [hrest] at hhead
      exact List.takeWhile_cons_of_neg hhead
  have hnamerun : readNameRun scope state = none := by
    rw [readNameRun, hrun]
  unfold readNext State.closeAtEnd? State.context
  -- the first two readers decline, and the third one is what closes the name at the end of the
  -- input
  cases hbranch : state.frame.branch with
  | identifier value =>
    have hfirst : readEscape scope state = none := by
      rw [readEscape, hescape]
      rfl
    show (List.findSome? _ [readEscape, readNameRun, readIdentifierClosing]).getD state = _
    rw [findSome?_or, hfirst, findSome?_or, hnamerun, findSome?_or]
    show ((state.closeBranch? true <|> some _).or none).getD state = _
    cases state.closeBranch? true <;> rfl
  | hash hash =>
    have hfirst : readHashEscape scope state = none := by
      rw [readHashEscape, hescape]
      rfl
    have hsecond : readHashRun scope state = none := by
      rw [readHashRun, hnamerun]
      rfl
    show (List.findSome? _ [readHashEscape, readHashRun, readHashClosing]).getD state = _
    rw [findSome?_or, hfirst, findSome?_or, hsecond, findSome?_or]
    show ((state.closeHash? <|> some _).or none).getD state = _
    cases state.closeHash? <;> rfl
  | _ =>
    rw [hbranch] at hname
    cases hname

/-- No name goes on with a brace. -/
theorem not_nameAhead_brace : ¬ NameAhead (Byte.leftBrace :: b) := by
  rintro (h | h)
  · exact absurd h (by simp; decide)
  · obtain ⟨next, further, heq, -⟩ := Escape.begins_iff.mp h
    exact absurd (List.cons.inj heq).1 (by decide)

/-- No delimiter that closes a branch begins with a brace that opens one. -/
theorem not_brace_of_closer {branch : Branch} {closer : List UInt8}
    (h : branch.closer? = some closer) : closer.head? ≠ some Byte.leftBrace := by
  cases branch with
  | group bracket =>
    cases h
    cases bracket <;> decide
  | quoted quote =>
    cases h
    cases quote <;> decide
  | url =>
    cases h
    decide
  | comment form =>
    cases form with
    | block =>
      cases h
      decide
    | line => cases h
  | _ => cases h

/-- Before an opening brace, a branch closes only if it needs no byte for it. -/
theorem narrow_of_ends_brace {dialect : Dialect} {branch : Branch} {last : Option Kind}
    {valid : Bool} {n : Nat} (h : Ends dialect branch last (Byte.leftBrace :: b) valid n) :
    branch.isNarrow = true ∧ n = 0 := by
  cases h with
  | @closer _ _ closer _ own ahead =>
    obtain ⟨more, hmore⟩ := ahead
    have hhead := not_brace_of_closer own
    cases closer with
    | nil => exact absurd (Branch.closer?_pos own) (Nat.lt_irrefl 0)
    | cons x rest => exact absurd (congrArg some (List.cons.inj hmore).1) hhead
  | broken _ ahead => cases ahead
  | line ahead => cases ahead
  | identifier => exact ⟨rfl, rfl⟩
  | hash => exact ⟨rfl, rfl⟩
  | fragment hfragment => exact ⟨by rw [Branch.isNarrow, hfragment, Bool.or_true], rfl⟩

/-- Past a brace inside a wall, or right before it. -/
theorem Walled.step_brace (hb : b ≠ []) (hrest : view.rest = Byte.leftBrace :: b)
    (hwall : Walled view) (hstep : Step scope view after) :
    Barred b after ∨ after.rest = Byte.leftBrace :: b ∧ Walled after := by
  -- what takes a byte takes the brace at least
  have htaken : ∀ {n : Nat}, 0 < n → after.rest = view.rest.drop n → Walled after →
      Barred b after := by
    intro n hn hafter hwalled
    obtain ⟨m, rfl⟩ : ∃ m, n = m + 1 := ⟨n - 1, by omega⟩
    rw [hrest, List.drop_succ_cons] at hafter
    cases m with
    | zero => exact Or.inr ⟨hafter, Or.inl hwalled⟩
    | succ m => exact Barred.of_taken hb (Nat.le_refl _) (Nat.succ_pos m) hafter
  cases hstep with
  | leaf _ positive alike _ => exact Or.inl (htaken positive rfl (hwall.congr alike rfl))
  | grow => exact Or.inl (htaken Nat.one_pos rfl (hwall.congr (.refl _) rfl))
  | halted _ outer => exact absurd outer hwall.outer
  | @opened branch _ _ _ _ _ =>
    rcases Nat.eq_zero_or_pos branch.openerLength with hzero | hpos
    · rw [hzero]
      exact Or.inr ⟨hrest, hwall.opened branch⟩
    · exact Or.inl (htaken hpos rfl (hwall.opened branch))
  | @closed branch valid n around further outer alike ends _ =>
    rw [hrest] at ends
    obtain ⟨hnarrow, rfl⟩ := narrow_of_ends_brace ends
    exact Or.inr ⟨hrest, hwall.closed outer (alike.isNarrow_eq ▸ hnarrow) branch valid⟩

/-- A brace inside a wall opens a group or is raw; either way the wall is still there. -/
theorem Never.of_walled_brace (hb : b ≠ []) (hready : state.view.Ready)
    (hrest : state.rest = Byte.leftBrace :: b) (hwall : Walled state.view) :
    Never scope b state := by
  intro n hreached
  have hsteps : ∀ before after : View, before.Ready → before.halted = false → before.rest ≠ [] →
      Step scope before after →
      Barred b before ∨ before.rest = Byte.leftBrace :: b ∧ Walled before →
      Barred b after ∨ after.rest = Byte.leftBrace :: b ∧ Walled after := by
    intro before after _ _ _ hstep h
    rcases h with h | ⟨hrest, hwall⟩
    · exact Or.inl (h.step hb hstep)
    · exact hwall.step_brace hb hrest hstep
  obtain ⟨-, h⟩ := steps_induction hsteps n state hready (Or.inr ⟨hrest, hwall⟩)
  rcases h with (hlt | ⟨-, hfence⟩) | ⟨-, hwall⟩
  · rw [show (steps scope n state).view.rest = b from hreached] at hlt
    exact absurd hlt (Nat.lt_irrefl _)
  · exact hfence.outer
  · exact hwall.outer

/-- A group that a brace opens is a wall. -/
theorem Never.of_group (hb : b ≠ []) (hsturdy : state.view.Sturdy) (hrun : state.halted = false)
    (hrest : state.rest = Byte.leftBrace :: b)
    (hnext : readNext scope state = state.enter scope (.group .curly) 1) :
    Never scope b state := by
  have hready := (hsturdy.next scope hrun (by rw [hrest]; simp)).ready
  refine Never.of_next ?_ ?_
  · intro heq
    exact absurd (hrest.symm.trans heq) (cons_append_ne _ [])
  · rw [hnext] at hready ⊢
    refine Never.of_barred hb hready
      (Or.inr ⟨?_, Or.inl (Walled.of_frame (List.cons_ne_nil _ _) rfl)⟩)
    show state.rest.drop 1 = b
    rw [hrest]
    rfl

/-- Of the readers of the root, only those of fragments, of groups and of unexpected bytes accept an
opener or a closer. -/
theorem readers_bracket (scope : Scope) {x : UInt8} {bracket : Bracket}
    (hx : x = bracket.opener ∨ x = bracket.closer) (hrest : state.rest = x :: b) :
    (readersOf .root).findSome? (fun reader => reader scope state) =
      (readQuasiOpening scope state).or ((readAnnotationOpening scope state).or
        ((readGroupOpening scope state).or ((readGroupClosing scope state).or
          (readUnexpected scope state)))) := by
  -- every other reader looks at the first byte, and none of them knows a bracket
  have hblank : readBlank scope state = none := by
    rw [readBlank, hrest]
    rcases hx with rfl | rfl <;> cases bracket <;> rfl
  have hnumeral : readNumeral scope state = none := by
    rw [readNumeral, hrest]
    rcases hx with rfl | rfl <;> cases bracket <;> cases scope.dialect.extendedNumbers <;>
      cases b <;> rfl
  have hurl : readUrlOpening scope state = none := by
    rw [readUrlOpening, hrest]
    have hletter : Byte.isLetterOf 0x75 x = false := by
      rcases hx with rfl | rfl <;> cases bracket <;> rfl
    match b with
    | [] | [_] | [_, _] | _ :: _ :: _ :: _ => simp [beginsUrl, hletter]
  have hcomment : readCommentOpening scope state = none := by
    have hslash : (Byte.slash == x) = false := by
      rcases hx with rfl | rfl <;> cases bracket <;> rfl
    rw [readCommentOpening, readBlockOpening, readLineOpening, facingPair, facingPair, hrest,
      List.isPrefixOf, List.isPrefixOf, hslash]
    simp
  have hcdx : readCdx scope state = none := by
    rw [readCdx, hrest]
    split
    · rcases hx with rfl | rfl <;> cases bracket <;> rfl
    · rfl
  have hidentifier : readIdentifierOpening scope state = none := by
    rw [readIdentifierOpening, hrest]
    rcases hx with rfl | rfl <;> cases bracket <;> cases b <;> rfl
  have hhash : readHashOpening scope state = none := by
    rw [readHashOpening, hrest]
    rcases hx with rfl | rfl <;> cases bracket <;> rfl
  have hquoted : readQuotedOpening scope state = none := by
    rw [readQuotedOpening, hrest]
    rcases hx with rfl | rfl <;> cases bracket <;> rfl
  have hseparator : readSeparator scope state = none := by
    rw [readSeparator, hrest]
    rcases hx with rfl | rfl <;> cases bracket <;> rfl
  have hoperator : readOperator scope state = none := by
    rw [readOperator, hrest]
    rcases hx with rfl | rfl <;> cases bracket <;> rfl
  have hcontinuation : readContinuation scope state = none := by
    rw [readContinuation, hrest]
    rcases hx with rfl | rfl <;> cases bracket <;> rfl
  simp only [readersOf, findSome?_or, hblank, hnumeral, hurl, hcomment, hcdx, hidentifier, hhash,
    hquoted, hseparator, hoperator, hcontinuation, Option.none_or, List.findSome?_nil,
    Option.or_none]

/-- An opener opens its group. -/
theorem readGroupOpening_opener (scope : Scope) {bracket : Bracket}
    (hrest : state.rest = bracket.opener :: b) :
    readGroupOpening scope state = some (state.enter scope (.group bracket) 1) := by
  rw [readGroupOpening, hrest]
  cases bracket <;> rfl

/-- So of the readers before that of groups, only those of fragments accept a brace. -/
theorem readers_brace (scope : Scope) (hrest : state.rest = Byte.leftBrace :: b) :
    (readersOf .root).findSome? (fun reader => reader scope state) =
      (readQuasiOpening scope state).or ((readAnnotationOpening scope state).or
        (some (state.enter scope (.group .curly) 1))) := by
  have hbrace : state.rest = Bracket.curly.opener :: b := hrest
  rw [readers_bracket scope (Or.inl rfl) hbrace, readGroupOpening_opener scope hbrace,
    Option.some_or]

/-- A brace in the root opens a group, in a fragment or by itself. -/
theorem Never.of_root_brace (hb : b ≠ []) (hsturdy : state.view.Sturdy)
    (hrun : state.halted = false) (hroot : state.frame.branch = .root)
    (hrest : state.rest = Byte.leftBrace :: b) : Never scope b state := by
  have hnext : readNext scope state =
      ((readQuasiOpening scope state).or ((readAnnotationOpening scope state).or
        (some (state.enter scope (.group .curly) 1)))).getD state := by
    rw [readNext, State.context, hroot]
    exact congrArg (Option.getD · state) (readers_brace scope hrest)
  have hfragment : ∀ branch : Branch, branch.isFragment = true →
      readNext scope state = state.openBranch branch → Never scope b state := by
    intro branch hfragment heq
    have hopened := hsturdy.next scope hrun (by rw [hrest]; simp)
    refine Never.of_next ?_ ?_
    · intro hsame
      exact absurd (hrest.symm.trans hsame) (cons_append_ne _ [])
    · rw [heq] at hopened ⊢
      refine Never.of_group hb hopened hrun hrest ?_
      have hclosing : readFragmentClosing scope (state.openBranch branch) = none :=
        readFragmentClosing_eq_none fun bracket h => by cases h
      have hoperator : readOperator scope (state.openBranch branch) = none := by
        rw [readOperator, show (state.openBranch branch).rest = _ from hrest]
        rfl
      have hgroup : readGroupOpening scope (state.openBranch branch) =
          some ((state.openBranch branch).enter scope (.group .curly) 1) := by
        rw [readGroupOpening, show (state.openBranch branch).rest = _ from hrest]
        rfl
      rw [readNext, readersOf_fragment hfragment, findSome?_or, hclosing, findSome?_or, hoperator,
        findSome?_or, hgroup]
      rfl
  -- the first of the three that accepts opens the fragment or the group
  cases hquasi : readQuasiOpening scope state with
  | some opened =>
    obtain ⟨form, -, rfl⟩ := Option.map_eq_some_iff.mp hquasi
    rw [hquasi] at hnext
    exact hfragment _ rfl hnext
  | none =>
    cases hannotation : readAnnotationOpening scope state with
    | some opened =>
      obtain ⟨form, -, rfl⟩ := Option.map_eq_some_iff.mp hannotation
      rw [hquasi, hannotation] at hnext
      exact hfragment _ rfl hnext
    | none =>
      rw [hquasi, hannotation] at hnext
      exact Never.of_group hb hsturdy hrun hrest hnext

/-- So does one in a branch that needs a byte to close. -/
theorem Never.of_wide_brace (hb : b ≠ []) (hsturdy : state.view.Sturdy)
    (hrun : state.halted = false) (hwide : state.frame.branch.isNarrow = false)
    (hrest : state.rest = Byte.leftBrace :: b) : Never scope b state := by
  cases houter : state.outer with
  | nil =>
    exact Never.of_root_brace hb hsturdy hrun (hsturdy.eq_root_iff.mpr houter) hrest
  | cons around further =>
    refine Never.of_walled_brace hb hsturdy.ready hrest (Walled.of_frame ?_ hwide)
    rw [show state.view.outer = around :: further from houter]
    exact List.cons_ne_nil _ _

/-- **A brace that opens is never the last byte before a place outside of all branches.** -/
theorem Never.of_brace (hb : b ≠ []) (hsturdy : state.view.Sturdy) (hrun : state.halted = false)
    (hfragment : state.frame.branch.isFragment = false)
    (hrest : state.rest = Byte.leftBrace :: b) : Never scope b state := by
  cases hname : state.frame.branch.isName with
  | false =>
    refine Never.of_wide_brace hb hsturdy hrun ?_ hrest
    rw [Branch.isNarrow, hname, hfragment]
    rfl
  | true =>
    -- the name is complete, and the branch around it is wide
    have hnext := readNext_name_close scope hname (hrest ▸ not_nameAhead_brace)
    rcases closeAtEnd?_closes state with
      ⟨-, hnil⟩ | ⟨closed, branch, valid, around, further, hsome, houter, hview, -, -⟩
    · have hroot : state.frame.branch = .root := hsturdy.eq_root_iff.mpr hnil
      rw [hroot] at hname
      cases hname
    · have hnested := hsturdy.ready.nested
      rw [houter] at hnested
      have hwide : around.branch.isNarrow = false :=
        hnested.1 (by rw [Branch.isNarrow, show state.view.frame.branch.isName = true from hname,
          Bool.true_or])
      have hclosed := hsturdy.next scope hrun (by rw [hrest]; simp)
      rw [hsome, Option.getD_some] at hnext
      refine Never.of_next ?_ ?_
      · intro hsame
        exact absurd (hrest.symm.trans hsame) (cons_append_ne _ [])
      · rw [hnext] at hclosed ⊢
        refine Never.of_wide_brace hb hclosed ?_ ?_ ?_
        · exact (congrArg View.halted hview).trans hrun
        · rw [show closed.frame = _ from congrArg View.frame hview]
          exact hwide
        · exact (congrArg View.rest hview).trans hrest

end Scan
end StyleLex
