/-
# Names are read as they are spelled

A name may be spelled in many ways (`Name.Spelled`).  Whichever is taken, the source is one
identifier, and its value is the name (`Lexer.spelled_name_read`): escaping a name and reading it
back changes nothing.

The identifier is opened by the first turn.  From then on the texts of its children so far and the
characters that are spelled ahead make the name (`View.Naming`): a turn takes either one escape or a
whole run of characters that stand for themselves, so each child is a part of the name, decoded by
itself.

A character has several spellings: itself, if it may stand in a name; its number in hexadecimal
digits, with an optional blank behind it; and itself behind a backslash.  They may be mixed within
one name, and which of them are open to a character depends on where in the name it stands and on
what follows.  The theorem is about all choices at once, since `Name.Spelled` is a relation between
a name and its possible texts.

Where one child ends and the next begins is not determined by the name: a run of plain characters is
one child however long it is.  So the invariant is about the joined texts, not about the children.
-/
import StyleLex.Proofs.Hashes
import StyleLex.Proofs.Scan.Opening
import StyleLex.Proofs.Scan.Splitting
import StyleLex.Proofs.Tiling
import StyleLex.Proofs.Token.Spelled

namespace StyleLex

/-- An escape has the text of the character that it stands for. -/
theorem Escape.text_toNat (c : Char) : Escape.text ⟨some c.toNat⟩ = c.toString := by
  have hvalid : c.toNat.isValidChar := c.valid
  simp [Escape.text, Escape.charOf, hvalid]

namespace Scan

variable {scope : Scope} {state : State} {view : View} {bytes : Array UInt8} {text : String}

/-! ## 1. Turns in an identifier

In an identifier there are two ways to go on, and one lemma for each. -/

/-- An escape is read as one. -/
theorem readNext_identifier_escape {value : String} {reading : Escape.Reading}
    (hbranch : state.frame.branch = .identifier value)
    (hread : Escape.read? scope.dialect state.rest = some reading) :
    readNext scope state = state.escaped scope reading := by
  have hcontext : state.context = .identifier := congrArg Branch.context hbranch
  have hfirst : readEscape scope state = some (state.escaped scope reading) := by
    rw [readEscape, hread]
    rfl
  exact readNext_of_first (by rw [hcontext, readersOf]) hfirst

/-- Characters of names are read as far as they go. -/
theorem readNext_identifier_run {value : String} (hbranch : state.frame.branch = .identifier value)
    (hrun : state.rest.takeWhile Byte.isName ≠ []) :
    readNext scope state =
      state.takeLeaf scope .raw (state.rest.takeWhile Byte.isName).length := by
  have hcontext : state.context = .identifier := congrArg Branch.context hbranch
  have hescape : readEscape scope state = none := by
    rw [readEscape, readEscape_eq_none scope (begins_of_run hrun)]
    rfl
  have hread : readNameRun scope state =
      some (state.takeLeaf scope .raw (state.rest.takeWhile Byte.isName).length) := by
    obtain ⟨b, tail, heq⟩ := List.exists_cons_of_ne_nil hrun
    simp only [readNameRun, heq]
  exact readNext_of_second (by rw [hcontext, readersOf]) hescape hread

/-! ## 2. What holds between turns

The scan of a name has three phases.  In the middle one, what was read and what is ahead make the
name; `gathered` is that equation. -/

/-- A scan of a name that is spelled, up to its end: before the identifier, inside it, or behind
it. -/
inductive View.Naming (bytes : Array UInt8) (start : Draft) (text : String) (view : View) :
    Prop where
  | before (root : view.frame.branch = .root) (outer : view.outer = []) (marks : view.marks = [])
      (running : view.halted = false) (whole : view.rest = bytes.toList)
  | inside {remaining : List Char} {around : Frame} {surround : Draft.Frame}
      (branch : view.frame.branch = .identifier "") (outer : view.outer = [around])
      (spelled : Name.Spellings remaining view.rest)
      (gathered : Item.textAll bytes ((view.draft start).settle view.position).frame.done ++
        String.ofList remaining = text)
      (drafted : (view.draft start).outer = [surround]) (alone : surround.done = [])
  | behind {item : Item} (outer : view.outer = []) (rest : view.rest = [])
      (loose : (view.draft start).loose = [item]) (alone : (view.draft start).frame.done = [])
      (kind : item.label.kind = .branch (.identifier "")) (valid : item.label.valid = true)
      (gathered : Item.textAll bytes item.children = text)

namespace View.Naming

/-- **A leaf in the identifier is the next part of the name.** -/
theorem leaf {start : Draft} {leaf : Leaf} {valid : Bool} {n : Nat} {around : Frame}
    {surround : Draft.Frame} {front further : List Char}
    (branch : view.frame.branch = .identifier "") (outer : view.outer = [around])
    (gathered : Item.textAll bytes ((view.draft start).settle view.position).frame.done ++
      String.ofList (front ++ further) = text)
    (drafted : (view.draft start).outer = [surround]) (alone : surround.done = [])
    (hleaf : Item.text bytes (.node ⟨((view.draft start).settle view.position).next, .leaf leaf,
      valid, ⟨view.position, (view.consume scope n).position⟩⟩ []) = String.ofList front)
    (hmore : Name.Spellings further (view.rest.drop n)) :
    ((view.addLeaf leaf valid view.frame.branch).consume scope n).Naming bytes start text := by
  have hdrafted :
      (((view.addLeaf leaf valid view.frame.branch).consume scope n).draft start).outer =
        [surround] := by
    rw [draft_consume, draft_addLeaf]
    exact (Draft.outer_settle _ _).trans drafted
  refine .inside branch outer hmore ?_ hdrafted alone
  · rw [draft_consume, draft_addLeaf]
    rw [String.ofList_append, ← hleaf, ← String.append_assoc, ← Item.textAll_concat] at gathered
    exact gathered

/-- The first turn opens the identifier. -/
theorem opened (hname : Name.Spellings text.toList bytes.toList) (outer : view.outer = [])
    (marks : view.marks = []) (whole : view.rest = bytes.toList) :
    (view.openBranch (.identifier "")).Naming bytes (Lexer.blank { bytes := bytes }) text := by
  have hdraft : view.draft (Lexer.blank { bytes := bytes }) = Lexer.blank { bytes := bytes } := by
    rw [View.draft, marks]
    rfl
  have hopened : (view.openBranch (.identifier "")).outer =
      [{ view.frame with pending := none }] := by
    rw [View.openBranch, outer]
  have hdrafted :
      ((view.openBranch (.identifier "")).draft (Lexer.blank { bytes := bytes })).outer =
        [(Lexer.blank { bytes := bytes }).frame] := by
    rw [draft_openBranch, hdraft]
    rfl
  rw [← whole] at hname
  refine .inside rfl hopened hname ?_ hdrafted rfl
  rw [draft_openBranch, hdraft]
  exact String.empty_append.trans String.ofList_toList

/-- At the end of the input it is complete. -/
theorem closed {start : Draft} {around : Frame} {surround : Draft.Frame}
    (branch : view.frame.branch = .identifier "") (rest : view.rest = [])
    (gathered : Item.textAll bytes ((view.draft start).settle view.position).frame.done = text)
    (drafted : (view.draft start).outer = [surround]) (alone : surround.done = []) :
    (view.closeBranch view.frame.branch true around []).Naming bytes start text := by
  have hdraft : (view.closeBranch view.frame.branch true around []).draft start = _ :=
    (draft_closeBranch _ _ _ _ view start).trans (Draft.take_closed drafted _ _ _)
  have hloose : ((view.closeBranch view.frame.branch true around []).draft start).loose =
      [Draft.closing (.identifier "") true ((view.draft start).settle view.position).frame] := by
    rw [hdraft, branch]
    rfl
  refine .behind rfl rest hloose ?_ rfl rfl gathered
  rw [hdraft]
  exact alone

end View.Naming

/-! ## 3. Turns

Each turn is one of three: it opens the identifier, takes an escape, or takes a run. -/

/-- Bytes that begin as a name does begin nothing that is read before names. -/
theorem readNext_of_spelled (hmade : scope.fragments.Made)
    (hstandard : scope.dialect.standardEscapes = true)
    (hextended : scope.dialect.extendedEscapes = false) (hroot : state.frame.branch = .root)
    (hname : Name.Spelled text state.rest) :
    readNext scope state = state.openBranch (.identifier "") := by
  obtain ⟨hspelled, b, tail, hrest, hfirst⟩ := hname.begins hstandard hextended
  have hlead : Byte.leadsName b = true ∧ Byte.isOperator b = false ∧ Byte.isOpener b = false := by
    rcases hfirst with hbegins | ⟨rfl, -⟩
    · obtain ⟨-, hhyphen, hstart, hoperator, hopener⟩ := Name.apart_of_beginsName hbegins
      exact ⟨by simp [Byte.leadsName, hstart, hhyphen], hoperator, hopener⟩
    · decide
  have hurl : beginsUrl state.rest = false := by
    rw [Bool.eq_false_iff]
    intro hurl
    -- behind the letters of an address stands a byte that no name goes on with
    obtain ⟨front, further, -, -, hmore⟩ := hspelled.run hstandard hextended
    obtain ⟨tail, hdrop⟩ := name_of_beginsUrl hurl
    rw [hdrop] at hmore
    exact absurd (hmore.head hstandard hextended) (by decide)
  refine readNext_identifier hmade hroot hrest hlead.1 hurl ?_ ?_
  · rw [Unbracketed, hrest, List.dropWhile_cons_of_neg (by rw [hlead.2.1]; decide)]
    exact hlead.2.2
  · rw [hrest, beginsIdentifier]
    rcases hfirst with hbegins | ⟨rfl, hescape⟩
    · obtain ⟨-, hhyphen, hstart, -⟩ := Name.apart_of_beginsName hbegins
      rw [if_neg (by simpa using hhyphen), hstart, Bool.true_or]
    · rw [if_neg (by decide), ← hrest, hescape, Bool.or_true]

/-- **Every turn goes on with the name.** -/
theorem readNext_naming (hmade : scope.fragments.Made)
    (hstandard : scope.dialect.standardEscapes = true)
    (hextended : scope.dialect.extendedEscapes = false) (hname : Name.Spelled text bytes.toList)
    (hahead : state.view.Ahead bytes bytes.size) (ahead : state.rest ≠ [])
    (h : state.view.Naming bytes (Lexer.blank { bytes := bytes }) text) :
    (readNext scope state).view.Naming bytes (Lexer.blank { bytes := bytes }) text := by
  cases h with
  | before root outer marks running whole =>
    have hspelled : Name.Spelled text state.view.rest := whole ▸ hname
    rw [readNext_of_spelled hmade hstandard hextended root hspelled]
    exact .opened (hname.begins hstandard hextended).1 outer marks whole
  | @inside remaining around surround branch outer spelled gathered drafted alone =>
    have hcontinues : Name.Continues scope.dialect remaining state.rest :=
      spelled.continues hstandard hextended
    generalize hrest : state.rest = rest at hcontinues
    -- what is ahead is nothing, an escape, or a run, and there is something ahead
    cases hcontinues with
    | nothing => exact absurd hrest ahead
    | @escape c further _ length read more =>
      subst hrest
      rw [readNext_identifier_escape branch read, view_escaped]
      exact .leaf branch outer gathered drafted alone (Escape.text_toNat c) more
    | @run front further _ ahead own more =>
      subst hrest
      rw [readNext_identifier_run branch ahead]
      refine .leaf branch outer gathered drafted alone ?_ more
      have hslice : _ = state.rest.take (state.rest.takeWhile Byte.isName).length :=
        hahead.slice scope (state.rest.takeWhile Byte.isName).length
      rw [← List.prefix_iff_eq_take.mp (List.takeWhile_prefix _)] at hslice
      rw [show Item.text bytes _ = Span.read _ bytes from rfl, Span.read, hslice, own,
        Utf8.decode_flatMap]
  | behind outer rest => exact absurd rest ahead

/-- **The end of the input completes the name.** -/
theorem closeAtEnd?_naming {dialect : Dialect} {closed : State} {start : Draft}
    (hstandard : dialect.standardEscapes = true) (hextended : dialect.extendedEscapes = false)
    (hrest : state.rest = []) (hclosed : state.closeAtEnd? = some closed)
    (h : state.view.Naming bytes start text) : closed.view.Naming bytes start text := by
  obtain ⟨around, further, houter⟩ : ∃ around further, state.view.outer = around :: further := by
    rcases closeAtEnd?_closes state with ⟨hnone, -⟩ | ⟨-, -, -, around, further, -, houter, -⟩
    · rw [hnone] at hclosed
      cases hclosed
    · exact ⟨around, further, houter⟩
  have hne : state.view.outer ≠ [] := by
    rw [houter]
    exact List.cons_ne_nil _ _
  cases h with
  | before root outer => exact absurd outer hne
  | @inside remaining around surround branch outer spelled gathered drafted alone =>
    have hclose : state.closeBranch? true = some closed := by
      rw [State.closeAtEnd?, show state.frame.branch = .identifier "" from branch] at hclosed
      exact hclosed
    obtain ⟨other, further, hother, hview⟩ := closeBranch?_eq_some hclose
    rw [outer] at hother
    obtain ⟨rfl, rfl⟩ := List.cons.inj hother
    -- nothing is left to be spelled, so what was gathered is the name
    rw [show state.view.rest = [] from hrest] at spelled
    rw [spelled.eq_nil hstandard hextended, String.ofList_nil, String.append_empty] at gathered
    rw [hview]
    exact .closed branch hrest gathered drafted alone
  | behind outer => exact absurd outer hne

end Scan

/-! ## 4. Whole names

A scan that is through with its input has closed the identifier. -/

/-- The items of a name that is spelled: one identifier, with the name as its text. -/
theorem Lexer.items_of_spelled {lexer : Lexer} (hmade : lexer.fragments.Made)
    (hstandard : lexer.dialect.standardEscapes = true)
    (hextended : lexer.dialect.extendedEscapes = false) {text : String} {bytes : Array UInt8}
    (hname : Name.Spelled text bytes.toList) :
    ∃ item : Item, lexer.items { bytes := bytes } = [item] ∧
      item.label.kind = .branch (.identifier "") ∧ item.label.valid = true ∧
      Item.textAll bytes item.children = text := by
  have hahead : (initial .root { bytes := bytes }).view.Ahead bytes bytes.size := by
    rw [← Source.limit_all bytes Position.origin]
    exact initial_ahead .root { bytes := bytes }
  have hstart : (initial .root { bytes := bytes }).view.Naming bytes (blank { bytes := bytes })
      text := .before rfl rfl rfl rfl (Source.range_all bytes)
  obtain ⟨houter, ⟨-, hnaming⟩, hdone⟩ := Scan.run_states
    (P := fun state => state.view.Ahead bytes bytes.size ∧
      state.view.Naming bytes (blank { bytes := bytes }) text)
    (initial_fresh .root { bytes := bytes }) ⟨hahead, hstart⟩
    (fun state _ ahead _ h =>
      ⟨h.1.step (Scan.readNext_step (lexer.scope { bytes := bytes }) ahead),
        Scan.readNext_naming hmade hstandard hextended hname h.1 ahead h.2⟩)
    fun before after _ hrest hclosed h =>
      ⟨h.1.step (Scan.closeAtEnd?_step (lexer.scope { bytes := bytes }) hrest hclosed),
        Scan.closeAtEnd?_naming hstandard hextended hrest hclosed h.2⟩
  -- the scan is done and nothing is open, so it is in its last phase
  cases hnaming with
  | before root outer marks running whole =>
    obtain ⟨-, b, tail, hbytes, -⟩ := hname.begins hstandard hextended
    rcases hdone with hrest | hhalted
    · exact absurd (hrest.symm.trans (whole.trans hbytes)) (List.cons_ne_nil _ _).symm
    · exact absurd (hhalted.symm.trans running) (by decide)
  | inside branch outer => exact absurd (outer.symm.trans houter) (List.cons_ne_nil _ _)
  | @behind item outer rest loose alone kind valid gathered =>
    refine ⟨Item.endAt (lexer.scan .root { bytes := bytes }).position item, ?_, ?_, ?_, ?_⟩
    · have hitems : lexer.items { bytes := bytes } = _ ++ _ := Draft.done_frame_settle _ _
      rw [hitems]
      exact congrArg₂ (· ++ List.map (Item.endAt (lexer.scan .root { bytes := bytes }).position) ·)
        alone loose
    · rw [Item.kind_label_endAt]
      exact kind
    · obtain ⟨label, below⟩ := item
      exact valid
    · rw [Item.children_endAt]
      exact gathered

/-- **A name is read back from all its spellings.**  In a dialect with standard and without extended
escapes, the source is one identifier from its first byte to its last, and the name is its value. -/
theorem Lexer.spelled_name_read {dialect : Dialect} {lexer : Lexer}
    (hlexer : Lexer.ofDialect dialect = .ok lexer) (hstandard : dialect.standardEscapes = true)
    (hextended : dialect.extendedEscapes = false) {text : String} {bytes : Array UInt8}
    (hname : Name.Spelled text bytes.toList) :
    ∃ (id : NodeId) (node : Node),
      (lexer.tokenizeBytes bytes).tree.children Tree.root = #[id] ∧
      (lexer.tokenizeBytes bytes).tree.node? id = some node ∧
      node.kind = .branch (.identifier text) ∧ node.valid = true ∧
      node.span.start.byte = 0 ∧ node.span.stop.byte = bytes.size := by
  have hmade := Lexer.ofDialect_made hlexer
  rw [← Lexer.dialect_of_ofDialect hlexer] at hstandard hextended
  obtain ⟨item, hitems, hkind, hvalid, htext⟩ :=
    Lexer.items_of_spelled hmade hstandard hextended hname
  have hshown := lexer.tokenizeBytes_shown bytes
  rw [hitems] at hshown
  obtain ⟨root, hroot, -, -, -, -, hchildren⟩ := hshown.root
  obtain ⟨node, hnode, hshows⟩ := (hshown.held item (List.mem_singleton_self _)).shows
  obtain ⟨hstart, hstop⟩ := hshown.abut
  refine ⟨item.label.id, node, ?_, hnode, ?_, hshows.valid.trans hvalid, ?_, ?_⟩
  · rw [Tree.children, hroot, Option.map_some, Option.getD_some, hchildren]
    rfl
  · rw [hshows.kind, ← htext]
    obtain ⟨⟨id, kind, valid, span⟩, below⟩ := item
    obtain rfl : kind = .branch (.identifier "") := hkind
    rfl
  · rw [hshows.span]
    exact hstart
  · rw [hshows.span]
    exact hstop

/-- A name in three spellings: `é`, then a space behind a backslash, then `1` by its number. -/
theorem Lexer.mixed_spelling_read :
    ∃ (id : NodeId) (node : Node),
      (Lexer.tokenizeBytes ⟨Dialect.standard, Fragments.empty⟩ #[0xC3, 0xA9, 0x5C, 0x20, 0x5C, 0x33,
        0x31, 0x0D, 0x0A]).tree.children Tree.root = #[id] ∧
      (Lexer.tokenizeBytes ⟨Dialect.standard, Fragments.empty⟩ #[0xC3, 0xA9, 0x5C, 0x20, 0x5C, 0x33,
        0x31, 0x0D, 0x0A]).tree.node? id = some node ∧
      node.kind = .branch (.identifier "é 1") ∧ node.valid = true ∧
      node.span.start.byte = 0 ∧ node.span.stop.byte = 9 := by
  have hdigits : Numeral.Digits 16 [0x33, 0x31] [3, 1] :=
    .cons (by unfold Byte.Denotes; decide) (.cons (by unfold Byte.Denotes; decide) .nil)
  have hnumbered : Name.Spelling Byte.isName '1' [0x5C, 0x33, 0x31, 0x0D, 0x0A] :=
    .numbered hdigits (by decide) (by decide) (Or.inr (Or.inr rfl))
  have hliteral : Name.Spelling Byte.isName ' ' [0x5C, 0x20] := by
    refine .literal (fun b value hb => ?_) (by decide)
    unfold Byte.Denotes
    rw [hb]
    have hspace : ' '.toNat = 0x20 := rfl
    omega
  have hplain : Name.Spelling Byte.beginsName 'é' [0xC3, 0xA9] :=
    .plain (c := 'é') (by decide +kernel)
  have hname : Name.Spelled "é 1" [0xC3, 0xA9, 0x5C, 0x20, 0x5C, 0x33, 0x31, 0x0D, 0x0A] :=
    .intro rfl hplain (.cons hliteral (.cons hnumbered .nil))
  have hlexer : Lexer.ofDialect Dialect.standard = .ok ⟨Dialect.standard, Fragments.empty⟩ := by rfl
  exact Lexer.spelled_name_read hlexer rfl rfl hname

end StyleLex
