/-
# Where items stand

The items of a scan stand side by side: each one begins where the one before it ends, the first
one inside a branch begins behind the opener, and behind the last one stands what ends the branch
(`Item.Sits`).  The draft of a scan is laid out so at any time, if the pending item is taken to
end where the scan is (`View.Laid`), and every step keeps it so (`View.Laid.step`).  At the end
the items of the root stand side by side from the first byte to the last (`Lexer.laid`).

`Item.Sits` says of one item what the bytes of the input say: a leaf has bytes and is flagged as
they deserve, and the items of a branch fill it from behind its opener to where one of the ways of
`Ends` ends it.  It does not say how the item was read.  Everything that later modules say about
bytes and spans of a finished tree rests on it, so they need no scan any more.

The invariant of the scan has three layers: one open branch is filled up to some place
(`Fills`), the open branches are filled up to each other (`Stacked`), and the innermost one is
filled up to where the scan is (`View.Laid`).  The last child of a branch is pending until the
next step, and its end is not known yet, so the layout is that of the draft after the child is
completed here.  That is why a leaf may grow without breaking it.
-/
import StyleLex.Proofs.Scan.Drafting

namespace StyleLex

/-! ## 1. Positions

Of a position only the byte matters here; lines and columns have a module of their own. -/

/-- One byte further, whatever it does to lines and columns. -/
theorem Position.byte_advance (position : Position) (b : UInt8) (next : Option UInt8) :
    (position.advance b next).byte = position.byte + 1 := by
  unfold Position.advance
  split <;> rfl

/-- As many bytes further as there are. -/
theorem Position.byte_advanceOver (after : Option UInt8) :
    ∀ (bytes : List UInt8) (position : Position),
    (position.advanceOver after bytes).byte = position.byte + bytes.length
  | [], _ => rfl
  | b :: rest, position => by
    rw [advanceOver, byte_advanceOver after rest, byte_advance, List.length_cons]
    omega

/-! ## 2. Side by side

`Abut a items b` is about spans alone and leaves open what the items are, so that it applies to the
items of the root, to those of a branch and to those that a branch has got so far. -/

namespace Item

/-- Items that follow each other from `a` to `b`. -/
def Abut : Nat → List Item → Nat → Prop
  | a, [], b => a = b
  | a, item :: rest, b => item.label.span.start.byte = a ∧ Abut item.label.span.stop.byte rest b

/-- An item at the end, if it begins where the others end. -/
theorem abut_concat {item : Item} : ∀ {a b : Nat} {items : List Item},
    Abut a items item.label.span.start.byte → item.label.span.stop.byte = b →
    Abut a (items ++ [item]) b
  | _, _, [], h, hstop => ⟨Eq.symm h, hstop⟩
  | _, _, _ :: _, h, hstop => ⟨h.1, abut_concat h.2 hstop⟩

/-- What stands between two items, from the end of the first part to the last item. -/
theorem abut_split {item : Item} : ∀ {a b : Nat} {items : List Item},
    Abut a (items ++ [item]) b →
    Abut a items item.label.span.start.byte ∧ item.label.span.stop.byte = b
  | _, _, [], h => ⟨Eq.symm h.1, h.2⟩
  | _, _, _ :: _, h => ⟨⟨h.1, (abut_split h.2).1⟩, (abut_split h.2).2⟩

/-- The items before one that is given lead to its beginning. -/
theorem Abut.front {item : Item} {back : List Item} : ∀ {a b : Nat} {front : List Item},
    Abut a (front ++ item :: back) b → Abut a front item.label.span.start.byte
  | _, _, [], h => Eq.symm h.1
  | _, _, _ :: _, h => ⟨h.1, h.2.front⟩

/-- Items that follow each other lead to where the last one ends. -/
theorem Abut.eq_end : ∀ {a b : Nat} {items : List Item}, Abut a items b →
    b = (items.getLast?.map (·.label.span.stop.byte)).getD a
  | _, _, [], h => Eq.symm h
  | _, _, [_], h => Eq.symm h.2
  | _, _, _ :: second :: rest, h => by
    rw [h.2.eq_end, List.getLast?_cons_cons, List.getLast?_eq_some_getLast (List.cons_ne_nil _ _)]
    rfl

/-- `Sits dialect input item` says where an item stands in the input, and what its flag says. -/
inductive Sits (dialect : Dialect) (input : List UInt8) : Item → Prop where
  | leaf {id : NodeId} {leaf : Leaf} {valid : Bool} {span : Span}
      (proper : span.start.byte < span.stop.byte) (inside : span.stop.byte ≤ input.length)
      (sound : valid = true ↔ leaf.Sound ((input.drop span.start.byte).take span.length)) :
      Sits dialect input (.node ⟨id, .leaf leaf, valid, span⟩ [])
  | branch {id : NodeId} {branch : Branch} {valid : Bool} {span : Span} {below : List Item}
      {inner : Nat} (proper : span.start.byte < span.stop.byte)
      (inside : span.stop.byte ≤ input.length) (named : branch ≠ .root)
      (abut : Abut (span.start.byte + branch.openerLength) below inner)
      (closing : inner ≤ span.stop.byte)
      (ends : Ends dialect branch (below.getLast?.map (·.label.kind)) (input.drop inner) valid
        (span.stop.byte - inner)) :
      Sits dialect input (.node ⟨id, .branch branch, valid, span⟩ below)

variable {dialect : Dialect} {input : List UInt8}

/-- No item is empty. -/
theorem Sits.proper {item : Item} (h : Sits dialect input item) :
    item.label.span.start.byte < item.label.span.stop.byte := by
  cases h <;> assumption

/-- No item stands outside the input. -/
theorem Sits.inside {item : Item} (h : Sits dialect input item) :
    item.label.span.stop.byte ≤ input.length := by
  cases h <;> assumption

/-- An item and everything below it. -/
def Laid (dialect : Dialect) (input : List UInt8) (item : Item) : Prop :=
  ∀ sub ∈ item.subtrees, Sits dialect input sub

/-- An item is laid out if it sits where it should, and its children are. -/
theorem laid_iff {item : Item} :
    Laid dialect input item ↔
      Sits dialect input item ∧ ∀ child ∈ item.children, Laid dialect input child :=
  Rose.forall_mem_subtrees

/-- Items that follow each other lead forward, and some lead further than none. -/
theorem Abut.le : ∀ {a b : Nat} {items : List Item}, Abut a items b →
    (∀ item ∈ items, Sits dialect input item) → a ≤ b
  | _, _, [], h, _ => Nat.le_of_eq h
  | _, _, item :: _, h, hsits => by
    have hproper := (hsits item List.mem_cons_self).proper
    have hrest := h.2.le fun item hin => hsits item (List.mem_cons_of_mem _ hin)
    have hfirst := h.1
    omega

/-- Some items lead further than none, as none of them is empty. -/
theorem Abut.lt {a b : Nat} {items : List Item} (h : Abut a items b)
    (hsits : ∀ item ∈ items, Sits dialect input item) (hne : items ≠ []) : a < b := by
  obtain ⟨item, rest, rfl⟩ := List.exists_cons_of_ne_nil hne
  have hproper := (hsits item List.mem_cons_self).proper
  have hrest := h.2.le fun item hin => hsits item (List.mem_cons_of_mem _ hin)
  have hfirst := h.1
  omega

end Item

/-! ## 3. Open branches

The frames of the scan say which branches are open, and those of the draft say what was made inside
them; `Stacked` follows both stacks together.  Only the innermost branch is filled up to the scan,
every other one up to the beginning of the branch inside it. -/

namespace Scan

variable {scope : Scope} {dialect : Dialect} {input : List UInt8} {view after : View}
  {start : Draft}

/-- An open branch is filled with its items, from behind its opener up to `stop`. -/
structure Fills (dialect : Dialect) (input : List UInt8) (stop : Nat) (frame : Frame)
    (drafted : Draft.Frame) : Prop where
  origin : drafted.origin.span = Span.point frame.start
  abut : Item.Abut (frame.start.byte + frame.branch.openerLength) drafted.done stop
  laid : ∀ item ∈ drafted.done, Item.Laid dialect input item

/-- Open branches, from the inside out: each is filled up to the one inside it, and the innermost
one up to `stop`.  The outermost one is a root that begins with the input. -/
def Stacked (dialect : Dialect) (input : List UInt8) (stop : Nat) (frame : Frame)
    (drafted : Draft.Frame) : List Frame → List Draft.Frame → Prop
  | [], [] =>
    Fills dialect input stop frame drafted ∧ frame.branch = .root ∧
      frame.start = Position.origin
  | around :: further, surround :: beyond =>
    Fills dialect input stop frame drafted ∧ frame.branch ≠ .root ∧
      Stacked dialect input frame.start.byte around surround further beyond
  | _, _ => False

/-- The innermost branch is filled, whether there is one around it or not. -/
theorem Stacked.fills {stop : Nat} {frame : Frame} {drafted : Draft.Frame} {outer : List Frame}
    {beyond : List Draft.Frame} (h : Stacked dialect input stop frame drafted outer beyond) :
    Fills dialect input stop frame drafted := by
  cases outer <;> cases beyond
  · exact h.1
  · exact h.elim
  · exact h.elim
  · exact h.1

/-- One more item in the innermost branch fills it further. -/
theorem Stacked.fill {stop stop' : Nat} {frame frame' : Frame} {drafted drafted' : Draft.Frame}
    {outer : List Frame} {beyond : List Draft.Frame}
    (h : Stacked dialect input stop frame drafted outer beyond)
    (halike : frame.branch.Alike frame'.branch) (hstart : frame'.start = frame.start)
    (hfills : Fills dialect input stop' frame' drafted') :
    Stacked dialect input stop' frame' drafted' outer beyond := by
  cases outer <;> cases beyond
  · obtain ⟨-, hroot, hfirst⟩ := h
    exact ⟨hfills, halike.eq_root_iff.mp hroot, hstart.trans hfirst⟩
  · exact h.elim
  · exact h.elim
  · obtain ⟨-, hroot, hstacked⟩ := h
    exact ⟨hfills, fun heq => hroot (halike.eq_root_iff.mpr heq), hstart ▸ hstacked⟩

/-- Hence an item that begins where the branch is filled up to, and is laid out itself, may be put
at the end. -/
theorem Stacked.concat {stop : Nat} {frame : Frame} {drafted : Draft.Frame} {outer : List Frame}
    {beyond : List Draft.Frame} (h : Stacked dialect input stop frame drafted outer beyond)
    {branch : Branch} (halike : frame.branch.Alike branch) (pending : Option Kind) {item : Item}
    (hitem : Item.Laid dialect input item) (hfollows : item.label.span.start.byte = stop) :
    Stacked dialect input item.label.span.stop.byte ⟨branch, frame.start, pending⟩
      { drafted with done := drafted.done ++ [item] } outer beyond := by
  have hfills := h.fills
  refine h.fill halike rfl ⟨hfills.origin, ?_, ?_⟩
  · rw [← halike.openerLength_eq]
    exact Item.abut_concat (hfollows ▸ hfills.abut) rfl
  · intro other hother
    rcases List.mem_append.mp hother with hother | hother
    · exact hfills.laid other hother
    · rw [List.mem_singleton.mp hother]
      exact hitem

/-! ## 4. The layout of a scan

One lemma for each step, for the steps have little in common: a leaf adds an item, growing moves
the end of one, opening pushes a frame, closing turns a frame into an item. -/

/-- The items of a scan are laid out as in the input, if the pending one is taken to end where the
scan is. -/
structure View.Laid (dialect : Dialect) (input : List UInt8) (start : Draft) (view : View) :
    Prop where
  rest : view.rest = input.drop view.position.byte
  within : view.position.byte ≤ input.length
  running : view.halted = false
  stacked : Stacked dialect input view.position.byte view.frame
    ((view.draft start).settle view.position).frame view.outer (view.draft start).outer
  /-- The child read last is the last item. -/
  last : view.frame.pending =
    ((view.draft start).settle view.position).frame.done.getLast?.map (·.label.kind)
  /-- It is pending. -/
  open_ : (view.draft start).pending = none → (view.draft start).frame.done = []

/-- Inside a root, the branch that nothing is around is the root. -/
theorem View.Laid.eq_root (h : view.Laid dialect input start) (houter : view.outer = []) :
    view.frame.branch = .root := by
  have hstacked := h.stacked
  rw [houter] at hstacked
  cases hdrafted : (view.draft start).outer with
  | nil =>
    rw [hdrafted] at hstacked
    exact hstacked.2.1
  | cons surround beyond =>
    rw [hdrafted] at hstacked
    exact hstacked.elim

/-- A step that takes `n` bytes moves as far, or to the end. -/
theorem View.Laid.consumed (h : view.Laid dialect input start) (scope : Scope) (n : Nat) :
    (view.consume scope n).rest = input.drop (view.consume scope n).position.byte ∧
      (view.consume scope n).position.byte = view.position.byte + min n view.rest.length ∧
      (view.consume scope n).position.byte ≤ input.length := by
  have hlength : view.rest.length = input.length - view.position.byte := by
    rw [h.rest, List.length_drop]
  have hwithin := h.within
  have hposition : (view.consume scope n).position.byte =
      view.position.byte + min n view.rest.length := by
    show (view.position.advanceOver _ (view.rest.take n)).byte = _
    rw [Position.byte_advanceOver, List.length_take]
  refine ⟨?_, hposition, by omega⟩
  rw [hposition]
  show view.rest.drop n = _
  rw [h.rest, List.drop_drop, ← h.rest]
  by_cases hn : n ≤ view.rest.length
  · rw [Nat.min_eq_left hn]
  · rw [List.drop_eq_nil_of_le (by omega), List.drop_eq_nil_of_le (by omega)]

/-- A leaf is one more item.  Its text is what is between the two positions, for which it was
flagged. -/
theorem View.Laid.leaf (h : view.Laid dialect input start) {leaf : Leaf} {valid : Bool}
    {branch : Branch} {n : Nat} (ahead : view.rest ≠ []) (positive : 0 < n)
    (alike : view.frame.branch.Alike branch)
    (sound : valid = true ↔ leaf.Sound (view.rest.take n)) :
    ((view.addLeaf leaf valid branch).consume scope n).Laid dialect input start := by
  obtain ⟨hrest, hposition, hwithin⟩ := h.consumed scope n
  have hlength : 0 < view.rest.length := List.length_pos_iff.mpr ahead
  let stop := (view.consume scope n).position
  have hdraft : ((view.addLeaf leaf valid branch).consume scope n).draft start =
      ((view.draft start).settle view.position).addLeaf leaf valid view.position := by
    rw [draft_consume, draft_addLeaf]
    rfl
  have hitem : Item.Laid dialect input (.node ⟨((view.draft start).settle view.position).next,
      .leaf leaf, valid, ⟨view.position, stop⟩⟩ []) := by
    rw [Item.laid_iff]
    refine ⟨.leaf ?_ hwithin ?_, fun child hchild => by cases hchild⟩
    · show view.position.byte < (view.consume scope n).position.byte
      omega
    · have hslice : (input.drop view.position.byte).take (Span.length ⟨view.position, stop⟩) =
          view.rest.take n := by
        have hspan : Span.length ⟨view.position, stop⟩ = min n view.rest.length := by
          show (view.consume scope n).position.byte - view.position.byte = _
          omega
        -- at the end of the input there may be fewer than `n` bytes, and the text ends with them
        rw [← h.rest, hspan, ← List.take_eq_take_min]
      show _ ↔ leaf.Sound ((input.drop view.position.byte).take _)
      rw [hslice]
      exact sound
  refine
    { rest := hrest
      within := hwithin
      running := h.running
      stacked := ?_
      last := ?_
      open_ := ?_ }
  · rw [hdraft]
    show Stacked dialect input _ _ _ view.outer ((view.draft start).settle view.position).outer
    rw [Draft.outer_settle]
    exact h.stacked.concat alike (some (.leaf leaf)) hitem rfl
  · rw [hdraft]
    simp [Draft.settle, Draft.addLeaf, View.addLeaf, View.consume]
  · rw [hdraft]
    intro hnone
    cases hnone

/-- A leaf that grows is the same item, further on. -/
theorem View.Laid.grow (h : view.Laid dialect input start)
    (run : view.frame.pending = some (.leaf .raw) ∨
      view.frame.pending = some (.leaf .unexpected)) :
    (view.consume scope 1).Laid dialect input start := by
  obtain ⟨hrest, hposition, hwithin⟩ := h.consumed scope 1
  have hlast := h.last
  cases hpending : (view.draft start).pending with
  | none =>
    -- nothing pending and something read last cannot both be
    rw [Draft.done_frame_settle, Draft.loose_of_none hpending, h.open_ hpending] at hlast
    rw [hlast] at run
    simp at run
  | some item =>
    obtain ⟨⟨id, kind, valid, span⟩, below⟩ := item
    have hsettle : ∀ stop, (view.draft start).settle stop =
        { view.draft start with
          frame := { (view.draft start).frame with
            done := (view.draft start).frame.done ++
              [.node ⟨id, kind, valid, { span with stop := stop }⟩ below] }
          pending := none } := by
      intro stop
      unfold Draft.settle
      rw [hpending]
      rfl
    have hstacked := h.stacked
    rw [hsettle] at hlast hstacked
    rw [show view.frame.pending = some kind by simpa using hlast] at run
    have hfills := hstacked.fills
    obtain ⟨habut, -⟩ := Item.abut_split hfills.abut
    have hitem := hfills.laid _ (List.mem_append_right _ (List.mem_singleton_self _))
    -- only leaves grow whose flag does not depend on their bytes
    have hgrown : Item.Laid dialect input
        (.node ⟨id, kind, valid, { span with stop := (view.consume scope 1).position }⟩ below) := by
      obtain ⟨leaf, rfl, hfree⟩ : ∃ leaf, kind = .leaf leaf ∧
          ∀ a b, leaf.Sound a ↔ leaf.Sound b := by
        rcases run with hrun | hrun
        · exact ⟨.raw, Option.some.inj hrun, fun _ _ => Iff.rfl⟩
        · exact ⟨.unexpected, Option.some.inj hrun, fun _ _ => Iff.rfl⟩
      rw [Item.laid_iff] at hitem ⊢
      obtain ⟨hsits, hbelow⟩ := hitem
      cases hsits with
      | leaf proper inside sound =>
        refine ⟨.leaf ?_ hwithin (sound.trans (hfree _ _)), hbelow⟩
        exact Nat.lt_of_lt_of_le proper (Nat.le.intro hposition.symm)
    refine
      { rest := hrest
        within := hwithin
        running := h.running
        stacked := ?_
        last := ?_
        open_ := h.open_ }
    · rw [draft_consume, hsettle]
      refine hstacked.fill (.refl _) rfl ⟨hfills.origin, Item.abut_concat habut rfl, ?_⟩
      intro other hother
      rcases List.mem_append.mp hother with hother | hother
      · exact hfills.laid other (List.mem_append_left _ hother)
      · rw [List.mem_singleton.mp hother]
        exact hgrown
    · rw [draft_consume, hsettle]
      show view.frame.pending = _
      simpa using hlast

/-- A branch that opens is filled up to behind its opener. -/
theorem View.Laid.opened (h : view.Laid dialect input start) {branch : Branch}
    (proper : branch ≠ .root) (fits : branch.openerLength ≤ view.rest.length) :
    ((view.openBranch branch).consume scope branch.openerLength).Laid dialect input start := by
  obtain ⟨hrest, hposition, hwithin⟩ := h.consumed scope branch.openerLength
  rw [Nat.min_eq_left fits] at hposition
  have hdraft : ((view.openBranch branch).consume scope branch.openerLength).draft start =
      ((view.draft start).settle view.position).openBranch branch view.position := by
    rw [draft_consume, draft_openBranch]
    rfl
  refine
    { rest := hrest
      within := hwithin
      running := h.running
      stacked := ?_
      last := ?_
      open_ := ?_ }
  · rw [hdraft]
    refine ⟨⟨rfl, hposition.symm, fun item hitem => by cases hitem⟩, proper, ?_⟩
    rw [Draft.outer_settle]
    have hfills := h.stacked.fills
    exact h.stacked.fill (.refl _) rfl ⟨hfills.origin, hfills.abut, hfills.laid⟩
  · rw [hdraft]
    rfl
  · rw [hdraft]
    intro _
    rfl

section Closing

variable {branch : Branch} {valid : Bool} {n : Nat}

/-- A branch that closes has its opener, or is not left empty. -/
theorem View.Laid.start_lt (h : view.Laid dialect input start) (hready : view.Ready)
    (houter : view.outer ≠ []) (hroot : view.frame.branch ≠ .root)
    (alike : view.frame.branch.Alike branch)
    (ends : Ends dialect branch view.frame.pending view.rest valid n)
    (complete : branch.isName = true → ¬ NameAhead view.rest) :
    view.frame.start.byte < view.position.byte := by
  have hfills := h.stacked.fills
  have hlast := h.last
  generalize ((view.draft start).settle view.position).frame = inner at hfills hlast
  have hsits : ∀ item ∈ inner.done, Item.Sits dialect input item := fun item hitem =>
    (Item.laid_iff.mp (hfills.laid item hitem)).1
  -- without an opener the branch is a name or a fragment, and it was not left empty
  by_cases hopener : view.frame.branch.openerLength = 0
  · have hne : inner.done ≠ [] := by
      intro hnil
      have hnone : view.frame.pending = none := by
        rw [hlast, hnil]
        rfl
      rcases Branch.isNarrow_of_openerLength hopener hroot with hname | hfragment
      · exact complete (alike.isName_eq ▸ hname) (hready.text houter hname hnone)
      · obtain ⟨-, -, hgroup⟩ := ends.of_fragment (alike.isFragment_eq ▸ hfragment)
        obtain ⟨bracket, hlastgroup⟩ := hgroup (hready.more houter hfragment hnone)
        rw [hnone] at hlastgroup
        cases hlastgroup
    have hlt := hfills.abut.lt hsits hne
    omega
  · have hle := hfills.abut.le hsits
    omega

/-- A branch that closes is laid out, with what is in it. -/
theorem View.Laid.closing (h : view.Laid dialect input start) (hready : view.Ready)
    (houter : view.outer ≠ []) (hroot : view.frame.branch ≠ .root)
    (alike : view.frame.branch.Alike branch)
    (ends : Ends dialect branch view.frame.pending view.rest valid n)
    (complete : branch.isName = true → ¬ NameAhead view.rest) (scope : Scope) :
    Item.Laid dialect input
      (Item.endAt (view.consume scope n).position
        (Draft.closing branch valid ((view.draft start).settle view.position).frame)) := by
  have hfilled := h.start_lt hready houter hroot alike ends complete
  obtain ⟨-, hposition, hwithin⟩ := h.consumed scope n
  rw [Nat.min_eq_left ends.le] at hposition
  have hfills := h.stacked.fills
  have hlast := h.last
  generalize ((view.draft start).settle view.position).frame = inner at hfills hlast ⊢
  have hclosing : Item.endAt (view.consume scope n).position (Draft.closing branch valid inner) =
      .node ⟨inner.id, .branch branch, valid,
        ⟨view.frame.start, (view.consume scope n).position⟩⟩ inner.done := by
    rw [Draft.closing, hfills.origin]
    rfl
  rw [hclosing, Item.laid_iff]
  refine ⟨.branch ?_ hwithin (fun heq => hroot (alike.eq_root_iff.mpr heq))
    (alike.openerLength_eq ▸ hfills.abut) ?_ ?_, hfills.laid⟩
  · show view.frame.start.byte < (view.consume scope n).position.byte
    omega
  · show view.position.byte ≤ (view.consume scope n).position.byte
    omega
  · have hlength : (view.consume scope n).position.byte - view.position.byte = n := by
      omega
    rw [← hlast, ← h.rest]
    show Ends dialect branch view.frame.pending view.rest valid
      ((view.consume scope n).position.byte - view.position.byte)
    rw [hlength]
    exact ends

/-- A branch that closes is one more item of the branch around it, which was filled up to its
beginning. -/
theorem View.Laid.closed (h : view.Laid dialect input start) (hready : view.Ready)
    {around : Frame} {further : List Frame}
    (outer : view.outer = around :: further) (alike : view.frame.branch.Alike branch)
    (ends : Ends dialect branch view.frame.pending view.rest valid n)
    (complete : branch.isName = true → ¬ NameAhead view.rest) :
    ((view.closeBranch branch valid around further).consume scope n).Laid dialect input
      start := by
  obtain ⟨hrest, -, hwithin⟩ := h.consumed scope n
  have hstacked := h.stacked
  rw [outer] at hstacked
  cases hbeyond : (view.draft start).outer with
  | nil =>
    rw [hbeyond] at hstacked
    exact hstacked.elim
  | cons surround beyond =>
    rw [hbeyond] at hstacked
    obtain ⟨hfills, hroot, haround⟩ := hstacked
    have houter : view.outer ≠ [] := by
      rw [outer]
      exact List.cons_ne_nil _ _
    have hitem := h.closing hready houter hroot alike ends complete scope
    have hdraft := draft_closed hbeyond branch valid around further scope n
    refine
      { rest := hrest
        within := hwithin
        running := h.running
        stacked := ?_
        last := ?_
        open_ := ?_ }
    · rw [hdraft]
      refine haround.concat (.refl _) (some (.branch branch)) hitem ?_
      exact congrArg (·.start.byte) hfills.origin
    · rw [hdraft]
      simp [Draft.settle, Draft.closing, View.closeBranch, View.consume]
    · rw [hdraft]
      intro hnone
      cases hnone

end Closing

/-- **Every step keeps the items laid out.** -/
theorem View.Laid.step (h : view.Laid scope.dialect input start) (hready : view.Ready)
    (hstep : Step scope view after) : after.Laid scope.dialect input start := by
  cases hstep with
  | leaf ahead positive alike sound => exact h.leaf ahead positive alike sound
  | grow _ run => exact h.grow run
  | opened _ proper fits _ _ => exact h.opened proper fits
  | closed outer alike ends complete => exact h.closed hready outer alike ends complete
  | halted name outer =>
    have hstacked := h.stacked
    rw [outer] at hstacked
    cases houter : (view.draft start).outer with
    | nil =>
      rw [houter] at hstacked
      obtain ⟨-, hroot, -⟩ := hstacked
      rw [hroot] at name
      cases name
    | cons surround beyond =>
      rw [houter] at hstacked
      exact hstacked.elim

end Scan

/-! ## 5. Whole scans

A scan that begins at the root of a source has its items from the first byte of the source to the
last: it cannot halt, since only a name halts, and the root is none. -/

namespace Lexer

open Scan

/-- A scan over a source begins laid out. -/
theorem initial_laid (dialect : Dialect) (source : Source)
    (hfirst : source.start = Position.origin) (start : Draft) (houter : start.outer = [])
    (hpending : start.pending = none) (hdone : start.frame.done = [])
    (horigin : start.frame.origin.span = Span.point Position.origin) :
    (initial .root source).view.Laid dialect source.range start := by
  have hsettle : start.settle source.start = start := by
    unfold Draft.settle
    rw [hpending]
  refine
    { rest := by
        show source.range = source.range.drop source.start.byte
        rw [hfirst]
        rfl
      within := by
        show source.start.byte ≤ source.range.length
        rw [hfirst]
        exact Nat.zero_le _
      running := rfl
      stacked := ?_
      last := ?_
      open_ := fun _ => hdone }
  · show Stacked _ _ _ _ (start.settle source.start).frame [] start.outer
    rw [hsettle, houter]
    refine ⟨⟨?_, ?_, ?_⟩, rfl, hfirst⟩
    · rw [horigin, ← hfirst]
      rfl
    · rw [hdone]
      rfl
    · rw [hdone]
      intro item hitem
      cases hitem
  · show none = ((start.settle source.start).frame.done.getLast?.map (·.label.kind))
    rw [hsettle, hdone]
    rfl

/-- **The items of a source stand side by side**, from its first byte to its last. -/
theorem scan_laid (lexer : Lexer) (source : Source) (hfirst : source.start = Position.origin)
    (start : Draft) (houter : start.outer = []) (hpending : start.pending = none)
    (hdone : start.frame.done = [])
    (horigin : start.frame.origin.span = Span.point Position.origin) :
    (lexer.scan .root source).frame.branch = .root ∧
      (lexer.scan .root source).position.byte = source.range.length ∧
      Item.Abut 0 (lexer.draft start .root source).frame.done source.range.length ∧
      ∀ item ∈ (lexer.draft start .root source).frame.done,
        Item.Laid lexer.dialect source.range item := by
  have hstart := initial_laid lexer.dialect source hfirst start houter hpending hdone horigin
  have hsteps : ∀ before after : View, before.Ready → before.halted = false ∨ before.rest = [] →
      Step (lexer.scope source) before after → before.Laid lexer.dialect source.range start →
      after.Laid lexer.dialect source.range start := by
    intro before after hready _ hstep h
    exact h.step hready hstep
  obtain ⟨hdone, hlaid, hend⟩ := run_induction (initial_fresh .root source) hstart hsteps
  rw [← scan_eq lexer] at hdone hlaid hend
  have hrest : (lexer.scan .root source).view.rest = [] := by
    rcases hend with hrest | hhalted
    · exact hrest
    · have hrunning := hlaid.running
      rw [show (lexer.scan .root source).view.halted = true from hhalted] at hrunning
      cases hrunning
  -- nothing is left, so the scan is at the end of the source
  have hposition : (lexer.scan .root source).position.byte = source.range.length := by
    have hdrop := hlaid.rest
    rw [hrest] at hdrop
    exact Nat.le_antisymm hlaid.within (List.drop_eq_nil_iff.mp hdrop.symm)
  have hstacked := hlaid.stacked
  rw [show (lexer.scan .root source).view.outer = [] from hdone] at hstacked
  cases hbeyond : ((lexer.scan .root source).view.draft start).outer with
  | cons surround beyond =>
    rw [hbeyond] at hstacked
    exact hstacked.elim
  | nil =>
    rw [hbeyond] at hstacked
    obtain ⟨hfills, hroot, hbegan⟩ := hstacked
    have habut := hfills.abut
    rw [hroot, hbegan] at habut
    refine ⟨hroot, hposition, ?_, hfills.laid⟩
    rw [← hposition]
    exact habut

end Lexer
end StyleLex
