/-
# Warnings

A call warns of every malformed node that it adds, and of nothing else.  What it should warn of can
be read off a node (`Node.warnings`): a malformed node has one warning, which begins where the node
does, and a run of unexpected bytes has one for its first byte and one for every closer behind it.

The scan notes a recovery when it begins, lets grow or completes a node, so its recoveries are the
warnings of its nodes in the order in which they are completed (`Told.step`).  That is the order of
the thread, and each recovery is one event of the log (`session_diagnosed`).

There are two orders to reconcile.  The scan notes a recovery at the moment when it sees what is
wrong, and for an unexpected run and an escape that is when the leaf begins; for a branch it is when
the branch closes.  The thread lists nodes by their completion, and a leaf is complete when its
branch goes on.  Between the beginning of a leaf and its completion no other node is completed, so
the orders agree.  `View.labels` makes this precise: it lists the nodes of a view as if its pending
leaf were complete already, with the span that it has so far.

A run of unexpected bytes is the one node with several warnings, and the one whose warnings grow
with it.  For this reason the invariant has to know where such a run began and what it has read
since (`Growing`).
-/
import StyleLex.Lexer.Trace
import StyleLex.Log.Service
import StyleLex.Proofs.Scan.Noting
import StyleLex.Proofs.Scan.Reading
import StyleLex.Proofs.Session

namespace StyleLex

open Rose

/-! ## 1. The warnings of a node

Warnings are read off a finished node and its source.  Nothing of how the scan came to them is used,
so what is proved below can be checked on a tree by somebody who has not seen the scan.  A warning
is its code and where it begins. -/

/-- The position behind some bytes of a source. -/
def Position.along (bytes : Array UInt8) : Position → List UInt8 → Position
  | position, [] => position
  | position, b :: rest =>
    along bytes (position.advance b bytes[position.byte + 1]?) rest

/-- One warning for every closer among some bytes. -/
def closerWarnings (bytes : Array UInt8) : Position → List UInt8 → List (Code × Position)
  | _, [] => []
  | position, b :: rest =>
    (if Byte.isCloser b then [(.danglingCloser, position)] else []) ++
      closerWarnings bytes (position.advance b bytes[position.byte + 1]?) rest

/-- One warning for the first of some unexpected bytes, and one for every closer behind it. -/
def unexpectedWarnings (bytes : Array UInt8) (position : Position) :
    List UInt8 → List (Code × Position)
  | [] => []
  | b :: rest =>
    (Byte.unexpectedCode b, position) ::
      closerWarnings bytes (position.advance b bytes[position.byte + 1]?) rest

/-- What to warn of in a node, and where each warning begins. -/
def warningsOf (bytes : Array UInt8) (valid : Bool) (span : Span) : Kind → List (Code × Position)
  | .leaf .unexpected => unexpectedWarnings bytes span.start (span.slice bytes)
  | .leaf (.escape _) => if valid then [] else [(.escapeOpen, span.start)]
  | .leaf _ => []
  | .branch branch =>
    if valid then [] else branch.malformedCode?.toList.map fun code => (code, span.start)

/-- The warnings of a node. -/
def Node.warnings (bytes : Array UInt8) (node : Node) : List (Code × Position) :=
  warningsOf bytes node.valid node.span node.kind

/-- The warnings of the node with an id; there are none if it is not there. -/
def Tree.warnings (tree : Tree) (bytes : Array UInt8) (id : NodeId) : List (Code × Position) :=
  ((tree.node? id).map (Node.warnings bytes)).getD []

/-- The warnings of an item, by its label. -/
def Label.warnings (bytes : Array UInt8) (label : Label) : List (Code × Position) :=
  warningsOf bytes label.valid label.span label.kind

variable {bytes : Array UInt8}

/-- A byte more brings a warning if it is a closer. -/
theorem closerWarnings_concat (b : UInt8) : ∀ (word : List UInt8) (position : Position),
    closerWarnings bytes position (word ++ [b]) = closerWarnings bytes position word ++
      if Byte.isCloser b then [(.danglingCloser, position.along bytes word)] else []
  | [], position => by simp [closerWarnings, Position.along]
  | c :: rest, position => by
    rw [List.cons_append, closerWarnings, closerWarnings, closerWarnings_concat b rest,
      List.append_assoc, Position.along]

/-- A byte more brings a warning if it is a closer. -/
theorem unexpectedWarnings_concat (b : UInt8) {word : List UInt8} (hne : word ≠ [])
    (position : Position) :
    unexpectedWarnings bytes position (word ++ [b]) = unexpectedWarnings bytes position word ++
      if Byte.isCloser b then [(.danglingCloser, position.along bytes word)] else [] := by
  obtain ⟨c, rest, rfl⟩ := List.exists_cons_of_ne_nil hne
  rw [List.cons_append, unexpectedWarnings, unexpectedWarnings, closerWarnings_concat,
    List.cons_append, Position.along]

/-- A slice that is one byte longer. -/
theorem Span.slice_concat {first stop stop' : Position} {b : UInt8}
    (hle : first.byte ≤ stop.byte) (hbyte : bytes[stop.byte]? = some b)
    (hstop : stop'.byte = stop.byte + 1) :
    Span.slice ⟨first, stop'⟩ bytes = Span.slice ⟨first, stop⟩ bytes ++ [b] := by
  have hlast : (bytes.toList.drop first.byte)[stop.byte - first.byte]? = some b := by
    rw [List.getElem?_drop, Nat.add_sub_cancel' hle, Array.getElem?_toList, hbyte]
  have hcount : stop.byte + 1 - first.byte = stop.byte - first.byte + 1 := by omega
  simp only [Span.slice, Array.toList_extract, List.extract_eq_take_drop]
  rw [hstop, hcount, List.take_add_one, hlast]
  rfl

/-- The position behind one byte more. -/
theorem Position.along_concat (b : UInt8) : ∀ (word : List UInt8) (position : Position),
    position.along bytes (word ++ [b]) =
      (position.along bytes word).advance b bytes[(position.along bytes word).byte + 1]?
  | [], _ => rfl
  | c :: rest, position => by
    rw [List.cons_append, along, along_concat b rest, along]

/-! ## 2. Labels in the order of completion

One equation for each thing that a mark does to a draft: a leaf or a branch that is closed adds its
label at the end, and a branch that opens adds none. -/

namespace Draft

/-- The labels of complete nodes, in the order in which they were completed. -/
def frameLabels : List Frame → List Label
  | [] => []
  | frame :: outer => frameLabels outer ++ postorderAll frame.done

/-- The labels of the complete nodes of a draft. -/
def labels (draft : Draft) : List Label := frameLabels draft.frames

/-- What is pending is complete once it is settled. -/
theorem labels_settle (stop : Position) (draft : Draft) :
    (draft.settle stop).labels =
      draft.labels ++ postorderAll (draft.loose.map (Item.endAt stop)) := by
  rw [labels, frames, outer_settle, frameLabels, done_frame_settle, postorderAll_append,
    ← List.append_assoc]
  rfl

/-- A branch that opens completes nothing. -/
theorem labels_openBranch (branch : Branch) (start stop : Position) (draft : Draft) :
    ((draft.openBranch branch start).settle stop).labels = draft.labels := by
  show frameLabels (draft.frame :: draft.outer) ++ postorderAll [] = _
  rw [postorderAll_nil, List.append_nil]
  rfl

/-- A leaf is complete where it ends. -/
theorem labels_addLeaf (leaf : Leaf) (valid : Bool) (start stop : Position) (draft : Draft) :
    ((draft.addLeaf leaf valid start).settle stop).labels =
      draft.labels ++ [⟨draft.next, .leaf leaf, valid, ⟨start, stop⟩⟩] := by
  rw [labels_settle]
  show draft.labels ++ postorderAll [Item.endAt stop (.node _ [])] = _
  simp [Span.point]

/-- A branch is complete where it ends, after everything in it. -/
theorem labels_closeBranch {draft : Draft} {around : Frame} {further : List Frame}
    (houter : draft.outer = around :: further) (branch : Branch) (valid : Bool) (stop : Position) :
    ((draft.closeBranch branch valid).settle stop).labels = draft.labels ++
      [⟨draft.frame.id, .branch branch, valid, { draft.frame.origin.span with stop := stop }⟩] := by
  rw [labels_settle, closeBranch, houter]
  show frameLabels (around :: further) ++
    postorderAll [Item.endAt stop (closing branch valid draft.frame)] =
      frameLabels (draft.frame :: draft.outer) ++ _
  rw [houter, closing, Item.endAt_node]
  simp [frameLabels]

end Draft

namespace Scan

variable {scope : Scope} {view after : View} {start : Draft} {limit : Nat}

/-- The labels of what a scan has read, if the pending node is taken to end where the scan is. -/
def View.labels (start : Draft) (view : View) : List Label :=
  ((view.draft start).settle view.position).labels

/-- A leaf that is added is the last node that is complete. -/
theorem labels_leaf (leaf : Leaf) (valid : Bool) (branch : Branch) (n : Nat) :
    ((view.addLeaf leaf valid branch).consume scope n).labels start = view.labels start ++
      [⟨((view.draft start).settle view.position).next, .leaf leaf, valid,
        ⟨view.position, (view.consume scope n).position⟩⟩] := by
  rw [View.labels, draft_consume, draft_addLeaf]
  exact Draft.labels_addLeaf leaf valid view.position (view.consume scope n).position _

/-- A branch that is opened is not complete. -/
theorem labels_opened (branch : Branch) (n : Nat) :
    ((view.openBranch branch).consume scope n).labels start = view.labels start := by
  rw [View.labels, draft_consume, draft_openBranch]
  exact Draft.labels_openBranch branch view.position _ _

/-- A branch that is closed is the last node that is complete. -/
theorem labels_closed {surround : Draft.Frame} {beyond : List Draft.Frame}
    (houter : (view.draft start).outer = surround :: beyond) (branch : Branch) (valid : Bool)
    (around : Frame) (further : List Frame) (n : Nat) :
    ((view.closeBranch branch valid around further).consume scope n).labels start =
      view.labels start ++ [⟨(view.draft start).frame.id, .branch branch, valid,
        { (view.draft start).frame.origin.span with stop := (view.consume scope n).position }⟩] := by
  rw [View.labels, draft_consume, draft_closeBranch]
  have hclosed := Draft.labels_closeBranch
    ((Draft.outer_settle view.position (view.draft start)).trans houter) branch valid
    (view.consume scope n).position
  rw [Draft.id_frame_settle, Draft.origin_frame_settle] at hclosed
  exact hclosed

/-- A leaf that grows is the last node that is complete. -/
theorem labels_grown (scope : Scope) {item : Item}
    (hpending : (view.draft start).pending = some item) (n : Nat) :
    ∃ front, view.labels start = front ++
        [{ item.label with span := { item.label.span with stop := view.position } }] ∧
      (view.consume scope n).labels start = front ++
        [{ item.label with
            span := { item.label.span with stop := (view.consume scope n).position } }] := by
  obtain ⟨label, below⟩ := item
  refine ⟨(view.draft start).labels ++ postorderAll below, ?_, ?_⟩
  · rw [View.labels, Draft.labels_settle, Draft.loose_of_some hpending]
    simp
  · rw [View.labels, draft_consume, Draft.labels_settle, Draft.loose_of_some hpending]
    simp

/-! ## 3. What a scan has told

`Reported` relates the two lists, and `Told` is the invariant of the scan around it.  Besides the
lists it keeps what the next step needs: that the open branches of scan and draft begin at the same
places, as a warning of a branch begins where the branch does, and that they have the same leaf
pending. -/

/-- Recoveries tell of nodes, in the order in which these are completed. -/
structure Reported (bytes : Array UInt8) (recoveries : List Recovery) (labels : List Label) :
    Prop where
  told : recoveries.reverse.map Recovery.site = labels.flatMap (Label.warnings bytes)
  flagged : ∀ label ∈ labels, label.valid = true ↔ label.warnings bytes = []

/-- A step that notes nothing has no warning. -/
theorem noted_eq_none {noted : Option Recovery} :
    noted.toList.map Recovery.site = [] ↔ noted = none := by
  cases noted <;> simp

/-- What is noted last is told last. -/
theorem reverse_noted (noted : Option Recovery) (recoveries : List Recovery) :
    (noted.toList ++ recoveries).reverse.map Recovery.site =
      recoveries.reverse.map Recovery.site ++ noted.toList.map Recovery.site := by
  cases noted <;> simp

/-- One more node is complete, and is told of. -/
theorem Reported.concat {recoveries : List Recovery} {labels : List Label} {label : Label}
    {noted : Option Recovery} (h : Reported bytes recoveries labels)
    (hsites : label.warnings bytes = noted.toList.map Recovery.site)
    (hflag : label.valid = true ↔ noted = none) :
    Reported bytes (noted.toList ++ recoveries) (labels ++ [label]) := by
  refine ⟨?_, ?_⟩
  · rw [reverse_noted, List.flatMap_append, ← h.told, List.flatMap_singleton, hsites]
  · intro other hother
    rcases List.mem_append.mp hother with hother | hother
    · exact h.flagged other hother
    · rw [List.mem_singleton.mp hother, hsites, hflag, noted_eq_none]

/-- The last node goes on, and what it goes on with is told of. -/
theorem Reported.grow {recoveries : List Recovery} {front : List Label} {label label' : Label}
    {noted : Option Recovery} (h : Reported bytes recoveries (front ++ [label]))
    (hvalid : label'.valid = label.valid)
    (hsites : label'.warnings bytes = label.warnings bytes ++ noted.toList.map Recovery.site)
    (hquiet : label.warnings bytes = [] → noted = none) :
    Reported bytes (noted.toList ++ recoveries) (front ++ [label']) := by
  refine ⟨?_, ?_⟩
  · rw [reverse_noted, h.told, List.flatMap_append, List.flatMap_append, List.flatMap_singleton,
      List.flatMap_singleton, hsites, List.append_assoc]
  · intro other hother
    rcases List.mem_append.mp hother with hother | hother
    · exact h.flagged other (List.mem_append_left _ hother)
    · rw [List.mem_singleton.mp hother, hvalid, hsites, List.append_eq_nil_iff, noted_eq_none,
        h.flagged label (List.mem_append_right _ (List.mem_singleton_self label))]
      exact ⟨fun hnil => ⟨hnil, hquiet hnil⟩, And.left⟩

/-- Open branches, from the inside out, begin where their nodes do; the last one is the
caller's. -/
def Matched (frame : Frame) (drafted : Draft.Frame) : List Frame → List Draft.Frame → Prop
  | [], [] => True
  | around :: further, surround :: beyond =>
    drafted.origin.span.start = frame.start ∧ Matched around surround further beyond
  | _, _ => False

/-- Only the beginnings of branches matter. -/
theorem Matched.congr {frame frame' : Frame} {drafted drafted' : Draft.Frame}
    {outer : List Frame} {beyond : List Draft.Frame} (h : Matched frame drafted outer beyond)
    (hframe : frame'.start = frame.start) (hdrafted : drafted'.origin = drafted.origin) :
    Matched frame' drafted' outer beyond := by
  cases outer <;> cases beyond
  · trivial
  · exact h.elim
  · exact h.elim
  · exact ⟨by rw [hdrafted, hframe]; exact h.1, h.2⟩

/-- A branch that opens in both begins at the same place in both. -/
theorem Matched.cons {frame inner : Frame} {drafted within : Draft.Frame} {outer : List Frame}
    {beyond : List Draft.Frame} (h : Matched frame drafted outer beyond)
    (hinner : within.origin.span.start = inner.start) :
    Matched inner within (frame :: outer) (drafted :: beyond) := ⟨hinner, h⟩

/-- An unexpected run that begins with a label and goes on up to a position. -/
structure Growing (bytes : Array UInt8) (position : Position) (label : Label) : Prop where
  malformed : label.valid = false
  begun : Span.slice ⟨label.span.start, position⟩ bytes ≠ []
  reached : position = label.span.start.along bytes (Span.slice ⟨label.span.start, position⟩ bytes)
  inside : label.span.start.byte ≤ position.byte

/-- What a scan has told of what it has read. -/
structure Told (bytes : Array UInt8) (limit : Nat) (start : Draft) (view : View)
    (recoveries : List Recovery) : Prop where
  ahead : view.Ahead bytes limit
  matched : Matched view.frame (view.draft start).frame view.outer (view.draft start).outer
  pending : view.frame.pending = (view.draft start).pending.map (·.label.kind)
  growing : ∀ item, (view.draft start).pending = some item →
    item.label.kind = .leaf .unexpected → Growing bytes view.position item.label
  reported : Reported bytes recoveries (view.labels start)

namespace Told

variable {recoveries : List Recovery} {noted : Option Recovery}

/-- A leaf is told of when it begins. -/
theorem leaf (h : Told bytes limit start view recoveries) {leaf : Leaf} {valid : Bool}
    {branch : Branch} {n : Nat}
    (hsites : warningsOf bytes valid ⟨view.position, (view.consume scope n).position⟩
      (.leaf leaf) = noted.toList.map Recovery.site)
    (hflag : valid = true ↔ noted = none)
    (hgrowing : leaf = .unexpected → valid = false ∧
      Span.slice ⟨view.position, (view.consume scope n).position⟩ bytes ≠ [] ∧
      (view.consume scope n).position = view.position.along bytes
        (Span.slice ⟨view.position, (view.consume scope n).position⟩ bytes)) :
    Told bytes limit start ((view.addLeaf leaf valid branch).consume scope n)
      (noted.toList ++ recoveries) := by
  have hdraft : ((view.addLeaf leaf valid branch).consume scope n).draft start =
      ((view.draft start).settle view.position).addLeaf leaf valid view.position := by
    rw [draft_consume, draft_addLeaf]
    rfl
  have hahead : (view.addLeaf leaf valid branch).Ahead bytes limit := h.ahead
  refine ⟨hahead.consume n, ?_, ?_, ?_, ?_⟩
  · rw [hdraft]
    show Matched _ ((view.draft start).settle view.position).frame view.outer
      ((view.draft start).settle view.position).outer
    rw [Draft.outer_settle]
    exact h.matched.congr rfl (Draft.origin_frame_settle _ _)
  · rw [hdraft]
    rfl
  · rw [hdraft]
    intro item hitem hkind
    obtain rfl : _ = item := Option.some.inj hitem
    obtain ⟨hmalformed, hbegun, hreached⟩ := hgrowing (Kind.leaf.inj hkind)
    refine ⟨hmalformed, hbegun, hreached, ?_⟩
    show view.position.byte ≤ (view.consume scope n).position.byte
    rw [View.byte_consume]
    exact Nat.le_add_right _ _
  · rw [labels_leaf]
    exact h.reported.concat hsites hflag

/-- A leaf that goes on is told of as far as it does. -/
theorem grow (h : Told bytes limit start view recoveries) {item : Item} {n : Nat}
    (hpending : (view.draft start).pending = some item)
    (hsites : warningsOf bytes item.label.valid
        { item.label.span with stop := (view.consume scope n).position } item.label.kind =
      warningsOf bytes item.label.valid { item.label.span with stop := view.position }
        item.label.kind ++ noted.toList.map Recovery.site)
    (hquiet : warningsOf bytes item.label.valid { item.label.span with stop := view.position }
      item.label.kind = [] → noted = none)
    (hgrowing : item.label.kind = .leaf .unexpected →
      Growing bytes (view.consume scope n).position item.label) :
    Told bytes limit start (view.consume scope n) (noted.toList ++ recoveries) := by
  obtain ⟨front, hlabels, hgrown⟩ := labels_grown scope hpending n
  have hreported := h.reported
  rw [hlabels] at hreported
  refine ⟨h.ahead.consume n, h.matched, h.pending, ?_, ?_⟩
  · intro other hother hkind
    rw [draft_consume, hpending, Option.some.injEq] at hother
    subst hother
    exact hgrowing hkind
  · rw [hgrown]
    exact hreported.grow rfl hsites hquiet

/-- A byte that is taken alone, and the position behind it. -/
theorem taken_byte (h : view.Ahead bytes limit) (hlimit : limit ≤ bytes.size)
    (hbeyond : scope.beyond = bytes[limit]?) {b : UInt8} {tail : List UInt8}
    (hrest : view.rest = b :: tail) :
    bytes[view.position.byte]? = some b ∧
      (view.consume scope 1).position = view.position.advance b bytes[view.position.byte + 1]? := by
  refine ⟨?_, ?_⟩
  · have hbyte := h.getElem? (i := 0) (by rw [hrest]; exact Nat.zero_lt_succ _)
    rw [hrest] at hbyte
    exact hbyte.symm
  · have htaken : view.rest.take 1 = [b] := by rw [hrest]; rfl
    have hnext := h.next hlimit hbeyond (n := 1) (by rw [htaken]; exact List.cons_ne_nil _ _)
    rw [htaken] at hnext
    show view.position.advanceOver _ (view.rest.take 1) = _
    rw [htaken, hnext]
    rfl

/-- The first byte of an unexpected run. -/
theorem unexpected (h : Told bytes limit start view recoveries) (hlimit : limit ≤ bytes.size)
    (hbeyond : scope.beyond = bytes[limit]?) {b : UInt8} {tail : List UInt8} {branch : Branch}
    {recovery : Recovery} (hrest : view.rest = b :: tail)
    (hsite : recovery.site = (Byte.unexpectedCode b, view.position)) :
    Told bytes limit start ((view.addLeaf .unexpected false branch).consume scope 1)
      ((some recovery).toList ++ recoveries) := by
  have hslice : Span.slice ⟨view.position, (view.consume scope 1).position⟩ bytes = [b] := by
    rw [h.ahead.slice, hrest]
    rfl
  obtain ⟨-, hmoved⟩ := taken_byte h.ahead hlimit hbeyond hrest
  refine h.leaf ?_ ?_ fun _ => ⟨rfl, ?_, ?_⟩
  · show unexpectedWarnings bytes view.position (Span.slice _ bytes) = [recovery.site]
    rw [hslice, hsite]
    rfl
  · exact iff_of_false Bool.false_ne_true (Option.some_ne_none recovery)
  · rw [hslice]
    exact List.cons_ne_nil _ _
  · rw [hslice, hmoved]
    rfl

/-- A byte more of an unexpected run. -/
theorem further (h : Told bytes limit start view recoveries) (hlimit : limit ≤ bytes.size)
    (hbeyond : scope.beyond = bytes[limit]?) {b : UInt8} {tail : List UInt8}
    (hrest : view.rest = b :: tail) (hrun : view.frame.pending = some (.leaf .unexpected))
    (hsites : noted.toList.map Recovery.site =
      if Byte.isCloser b then [(.danglingCloser, view.position)] else []) :
    Told bytes limit start (view.consume scope 1) (noted.toList ++ recoveries) := by
  have hkind := h.pending
  rw [hrun] at hkind
  obtain ⟨item, hpending, hunexpected⟩ := Option.map_eq_some_iff.mp hkind.symm
  obtain ⟨hmalformed, hbegun, hreached, hinside⟩ := h.growing item hpending hunexpected
  obtain ⟨hbyte, hmoved⟩ := taken_byte h.ahead hlimit hbeyond hrest
  have hstop : (view.consume scope 1).position.byte = view.position.byte + 1 := by
    rw [hmoved, Position.byte_advance]
  have hslice := Span.slice_concat hinside hbyte hstop
  have hwarnings : ∀ stop, warningsOf bytes item.label.valid { item.label.span with stop := stop }
      item.label.kind = unexpectedWarnings bytes item.label.span.start
        (Span.slice ⟨item.label.span.start, stop⟩ bytes) := by
    intro stop
    rw [hunexpected]
    rfl
  refine h.grow hpending ?_ ?_ fun _ => ⟨hmalformed, ?_, ?_, ?_⟩
  · rw [hwarnings, hwarnings, hslice, unexpectedWarnings_concat b hbegun, hsites, ← hreached]
  · intro hnil
    rw [hwarnings] at hnil
    obtain ⟨c, word, hword⟩ := List.exists_cons_of_ne_nil hbegun
    rw [hword] at hnil
    cases hnil
  · rw [hslice]
    exact List.append_ne_nil_of_right_ne_nil _ (List.cons_ne_nil _ _)
  · rw [hslice, Position.along_concat, ← hreached, hmoved]
  · omega

/-- A branch is told of when it closes. -/
theorem closed (h : Told bytes limit start view recoveries) {branch : Branch} {valid : Bool}
    {around : Frame} {further : List Frame} {n : Nat} (houter : view.outer = around :: further)
    (hsites : warningsOf bytes valid ⟨view.frame.start, (view.consume scope n).position⟩
      (.branch branch) = noted.toList.map Recovery.site)
    (hflag : valid = true ↔ noted = none) :
    Told bytes limit start ((view.closeBranch branch valid around further).consume scope n)
      (noted.toList ++ recoveries) := by
  have hmatched := h.matched
  rw [houter] at hmatched
  -- the draft has a branch around this one as well, since the open branches match
  cases hbeyond : (view.draft start).outer with
  | nil =>
    rw [hbeyond] at hmatched
    exact hmatched.elim
  | cons surround beyond =>
    rw [hbeyond] at hmatched
    obtain ⟨hstart, haround⟩ := hmatched
    have hdraft := draft_closed hbeyond branch valid around further scope n
    have hahead : (view.closeBranch branch valid around further).Ahead bytes limit := h.ahead
    refine ⟨hahead.consume n, ?_, ?_, ?_, ?_⟩
    · rw [hdraft]
      exact haround.congr rfl rfl
    · rw [hdraft]
      rfl
    · rw [hdraft]
      intro item hitem hkind
      obtain rfl : _ = item := Option.some.inj hitem
      cases hkind
    · rw [labels_closed hbeyond]
      refine h.reported.concat ?_ hflag
      rw [← hsites, ← hstart]
      rfl

/-- **Every step tells of the nodes that it completes**, and of nothing else. -/
theorem step (h : Told bytes limit start view recoveries) (hlimit : limit ≤ bytes.size)
    (hbeyond : scope.beyond = bytes[limit]?) (hnotes : Notes scope view after noted) :
    Told bytes limit start after (noted.toList ++ recoveries) := by
  have hnever : ∀ {recovery : Recovery}, false = true ↔ some recovery = none :=
    fun {recovery} => iff_of_false Bool.false_ne_true (Option.some_ne_none recovery)
  cases hnotes with
  | @leaf leaf branch n quiet =>
    -- leaves that are well formed, of every sort but unexpected runs
    refine h.leaf ?_ ⟨fun _ => rfl, fun _ => rfl⟩ fun hunexpected => absurd hunexpected quiet
    cases leaf <;> first | rfl | exact absurd rfl quiet
  | @escape escape branch n recovery site =>
    refine h.leaf ?_ hnever fun hunexpected => by cases hunexpected
    show [(Code.escapeOpen, view.position)] = [recovery.site]
    rw [site]
  | unexpected ahead site => exact h.unexpected hlimit hbeyond ahead site
  | raw run =>
    -- raw text that goes on, and has nothing to warn of
    have hkind := h.pending
    rw [run] at hkind
    obtain ⟨item, hpending, hraw⟩ := Option.map_eq_some_iff.mp hkind.symm
    refine h.grow hpending ?_ (fun _ => rfl) fun hunexpected => ?_
    · rw [hraw]
      rfl
    · rw [hraw] at hunexpected
      cases hunexpected
  | further ahead run sites => exact h.further hlimit hbeyond ahead run sites
  | @opened branch n =>
    -- a branch that opens is not complete, so nothing is to be told yet
    have hdraft : ((view.openBranch branch).consume scope n).draft start =
        ((view.draft start).settle view.position).openBranch branch view.position := by
      rw [draft_consume, draft_openBranch]
      rfl
    have hahead : (view.openBranch branch).Ahead bytes limit := h.ahead
    refine ⟨hahead.consume n, ?_, ?_, ?_, ?_⟩
    · rw [hdraft]
      refine Matched.cons ?_ rfl
      rw [Draft.outer_settle]
      exact h.matched.congr rfl (Draft.origin_frame_settle _ _)
    · rw [hdraft]
      rfl
    · rw [hdraft]
      intro item hitem
      cases hitem
    · rw [labels_opened]
      exact h.reported
  | closed outer => exact h.closed outer rfl ⟨fun _ => rfl, fun _ => rfl⟩
  | @broken branch around further n recovery code outer named site =>
    refine h.closed outer ?_ hnever
    show (branch.malformedCode?.toList.map fun code => (code, view.frame.start)) = [recovery.site]
    rw [named, site]
    rfl
  | halted => exact ⟨h.ahead, h.matched, h.pending, h.growing, h.reported⟩

/-- What a reader notes is told. -/
theorem of_noted {state next : State} (h : Told bytes limit start state.view state.recoveries)
    (hlimit : limit ≤ bytes.size) (hbeyond : scope.beyond = bytes[limit]?)
    (hnoted : state.Noted scope next) : Told bytes limit start next.view next.recoveries := by
  obtain ⟨noted, hrecoveries, hnotes⟩ := hnoted
  rw [hrecoveries]
  exact h.step hlimit hbeyond hnotes

/-- So does a whole turn of the scan. -/
theorem turn (scope : Scope) (hlimit : limit ≤ bytes.size) (hbeyond : scope.beyond = bytes[limit]?)
    {state : State} (ahead : state.rest ≠ [])
    (h : Told bytes limit start state.view state.recoveries) :
    Told bytes limit start (readNext scope state).view (readNext scope state).recoveries := by
  rcases readNext_noted scope ahead with hsame | hnoted
  · rw [hsame]
    exact h
  · exact h.of_noted hlimit hbeyond hnoted

end Told
end Scan

/-- **The recoveries of a scan tell of its nodes**, in the order in which these are completed. -/
theorem Lexer.scan_reported (lexer : Lexer) (branch : Branch) (source : Source) (start : Draft)
    (houter : start.outer = []) (hpending : start.pending = none) (hdone : start.frame.done = []) :
    Scan.Reported source.bytes (lexer.scan branch source).recoveries
      (postorderAll (lexer.draft start branch source).frame.done) := by
  have hlimit : source.limit ≤ source.bytes.size := Nat.min_le_right _ _
  have hsettle : start.settle source.start = start := by
    unfold Draft.settle
    rw [hpending]
  have hlabels : (Lexer.initial branch source).view.labels start = [] := by
    show (start.settle source.start).labels = []
    rw [hsettle, Draft.labels, Draft.frames, houter]
    simp [Draft.frameLabels, hdone]
  -- nothing has been read yet, and nothing told
  have hstart : Scan.Told source.bytes source.limit start
      (Lexer.initial branch source).view [] := by
    refine ⟨Lexer.initial_ahead branch source, ?_, ?_, ?_, ?_⟩
    · show Scan.Matched _ start.frame [] start.outer
      rw [houter]
      trivial
    · show none = start.pending.map _
      rw [hpending]
      rfl
    · intro item hitem
      rw [show ((Lexer.initial branch source).view.draft start).pending = start.pending from rfl,
        hpending] at hitem
      cases hitem
    · rw [hlabels]
      exact ⟨rfl, fun label hlabel => by cases hlabel⟩
  obtain ⟨-, htold, -⟩ := Scan.run_states
    (P := fun state => Scan.Told source.bytes source.limit start state.view state.recoveries)
    (Lexer.initial_fresh branch source) hstart
    (fun _ _ ahead _ h => h.turn (lexer.scope source) hlimit rfl ahead)
    fun _ _ _ _ hclosed h =>
      h.of_noted hlimit rfl (Scan.closeAtEnd?_noted (lexer.scope source) hclosed)
  have hreported : Scan.Reported source.bytes (lexer.scan branch source).recoveries
      ((lexer.scan branch source).view.labels start) := htold.reported
  have hend : ((lexer.scan branch source).view.draft start).outer = [] :=
    (lexer.scan_admits branch source houter).2
  -- at the end no branch is open, so the complete nodes are the items
  have hall : (lexer.scan branch source).view.labels start =
      postorderAll (lexer.draft start branch source).frame.done := by
    show (Draft.frameLabels (_ :: (((lexer.scan branch source).view.draft start).settle
      (lexer.scan branch source).position).outer)) = _
    rw [Draft.outer_settle, hend]
    rfl
  rw [← hall]
  exact hreported

/-! ## 4. The nodes of a call

The call adds its nodes to the thread in one piece, which is the postorder of the items.  What was
on the thread before has smaller identifiers, and is filtered out. -/

/-- A name is malformed where it is, whatever its value. -/
theorem Branch.malformedCode?_withValue (value : String) (branch : Branch) :
    (Tree.withValue value branch).malformedCode? = branch.malformedCode? := by
  cases branch <;> rfl

/-- A node has the warnings of the item that it shows. -/
theorem Tree.Shows.warnings_eq {source : Array UInt8} {item : Item} {node : Node}
    (h : Tree.Shows source item node) : node.warnings bytes = item.label.warnings bytes := by
  rw [Node.warnings, h.kind, h.span, h.valid]
  obtain ⟨⟨id, kind, valid, span⟩, below⟩ := item
  cases kind with
  | leaf leaf => rfl
  | branch branch =>
    show (if valid then [] else (Tree.withValue _ branch).malformedCode?.toList.map _) = _
    rw [Branch.malformedCode?_withValue]
    rfl

/-- **The recoveries of a call are the warnings of the nodes that it adds**, in the order of the
thread, and a node without warnings is well formed. -/
theorem Lexer.extend_told (lexer : Lexer) {tree : Tree} {outline : Rose NodeId} {p : NodeId}
    {origin : Node} (h : tree.Ordered outline) (horigin : tree.body? p = some origin)
    (branch : Branch) (source : Source) {outcome : Outcome}
    (hextend : lexer.extend tree p branch source = outcome) :
    outcome.recoveries.map Recovery.site =
        (outcome.tree.production.toList.filter (tree.size ≤ ·)).flatMap
          (outcome.tree.warnings source.bytes) ∧
      ∀ id ≥ tree.size, ∀ node, outcome.tree.node? id = some node →
        (node.valid = true ↔ node.warnings source.bytes = []) := by
  have hordered := lexer.extend_ordered h horigin branch source
  obtain ⟨site, rfl, rfl, ⟨hsound, -, -, hnew, -⟩, hrealizes, houter⟩ :=
    lexer.extend_realizes h horigin branch source
  have hgrown : Grown source.bytes site (lexer.extend site.given site.base branch source).tree
      (lexer.draft (Draft.into site.given site.base origin) branch source).frame.done :=
    hrealizes.finish hsound houter _ _
  have hreported := lexer.scan_reported branch source (Draft.into site.given site.base origin)
    rfl rfl rfl
  have hrecoveries : outcome.recoveries = (lexer.scan branch source).recoveries.reverse := by
    rw [← hextend]
    rfl
  rw [hextend] at hordered hgrown
  generalize (lexer.draft (Draft.into site.given site.base origin) branch source).frame.done =
    items at *
  -- every new node shows an item
  have hshown : ∀ sub ∈ subtreesAll items, ∃ node,
      outcome.tree.node? sub.label.id = some node ∧
        node.warnings source.bytes = sub.label.warnings source.bytes ∧
        node.valid = sub.label.valid := by
    intro sub hsub
    obtain ⟨top, htop, hin⟩ := mem_subtreesAll.mp hsub
    obtain ⟨parent, hholds⟩ := (hgrown.held top htop).of_mem hin
    obtain ⟨node, hnode, hshows⟩ := hholds.shows
    exact ⟨node, hnode, hshows.warnings_eq, hshows.valid⟩
  have hfresh : ∀ id ∈ Item.ids items, site.given.size ≤ id :=
    fun id hid => (hgrown.mem_ids.mp hid).1
  -- the new nodes on the thread are the items in the order of their completion
  have hfilter : outcome.tree.production.toList.filter (site.given.size ≤ ·) =
      (postorderAll items).map Label.id := by
    have hold : ∀ part : List NodeId, (∀ id ∈ part, id ∈ site.before ++ site.after) →
        part.filter (site.given.size ≤ ·) = [] := by
      intro part hpart
      rw [List.filter_eq_nil_iff]
      intro id hid
      have hlt := hsound.old id (hpart id hid)
      simpa using hlt
    rw [hordered.production_eq, hnew, postorderAll_map, List.filter_append, List.filter_append,
      hold _ fun id hid => List.mem_append_left _ hid,
      hold _ fun id hid => List.mem_append_right _ hid, List.nil_append, List.append_nil,
      List.filter_eq_self]
    intro id hid
    exact decide_eq_true (hfresh id ((Item.linked_perm items).mem_iff.mp hid))
  refine ⟨?_, ?_⟩
  · rw [hrecoveries, hreported.told, hfilter, List.flatMap_map]
    refine List.flatMap_congr fun label hlabel => ?_
    obtain ⟨sub, hsub, rfl⟩ := mem_preorderAll.mp ((postorderAll_perm items).mem_iff.mp hlabel)
    obtain ⟨node, hnode, hwarnings, -⟩ := hshown sub hsub
    rw [Tree.warnings, hnode, Option.map_some, Option.getD_some, hwarnings]
  · intro id hid node hnode
    have hin : id ∈ Item.ids items := hgrown.mem_ids.mpr ⟨hid, Tree.lt_size_of_node? hnode⟩
    obtain ⟨sub, hsub, rfl⟩ := Item.mem_ids.mp hin
    obtain ⟨found, hfound, hwarnings, hvalid⟩ := hshown sub hsub
    rw [hnode, Option.some.injEq] at hfound
    subst hfound
    rw [hwarnings, hvalid]
    refine hreported.flagged _ ((postorderAll_perm items).mem_iff.mpr ?_)
    exact mem_preorderAll.mpr ⟨sub, hsub, rfl⟩

/-! ## 5. The root of a call

The first call also makes the root, which is no item. -/

namespace Lexer

/-- A scan that begins in a root ends there. -/
theorem scan_root (lexer : Lexer) (source : Source) :
    (lexer.scan .root source).frame.branch = .root :=
  (lexer.scan_alike .root source).eq_root_iff.mp rfl

/-- The root of a tree is well formed. -/
theorem exists_root_valid (lexer : Lexer) (source : Source) :
    ∃ node, (lexer.tokenize source).tree.node? Tree.root = some node ∧ node.valid = true ∧
      node.warnings source.bytes = [] := by
  obtain ⟨-, -, hself⟩ := lexer.tokenize_grown source
  obtain ⟨node, hnode, hbody⟩ := Tree.exists_of_body? (hself (lexer.scan_root source))
  have hvalid : node.valid = true := congrArg Node.valid hbody
  have hkind : node.kind = .branch .root := congrArg Node.kind hbody
  refine ⟨node, hnode, hvalid, ?_⟩
  rw [Node.warnings, hvalid, hkind]
  rfl

end Lexer

/-! ## 6. The events of a call

The log of a call holds other events too, at other levels; only warnings are compared. -/

/-- The warnings that a service lets through. -/
def Service.warnings (service : Service) (events : List Event) : List Event :=
  (service.filter events).filter fun event => event.level = .warning

/-- What an event tells, and where. -/
def Event.site (event : Event) : Code × Option Position := (event.code, event.span.map (·.start))

namespace Lexer

variable {service : Service}

/-- **Every recovery of a call is one warning**, if recoveries are reported and warnings let
through. -/
theorem warnings_trace (hadmits : service.admits .warning = true) (lexer : Lexer)
    (source : Source) (taken : Duration) (outcome : Outcome) :
    service.warnings (lexer.trace source true taken outcome) =
      outcome.recoveries.map Recovery.event := by
  have hrecoveries : (outcome.recoveries.map Recovery.event).filter
      (fun event => service.admits event.level && decide (event.level = .warning)) =
        outcome.recoveries.map Recovery.event := by
    rw [List.filter_eq_self]
    intro event hevent
    obtain ⟨recovery, -, rfl⟩ := List.mem_map.mp hevent
    have hlevel : recovery.event.level = .warning := rfl
    rw [hlevel, hadmits]
    rfl
  have hstart : (lexer.startEvent source).level ≠ .warning := by
    show Level.debug ≠ .warning
    decide
  have hend : (endEvent source outcome.metrics taken).level ≠ .warning := by
    show Level.info ≠ .warning
    decide
  rw [Service.warnings, Service.filter, List.filter_filter, trace, if_pos rfl]
  simp only [Bool.and_comm (decide _)]
  rw [List.filter_cons_of_neg (by simp [hstart]), List.filter_append, hrecoveries,
    List.filter_cons_of_neg (by simp [hend]), List.filter_nil, List.append_nil]

/-- What comes before the events of a resumed branch is no warning. -/
theorem warnings_resumeEvent (service : Service) (id : NodeId) (branch : Branch)
    (events : List Event) :
    service.warnings (resumeEvent id branch :: events) = service.warnings events := by
  have hlevel : (resumeEvent id branch).level ≠ .warning := by
    show Level.debug ≠ .warning
    decide
  rw [Service.warnings, Service.filter, List.filter_filter,
    List.filter_cons_of_neg (by simp [hlevel]), ← List.filter_filter]
  rfl

end Lexer

/-- The warnings that a service lets through are those of the nodes of a call, one for one, in the
order of the thread; `known` is the number of nodes that were there before the call. -/
structure Diagnosed (service : Service) (events : List Event) (bytes : Array UInt8) (known : Nat)
    (outcome : Outcome) : Prop where
  /-- There are as many as the call counts. -/
  counted : (service.warnings events).length = outcome.metrics.recoveries
  /-- Each one has the code that its node asks for, and begins where it should. -/
  told : (service.warnings events).map Event.site =
    ((outcome.tree.production.toList.filter (known ≤ ·)).flatMap
      (outcome.tree.warnings bytes)).map fun site => (site.1, some site.2)
  /-- A node has no warnings exactly if it is well formed. -/
  flagged : ∀ id ≥ known, ∀ node, outcome.tree.node? id = some node →
    (node.valid = true ↔ node.warnings bytes = [])
  /-- There is nothing to count exactly if all nodes of the call are well formed. -/
  clean : outcome.metrics.recoveries = 0 ↔
    ∀ id ≥ known, ∀ node, outcome.tree.node? id = some node → node.valid = true

/-- What is told of the nodes of a call makes its diagnosis. -/
theorem Diagnosed.of_told {service : Service} {events : List Event} {known : Nat}
    {outcome : Outcome} (hevents : service.warnings events = outcome.recoveries.map Recovery.event)
    (hcount : outcome.metrics.recoveries = outcome.recoveries.length)
    (hproduced : ∀ id < outcome.tree.size, id ∈ outcome.tree.production.toList)
    (htold : outcome.recoveries.map Recovery.site =
      (outcome.tree.production.toList.filter (known ≤ ·)).flatMap (outcome.tree.warnings bytes))
    (hflagged : ∀ id ≥ known, ∀ node, outcome.tree.node? id = some node →
      (node.valid = true ↔ node.warnings bytes = [])) :
    Diagnosed service events bytes known outcome where
  counted := by rw [hevents, List.length_map, hcount]
  told := by
    rw [hevents, ← htold, List.map_map, List.map_map]
    rfl
  flagged := hflagged
  clean := by
    have hnone : outcome.metrics.recoveries = 0 ↔
        ∀ id ∈ outcome.tree.production.toList.filter (known ≤ ·),
          outcome.tree.warnings bytes id = [] := by
      rw [hcount, ← List.flatMap_eq_nil_iff, ← htold, List.map_eq_nil_iff,
        List.length_eq_zero_iff]
    rw [hnone]
    constructor
    · intro h id hid node hnode
      have hin : id ∈ outcome.tree.production.toList.filter (known ≤ ·) :=
        List.mem_filter.mpr ⟨hproduced id (Tree.lt_size_of_node? hnode), decide_eq_true hid⟩
      have hwarnings := h id hin
      rw [Tree.warnings, hnode, Option.map_some, Option.getD_some] at hwarnings
      exact (hflagged id hid node hnode).mpr hwarnings
    · intro h id hid
      have hknown : known ≤ id := of_decide_eq_true (List.mem_filter.mp hid).2
      rw [Tree.warnings]
      cases hnode : outcome.tree.node? id with
      | none => rfl
      | some node =>
        rw [Option.map_some, Option.getD_some]
        exact (hflagged id hknown node hnode).mp (h id hknown node hnode)

/-- The nodes of an ordered tree are on its thread. -/
theorem Tree.Ordered.mem_production {tree : Tree} {outline : Rose NodeId}
    (h : tree.Ordered outline) {id : NodeId} (hid : id < tree.size) :
    id ∈ tree.production.toList := by
  rw [h.production_eq]
  exact h.thread_perm.mem_iff.mpr (h.mem_preorder.mpr hid)

/-- **A call warns of every malformed node that it adds, and of nothing else.**  With recoveries
reported and warnings let through, that is so for the call that makes a tree, and for every later
call that names a branch. -/
theorem session_diagnosed {service : Service} (hadmits : service.admits .warning = true)
    (lexer : Lexer) (source : Source) (taken : Duration) :
    Diagnosed service (lexer.trace source true taken (lexer.tokenize source)) source.bytes 0
        (lexer.tokenize source) ∧
      ∀ (calls : List Call) (call : Call) (branch : Branch) (outcome : Outcome),
        Lexer.branchToResume (session lexer source calls) call.target = .ok branch →
        call.lexer.resume (session lexer source calls) call.target call.source = .ok outcome →
        Diagnosed service
          (Lexer.resumeEvent call.target branch ::
            call.lexer.trace call.source true taken outcome)
          call.source.bytes (session lexer source calls).size outcome := by
  refine ⟨?_, ?_⟩
  · have hnew := Tree.ordered_new source.filename source.start
    have horigin : (Tree.new source.filename source.start).body? Tree.root =
        some (Lexer.rootOf source) := rfl
    have hordered := lexer.extend_ordered hnew horigin .root source
    obtain ⟨htold, hflagged⟩ := lexer.extend_told hnew horigin .root source rfl
    obtain ⟨root, hroot, hvalid, hwarnings⟩ := lexer.exists_root_valid source
    have hone : (Tree.new source.filename source.start).size = 1 := rfl
    rw [hone] at htold hflagged
    refine .of_told (Lexer.warnings_trace hadmits _ _ _ _) (List.length_reverse).symm
      (fun id hid => hordered.mem_production hid) ?_ ?_
    · -- the root is the first node on the thread, and has no warnings
      have hnone : (lexer.tokenize source).tree.warnings source.bytes Tree.root = [] := by
        rw [Tree.warnings, hroot]
        exact hwarnings
      have hnodup := hordered.thread_nodup
      have hproduction := hordered.production_eq
      generalize postorderAll _ = thread at hnodup hproduction
      have hthread : ∀ id ∈ thread, decide (0 ≤ id) = decide (1 ≤ id) := by
        intro id hid
        have hne : id ≠ Tree.root := fun heq => (List.nodup_cons.mp hnodup).1 (heq ▸ hid)
        exact decide_eq_decide.mpr
          (iff_of_true (Nat.zero_le id) (Nat.one_le_iff_ne_zero.mpr hne))
      rw [show (lexer.tokenize source).recoveries.map Recovery.site = _ from htold,
        show (lexer.tokenize source).tree.production.toList = _ from hproduction,
        show (lexer.extend _ _ _ source).tree.production.toList = _ from hproduction,
        List.filter_cons_of_neg (by simp [Tree.root]), List.filter_cons_of_pos (by simp),
        List.flatMap_cons, hnone, List.nil_append, List.filter_congr hthread]
      rfl
    · intro id _ node hnode
      rcases Nat.eq_zero_or_pos id with rfl | hid
      · rw [show Tree.root = 0 from rfl] at hroot
        rw [hroot, Option.some.injEq] at hnode
        subst hnode
        exact iff_of_true hvalid hwarnings
      · exact hflagged id hid node hnode
  · -- a later call adds to a tree that is there, and leaves its root alone
    intro calls call branch outcome hbranch hresume
    obtain ⟨outline, h⟩ := session_ordered lexer source calls
    generalize session lexer source calls = tree at h hbranch hresume ⊢
    rw [Lexer.resume, hbranch] at hresume
    obtain rfl : call.lexer.extend tree call.target branch call.source = outcome :=
      Except.ok.inj hresume
    obtain ⟨origin, horigin⟩ : ∃ origin, tree.body? call.target = some origin := by
      cases hbody : tree.body? call.target with
      | some origin => exact ⟨origin, rfl⟩
      | none =>
        rw [Lexer.branchToResume, Tree.kind?_eq, hbody] at hbranch
        cases hbranch
    obtain ⟨htold, hflagged⟩ := call.lexer.extend_told h horigin branch call.source rfl
    have hordered := call.lexer.extend_ordered h horigin branch call.source
    refine .of_told ?_ (List.length_reverse).symm (fun id hid => hordered.mem_production hid) htold
      hflagged
    rw [Lexer.warnings_resumeEvent]
    exact Lexer.warnings_trace hadmits _ _ _ _

/-- A closer that nothing opened and a parenthesis that nothing closes are warned of; so is another
closer that a second call reads inside the parenthesis. -/
theorem stray_brackets_diagnosed :
    Service.admits ⟨.lines, .warning⟩ .warning = true ∧
      Diagnosed ⟨.lines, .warning⟩
        (Lexer.trace ⟨Dialect.standard, Fragments.empty⟩ { bytes := #[0x5D, 0x28] } true ⟨0⟩
          (Lexer.tokenize ⟨Dialect.standard, Fragments.empty⟩ { bytes := #[0x5D, 0x28] }))
        #[0x5D, 0x28] 0
        (Lexer.tokenize ⟨Dialect.standard, Fragments.empty⟩ { bytes := #[0x5D, 0x28] }) ∧
      (Lexer.tokenize ⟨Dialect.standard, Fragments.empty⟩
          { bytes := #[0x5D, 0x28] }).metrics.recoveries = 2 ∧
      ∃ outcome,
        Lexer.resume ⟨Dialect.standard, Fragments.empty⟩
          (session ⟨Dialect.standard, Fragments.empty⟩ { bytes := #[0x5D, 0x28] } []) 2
          { bytes := #[0x5D, 0x28, 0x7D], start := ⟨⟨2, 2⟩, ⟨2, 2⟩, 0⟩ } = .ok outcome ∧
        Diagnosed ⟨.lines, .warning⟩
          (Lexer.resumeEvent 2 (.group .round) ::
            Lexer.trace ⟨Dialect.standard, Fragments.empty⟩
              { bytes := #[0x5D, 0x28, 0x7D], start := ⟨⟨2, 2⟩, ⟨2, 2⟩, 0⟩ } true ⟨0⟩ outcome)
          #[0x5D, 0x28, 0x7D] 3 outcome ∧
        outcome.metrics.recoveries = 1 := by
  have hadmits : Service.admits ⟨.lines, .warning⟩ .warning = true := by decide
  obtain ⟨hfirst, hlater⟩ := session_diagnosed hadmits ⟨Dialect.standard, Fragments.empty⟩
    { bytes := #[0x5D, 0x28] } ⟨0⟩
  refine ⟨hadmits, hfirst, by decide, _, rfl, ?_, by decide⟩
  exact hlater [] ⟨⟨Dialect.standard, Fragments.empty⟩, 2,
    { bytes := #[0x5D, 0x28, 0x7D], start := ⟨⟨2, 2⟩, ⟨2, 2⟩, 0⟩ }⟩ (.group .round) _ rfl rfl

end StyleLex
