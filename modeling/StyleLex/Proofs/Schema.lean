/-
# What stands in what

Whoever reads a tree matches on the kinds below a branch.  Which ones may stand there, in which
order and how many, depends on the branch alone (`Branch.Shape`): a string holds no comment, a
fragment holds operators and then one group, a name holds some text.  The tree of every source keeps
to it (`Lexer.tokenize_schematic`).

The proof follows the open branches of a scan.  What is complete in each of them is allowed there,
and in a fragment it is operators only (`Stock`), for the group of a fragment is the child read
last in it until the fragment closes.  So a branch that closes has its shape
(`View.Stocked.closing`).

Two parts of the schema are about order and number and not only about kinds.  That a fragment ends
with its group is a fact about the child that was read last, so that child is kept apart from the
others (`View.Stocked.loose`): it may be a group while those before it may not.  That a name is not
empty is a fact about when names are closed, namely not in front of something that would go on in
them.

The value of a name is made when its branch closes, from the texts of its children, and is part of
the kind of its node.  What may stand where does not depend on values; section 2 gets them out of
the way, so that the rest is about the kinds that the scan has seen.
-/
import StyleLex.Proofs.Extension
import StyleLex.Proofs.Scan.Adding
import StyleLex.Proofs.Tiling

namespace StyleLex

/-! ## 1. Shapes

The shape of one branch, then of all branches of a tree; and the same for items, where the induction
is. -/

/-- The kinds right below a branch, in order, are as the schema says.  Comments nest or do not. -/
structure Branch.Shape (nesting : Bool) (branch : Branch) (kinds : List Kind) : Prop where
  held : ∀ kind ∈ kinds, branch.holds nesting kind = true
  /-- In a fragment, operators and then one group. -/
  fragment : branch.isFragment = true → ∃ (operators : List Kind) (bracket : Bracket),
    kinds = operators ++ [.branch (.group bracket)] ∧
      ∀ kind ∈ operators, kind.isOperator = true
  /-- In a name, something. -/
  name : branch.isName = true → kinds ≠ []

/-- Every branch of a tree has its shape, and leaves have no children. -/
structure Tree.Schematic (nesting : Bool) (tree : Tree) : Prop where
  branches : ∀ id node branch, tree.node? id = some node → node.kind = .branch branch →
    ∃ kinds, node.children.toList.map tree.kind? = kinds.map some ∧ branch.Shape nesting kinds
  leaves : ∀ id node leaf, tree.node? id = some node → node.kind = .leaf leaf →
    node.children = #[]

/-- An item has its shape, and so has everything below it. -/
def Item.Schematic (nesting : Bool) (item : Item) : Prop :=
  ∀ sub ∈ item.subtrees,
    match sub.label.kind with
    | .branch branch => branch.Shape nesting (sub.children.map (·.label.kind))
    | .leaf _ => sub.children = []

/-! ## 2. Values

All predicates on branches that the schema uses are asked before and after a value is set. -/

/-- A kind with the text of its children as its value, if it is a name. -/
def Kind.valued (value : String) : Kind → Kind
  | branch found => .branch (Tree.withValue value found)
  | leaf found => .leaf found

section Values

variable {nesting : Bool} {branch : Branch} {kind : Kind} {value : String}

/-- A value changes nothing of what may stand where. -/
theorem Branch.holds_withValue :
    (Tree.withValue value branch).holds nesting kind = branch.holds nesting kind := by
  cases branch <;> rfl

/-- Nor do values change what may stand in a branch. -/
theorem Branch.holds_valued :
    branch.holds nesting (kind.valued value) = branch.holds nesting kind := by
  cases kind with
  | leaf leaf => rfl
  | branch inner =>
    cases inner with
    | identifier found =>
      cases branch with
      | comment form => cases form <;> rfl
      | _ => rfl
    | hash hash => exact (Branch.Alike.hash _ _).held_eq branch
    | _ => rfl

/-- A name is one with any value. -/
theorem Branch.isName_withValue : (Tree.withValue value branch).isName = branch.isName := by
  cases branch <;> rfl

/-- An operator has no value. -/
theorem Kind.isOperator_valued : (kind.valued value).isOperator = kind.isOperator := by
  cases kind <;> rfl

/-- The kind that a node gets is that of its item with a value. -/
theorem Item.kind_eq_valued (source : Array UInt8) (item : Item) :
    item.kind source = item.label.kind.valued (textAll source item.children) := by
  obtain ⟨⟨id, kind, valid, span⟩, below⟩ := item
  cases kind <;> rfl

/-- Hence names with their values have the shape that they had without. -/
theorem Branch.Shape.valued {items : List Item}
    (h : branch.Shape nesting (items.map (·.label.kind))) (source : Array UInt8)
    (value : String) :
    (Tree.withValue value branch).Shape nesting (items.map (Item.kind source)) := by
  refine ⟨?_, ?_, ?_⟩
  · intro kind hkind
    obtain ⟨item, hitem, rfl⟩ := List.mem_map.mp hkind
    rw [holds_withValue, Item.kind_eq_valued, holds_valued]
    exact h.held _ (List.mem_map_of_mem hitem)
  · intro hfragment
    rw [isFragment_withValue] at hfragment
    obtain ⟨operators, bracket, hkinds, hoperators⟩ := h.fragment hfragment
    obtain ⟨front, back, rfl, rfl, hback⟩ := List.map_eq_append_iff.mp hkinds
    obtain ⟨last, rfl, hlast⟩ := List.map_eq_singleton_iff.mp hback
    refine ⟨front.map (Item.kind source), bracket, ?_, ?_⟩
    · rw [List.map_append, List.map_singleton, Item.kind_eq_valued source last, hlast]
      rfl
    · intro kind hkind
      obtain ⟨item, hitem, rfl⟩ := List.mem_map.mp hkind
      rw [Item.kind_eq_valued, Kind.isOperator_valued]
      exact hoperators _ (List.mem_map_of_mem hitem)
  · intro hname hnil
    rw [isName_withValue] at hname
    exact h.name hname (by simpa using hnil)

end Values

/-! ## 3. Open branches

The open branches of a scan and the frames of its draft go together one by one, and the invariant is
about the pairs.  Of the scan it uses the branch, and of the draft what is complete in it. -/

namespace Scan

variable {scope : Scope} {view after : View} {start : Draft} {nesting : Bool}

/-- What is complete in an open branch may stand there; in a fragment that is operators only. -/
structure Stock (nesting : Bool) (branch : Branch) (drafted : Draft.Frame) : Prop where
  held : ∀ item ∈ drafted.done, branch.holds nesting item.label.kind = true
  operators : branch.isFragment = true →
    ∀ item ∈ drafted.done, item.label.kind.isOperator = true
  schematic : ∀ item ∈ drafted.done, item.Schematic nesting

/-- A hash that has been read further has the same stock. -/
theorem Stock.alike {branch other : Branch} {drafted : Draft.Frame}
    (h : Stock nesting branch drafted) (alike : branch.Alike other) :
    Stock nesting other drafted where
  held := fun item hitem => alike.holds_eq ▸ h.held item hitem
  operators := fun hfragment => h.operators (alike.isFragment_eq.trans hfragment)
  schematic := h.schematic

/-- A branch that has just been opened has nothing in it. -/
theorem Stock.empty {branch : Branch} {drafted : Draft.Frame} (h : drafted.done = []) :
    Stock nesting branch drafted where
  held := by rw [h]; nofun
  operators := by rw [h]; nofun
  schematic := by rw [h]; nofun

/-- The open branches, each with its stock, and the child read last. -/
structure View.Stocked (nesting : Bool) (start : Draft) (view : View) : Prop where
  frames : List.Forall₂ (Stock nesting) ((view.frame :: view.outer).map (·.branch))
    (view.draft start).frames
  pending : view.frame.pending = (view.draft start).pending.map (·.label.kind)
  loose : ∀ item ∈ (view.draft start).loose,
    view.frame.branch.holds nesting item.label.kind = true ∧ item.Schematic nesting

/-- Where an item ends is no matter. -/
theorem schematic_endAt {item : Item} (h : item.Schematic nesting) (stop : Position) :
    (Item.endAt stop item).Schematic nesting := by
  obtain ⟨label, below⟩ := item
  exact Rose.forall_mem_subtrees.mpr (Rose.forall_mem_subtrees.mp h)

namespace View.Stocked

/-- The innermost branch with the child read last. -/
theorem frame (h : view.Stocked nesting start) :
    Stock nesting view.frame.branch (view.draft start).frame :=
  (List.forall₂_cons.mp h.frames).1

/-- The branches around the innermost one, with their stocks. -/
theorem outer (h : view.Stocked nesting start) :
    List.Forall₂ (Stock nesting) (view.outer.map (·.branch)) (view.draft start).outer :=
  (List.forall₂_cons.mp h.frames).2

/-- The child read last joins the stock if more follows it. -/
theorem settle (h : view.Stocked nesting start) {branch : Branch}
    (alike : view.frame.branch.Alike branch)
    (hlast : view.frame.branch.isFragment = true →
      ∀ bracket, view.frame.pending ≠ some (.branch (.group bracket))) (stop : Position) :
    Stock nesting branch ((view.draft start).settle stop).frame := by
  have hdone : ∀ item ∈ ((view.draft start).settle stop).frame.done,
      item ∈ (view.draft start).frame.done ∨
        ∃ found ∈ (view.draft start).loose, Item.endAt stop found = item := by
    intro item hitem
    rw [Draft.done_frame_settle, List.mem_append, List.mem_map] at hitem
    exact hitem
  refine Stock.alike ⟨?_, ?_, ?_⟩ alike
  · intro item hitem
    rcases hdone item hitem with hitem | ⟨found, hfound, rfl⟩
    · exact h.frame.held item hitem
    · rw [Item.kind_label_endAt]
      exact (h.loose found hfound).1
  · -- if the child read last were a group, nothing could follow it in a fragment
    intro hfragment item hitem
    rcases hdone item hitem with hitem | ⟨found, hfound, rfl⟩
    · exact h.frame.operators hfragment item hitem
    · have hheld := (h.loose found hfound).1
      rw [Branch.holds_of_isFragment hfragment, Bool.or_eq_true] at hheld
      rw [Item.kind_label_endAt]
      refine hheld.resolve_right fun hgroup => ?_
      obtain ⟨bracket, hbracket⟩ := Kind.exists_of_isGroup hgroup
      refine hlast hfragment bracket ?_
      rw [h.pending, Option.mem_toList.mp hfound, Option.map_some, hbracket]
  · intro item hitem
    rcases hdone item hitem with hitem | ⟨found, hfound, rfl⟩
    · exact h.frame.schematic item hitem
    · exact schematic_endAt (h.loose found hfound).2 stop

/-- **A branch that closes has its shape.** -/
theorem closing (h : view.Stocked nesting start) (horderly : view.Orderly nesting)
    (hready : view.Ready) (houter : view.outer ≠ []) {branch : Branch} {valid : Bool} {n : Nat}
    (alike : view.frame.branch.Alike branch)
    (ends : Ends scope.dialect branch view.frame.pending view.rest valid n)
    (complete : branch.isName = true → ¬ NameAhead view.rest) (stop : Position) :
    (Draft.closing branch valid ((view.draft start).settle stop).frame).Schematic nesting := by
  have hframe := h.frame
  have hdone : ((view.draft start).settle stop).frame.done.map (·.label.kind) =
      (view.draft start).frame.done.map (·.label.kind) ++
        (view.draft start).loose.map (·.label.kind) := by
    rw [Draft.done_frame_settle, List.map_append, List.map_map]
    congr 2
    funext item
    exact Item.kind_label_endAt stop item
  have hloose : (view.draft start).loose.map (·.label.kind) = view.frame.pending.toList := by
    rw [h.pending, Draft.loose, Option.toList_map]
  intro sub hsub
  -- the branch that closes, and then what is below it
  rcases Rose.mem_subtrees.mp hsub with rfl | hin
  · show branch.Shape nesting (((view.draft start).settle stop).frame.done.map (·.label.kind))
    rw [hdone]
    refine ⟨?_, ?_, ?_⟩
    · intro kind hkind
      rw [← alike.holds_eq]
      rcases List.mem_append.mp hkind with hkind | hkind
      · obtain ⟨item, hitem, rfl⟩ := List.mem_map.mp hkind
        exact hframe.held item hitem
      · obtain ⟨item, hitem, rfl⟩ := List.mem_map.mp hkind
        exact (h.loose item hitem).1
    · intro hfragment
      have hinner := alike.isFragment_eq.trans hfragment
      obtain ⟨-, -, hgroup⟩ := ends.of_fragment hfragment
      -- what is left of a pattern is not nothing, so the group was read
      obtain ⟨bracket, hpending⟩ :
          ∃ bracket, view.frame.pending = some (.branch (.group bracket)) := by
        rcases horderly.spelled hinner with hread | hspells
        · exact hread
        · refine hgroup ?_
          rintro hrest
          exact not_spells_nil (hrest ▸ hspells)
      refine ⟨(view.draft start).frame.done.map (·.label.kind), bracket, ?_, ?_⟩
      · rw [hloose, hpending]
        rfl
      · intro kind hkind
        obtain ⟨item, hitem, rfl⟩ := List.mem_map.mp hkind
        exact hframe.operators hinner item hitem
    · -- without a child the name would have to go on
      intro hname hnil
      have hpending : view.frame.pending = none := by
        rw [hloose] at hnil
        simpa using (List.append_eq_nil_iff.mp hnil).2
      exact complete hname (hready.text houter (alike.isName_eq.trans hname) hpending)
  · obtain ⟨child, hchild, hin⟩ := Rose.mem_subtreesAll.mp hin
    change child ∈ ((view.draft start).settle stop).frame.done at hchild
    rw [Draft.done_frame_settle, List.mem_append, List.mem_map] at hchild
    rcases hchild with hchild | ⟨found, hfound, rfl⟩
    · exact hframe.schematic child hchild sub hin
    · exact schematic_endAt (h.loose found hfound).2 stop sub hin

/-- **Every step keeps the stocks.** -/
theorem step (h : view.Stocked nesting start) (horderly : view.Orderly nesting)
    (hready : view.Ready) (hadds : view.Adds (view.Fits nesting) after)
    (hstep : Step scope view after) : after.Stocked nesting start := by
  cases hstep with
  | @leaf leaf valid branch n ahead positive alike sound =>
    -- the leaf before joins the stock, and this one is the child read last
    have hfits := hadds _ _ rfl rfl
    refine ⟨?_, ?_, ?_⟩
    · rw [draft_consume, draft_addLeaf]
      refine .cons (h.settle alike hfits.last _) ?_
      show List.Forall₂ _ _ ((view.draft start).settle view.position).outer
      rw [Draft.outer_settle]
      exact h.outer
    · rw [draft_consume, draft_addLeaf]
      rfl
    · rw [draft_consume, draft_addLeaf]
      intro item hitem
      obtain rfl := List.mem_singleton.mp hitem
      refine ⟨alike.holds_eq ▸ hfits.held, ?_⟩
      exact Rose.forall_mem_subtrees.mpr ⟨rfl, nofun⟩
  | grow => exact ⟨h.frames, h.pending, h.loose⟩
  | @opened branch ahead proper fits inside begins =>
    -- so does the child read last, and the new branch is empty
    have hfits := hadds _ _ rfl rfl
    refine ⟨?_, ?_, ?_⟩
    · rw [draft_consume, draft_openBranch]
      refine .cons (.empty rfl) (.cons (h.settle (.refl _) hfits.last _) ?_)
      show List.Forall₂ _ _ ((view.draft start).settle view.position).outer
      rw [Draft.outer_settle]
      exact h.outer
    · rw [draft_consume, draft_openBranch]
      rfl
    · rw [draft_consume, draft_openBranch]
      nofun
  | @closed branch valid n around further outer alike ends complete =>
    have houter := h.outer
    rw [outer] at houter
    cases hdrafted : (view.draft start).outer with
    | nil =>
      rw [hdrafted] at houter
      cases houter
    | cons surround beyond =>
      rw [hdrafted] at houter
      -- the branch that closes becomes the child read last of the one around it
      have hdraft := draft_closed hdrafted branch valid around further scope n
      have hheld := horderly.chain
      rw [outer, List.isChain_cons_cons] at hheld
      refine ⟨?_, ?_, ?_⟩
      · rw [hdraft]
        exact houter
      · rw [hdraft]
        rfl
      · rw [hdraft]
        intro item hitem
        obtain rfl := List.mem_singleton.mp hitem
        refine ⟨alike.held_eq around.branch ▸ hheld.1, ?_⟩
        exact h.closing horderly hready (by simp [outer]) alike ends complete _
  | halted => exact ⟨h.frames, h.pending, h.loose⟩

end View.Stocked
end Scan

/-! ## 4. The tree of a source

What was shown of items is read off the nodes that show them. -/

namespace Lexer

open Scan

variable {lexer : Lexer}

/-- **The items of a source have their shapes**, and so has the root above them. -/
theorem scan_schematic (hmade : lexer.fragments.Made) (source : Source) (start : Draft)
    (houter : start.outer = []) (hpending : start.pending = none) (hdone : start.frame.done = []) :
    (lexer.scan .root source).frame.branch = .root ∧
      ∀ item ∈ (lexer.draft start .root source).frame.done,
        item.label.kind.inGroup = true ∧ item.Schematic lexer.dialect.extendedComments := by
  let nesting := lexer.dialect.extendedComments
  have hstart : (initial .root source).view.Orderly nesting ∧
      (initial .root source).view.Stocked nesting start := by
    have hdraft : (initial .root source).view.draft start = start := rfl
    refine ⟨⟨rfl, .singleton _, ?_⟩, ?_, ?_, ?_⟩
    · intro hfragment
      exact absurd hfragment Bool.false_ne_true
    · rw [hdraft, Draft.frames, houter]
      exact .cons (.empty hdone) .nil
    · rw [hdraft, hpending]
      rfl
    · rw [hdraft, Draft.loose_of_none hpending]
      intro item hitem
      exact absurd hitem List.not_mem_nil
  have hturn : ∀ state : State, state.view.Ready → state.rest ≠ [] → state.halted = false →
      state.view.Orderly nesting ∧ state.view.Stocked nesting start →
      (readNext (lexer.scope source) state).view.Orderly nesting ∧
        (readNext (lexer.scope source) state).view.Stocked nesting start := by
    intro state hready ahead _ h
    obtain ⟨horderly, hstocked⟩ := h
    have hstep := readNext_step (lexer.scope source) ahead
    have hadds : state.view.Adds (state.view.Fits nesting)
        (readNext (lexer.scope source) state).view :=
      readNext_fits hmade horderly.spelled horderly.outer_ne_nil
    exact ⟨horderly.step hadds hstep (horderly.readNext_spelled ahead hadds),
      hstocked.step horderly hready hadds hstep⟩
  have hclose : ∀ before after : View, before.Ready → before.rest = [] →
      Step (lexer.scope source) before after →
      before.Orderly nesting ∧ before.Stocked nesting start →
      after.Orderly nesting ∧ after.Stocked nesting start := by
    intro before after hready hrest hstep h
    obtain ⟨horderly, hstocked⟩ := h
    have hadds : before.Adds (before.Fits nesting) after := hstep.adds_of_nil hrest
    exact ⟨horderly.step hadds hstep (horderly.spelled_of_nil hstep hrest),
      hstocked.step horderly hready hadds hstep⟩
  obtain ⟨hend, ⟨horderly, hstocked⟩, -⟩ :=
    run_ready (initial_fresh .root source) hstart hturn hclose
  rw [← scan_eq] at hend horderly hstocked
  have hroot : (lexer.scan .root source).frame.branch = .root := by
    have houtermost := horderly.root
    rw [show (lexer.scan .root source).view.outer = [] from hend] at houtermost
    exact houtermost
  have hstock := hstocked.settle (.refl _) (fun hfragment => by
    rw [show (lexer.scan .root source).view.frame.branch = .root from hroot] at hfragment
    cases hfragment) (lexer.scan .root source).position
  rw [show (lexer.scan .root source).view.frame.branch = .root from hroot] at hstock
  exact ⟨hroot, fun item hitem => ⟨hstock.held item hitem, hstock.schematic item hitem⟩⟩

end Lexer

/-- Below a node that shows an item, the kinds are those of the items. -/
theorem Tree.map_kind?_children {tree : Tree} {source : Array UInt8} {parent : Option NodeId}
    {node : Node} {items : List Item}
    (hchildren : node.children = (items.map (·.label.id)).toArray)
    (hheld : ∀ item ∈ items, tree.Holds source parent item) :
    node.children.toList.map tree.kind? = (items.map (Item.kind source)).map some := by
  rw [hchildren, List.map_map, List.map_map]
  refine List.map_congr_left fun item hitem => ?_
  obtain ⟨found, hfound, hshows⟩ := (hheld item hitem).shows
  show (tree.node? item.label.id).map (·.kind) = some (item.kind source)
  rw [hfound, Option.map_some, hshows.kind]

/-- A branch that shows an item has the shape of its own children. -/
theorem Item.Schematic.shape {nesting : Bool} {item : Item} (h : item.Schematic nesting)
    {source : Array UInt8} {node : Node} (hshows : Tree.Shows source item node) {branch : Branch}
    (hkind : node.kind = .branch branch) :
    branch.Shape nesting (item.children.map (Item.kind source)) := by
  have hown := h item (Rose.mem_subtrees_self item)
  have hvalued := hshows.kind
  rw [hkind, Item.kind_eq_valued] at hvalued
  cases hlabel : item.label.kind with
  | leaf leaf =>
    rw [hlabel] at hvalued
    cases hvalued
  | branch inner =>
    rw [hlabel] at hvalued hown
    obtain rfl : branch = Tree.withValue _ inner := Kind.branch.inj hvalued
    exact Branch.Shape.valued hown _ _

/-- A leaf that shows an item has no children. -/
theorem Item.Schematic.childless {nesting : Bool} {item : Item} (h : item.Schematic nesting)
    {source : Array UInt8} {node : Node} (hshows : Tree.Shows source item node) {leaf : Leaf}
    (hkind : node.kind = .leaf leaf) : node.children = #[] := by
  have hown := h item (Rose.mem_subtrees_self item)
  have hvalued := hshows.kind
  rw [hkind, Item.kind_eq_valued] at hvalued
  cases hlabel : item.label.kind with
  | branch inner =>
    rw [hlabel] at hvalued
    cases hvalued
  | leaf found =>
    rw [hlabel] at hown
    rw [hshows.children, show item.children = [] from hown]
    rfl

/-- **The tree of every source keeps to the schema.** -/
theorem Lexer.tokenize_schematic {dialect : Dialect} {lexer : Lexer}
    (h : Lexer.ofDialect dialect = .ok lexer) (source : Source) :
    (lexer.tokenize source).tree.Schematic dialect.extendedComments := by
  obtain rfl : lexer.dialect = dialect := Lexer.dialect_of_ofDialect h
  obtain ⟨hroot, hitems⟩ := scan_schematic (Lexer.ofDialect_made h) source
    (Draft.into (Tree.new source.filename source.start) Tree.root (rootOf source)) rfl rfl rfl
  obtain ⟨hheld, hids, hself⟩ := lexer.tokenize_grown source
  have hschema : ∀ item ∈ lexer.items source,
      item.label.kind.inGroup = true ∧ item.Schematic lexer.dialect.extendedComments := hitems
  obtain ⟨top, htop, hbody⟩ := Tree.exists_of_body? (hself hroot)
  have htopkind : top.kind = .branch .root := congrArg Node.kind hbody
  have htopchildren : top.children = ((lexer.items source).map (·.label.id)).toArray :=
    congrArg Node.children hbody
  have hbelow : ∀ {id node}, (lexer.tokenize source).tree.node? id = some node →
      id ≠ Tree.root → ∃ item : Item, Tree.Shows source.bytes item node ∧
        item.Schematic lexer.dialect.extendedComments ∧ ∀ child ∈ item.children,
          (lexer.tokenize source).tree.Holds source.bytes (some id) child := by
    intro id node hnode hne
    obtain ⟨item, hitem, -, hshows, hholds⟩ := Tree.exists_item hheld hids hnode hne
    obtain ⟨above, habove, hin⟩ := Rose.mem_subtreesAll.mp hitem
    exact ⟨item, hshows,
      fun sub hsub => (hschema above habove).2 sub (Rose.mem_subtrees_trans hsub hin), hholds⟩
  refine ⟨?_, ?_⟩
  · intro id node branch hnode hkind
    by_cases hid : id = Tree.root
    · subst hid
      rw [htop, Option.some.injEq] at hnode
      subst hnode
      rw [htopkind, Kind.branch.injEq] at hkind
      subst hkind
      refine ⟨_, Tree.map_kind?_children htopchildren hheld, ?_⟩
      have hroot : Branch.root.Shape lexer.dialect.extendedComments
          ((lexer.items source).map (·.label.kind)) := by
        refine ⟨?_, nofun, nofun⟩
        intro kind hin
        obtain ⟨item, hitem, rfl⟩ := List.mem_map.mp hin
        exact (hschema item hitem).1
      exact hroot.valued source.bytes ""
    · obtain ⟨item, hshows, hshape, hholds⟩ := hbelow hnode hid
      exact ⟨_, Tree.map_kind?_children hshows.children hholds, hshape.shape hshows hkind⟩
  · intro id node leaf hnode hkind
    have hne : id ≠ Tree.root := by
      rintro rfl
      rw [htop, Option.some.injEq] at hnode
      rw [← hnode, htopkind] at hkind
      cases hkind
    obtain ⟨item, hshows, hshape, -⟩ := hbelow hnode hne
    exact hshape.childless hshows hkind

/-- An interpolation in a string holds the operator and the group of its form. -/
theorem interpolation_schematic :
    ∃ lexer tree, Lexer.ofDialect { Dialect.standard with quasiDefinitions := [{}] } = .ok lexer ∧
      (lexer.tokenize { bytes := #[0x22, 0x23, 0x7B, 0x61, 0x7D, 0x22] }).tree = tree ∧
      tree.Schematic false ∧ (tree.children 2).toList.map tree.kind? =
        [some (.leaf (.operator 0x23)), some (.branch (.group .curly))] := by
  refine ⟨_, _, rfl, rfl, ?_, ?_⟩
  · exact Lexer.tokenize_schematic (show Lexer.ofDialect
      { Dialect.standard with quasiDefinitions := [{}] } = _ from rfl) _
  · decide

end StyleLex
