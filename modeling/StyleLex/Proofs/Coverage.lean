/-
# Branches cover their children

A scan reads forwards, and a branch ends where the scan stands when it closes; so the span of a
branch contains the spans of its children (`Draft.Nested.take`, by one case per mark).  A call that
resumes a branch moves the end of that branch and of no other, and the branches around it end where
they did.  So coverage holds in a session for all children but those that were resumed, and these
still begin within their branch (`Continued.covered`).  It can be lost for a child that was resumed
(`not_covered_when_resumed`).

The exception is not an accident of the proof.  A call ends the branch that it was given where its
scan ended, and does not look at what is around it; extending the branches around as well would mean
to walk up the tree, and would be wrong where these have been closed by something that was read.  So
the branches that were resumed are collected, and coverage of their ends is claimed for all others.

What a session must do to have even that much is to go on where a branch ended.  A call that begins
before the end of its branch would read children that overlap with those that are there.
-/
import StyleLex.Proofs.Added

namespace StyleLex

/-! ## 1. Nested items

Nesting is about an item and what is right below it, everywhere inside an item. -/

/-- Every item ends behind its begin, and contains what is right below it. -/
def Item.Nested (item : Item) : Prop :=
  ∀ sub ∈ item.subtrees, sub.label.span.start.byte ≤ sub.label.span.stop.byte ∧
    ∀ child ∈ sub.children, sub.label.span.containsSpan child.label.span = true

/-- One span contains another if it begins no later and ends no earlier. -/
theorem Span.containsSpan_iff {outer inner : Span} :
    outer.containsSpan inner = true ↔
      outer.start.byte ≤ inner.start.byte ∧ inner.stop.byte ≤ outer.stop.byte := by
  rw [Span.containsSpan, Bool.and_eq_true, decide_eq_true_iff, decide_eq_true_iff]

/-- An item is nested if it contains its children and these are nested. -/
theorem Item.nested_node {label : Label} {below : List Item}
    (hforward : label.span.start.byte ≤ label.span.stop.byte)
    (hbelow : ∀ child ∈ below,
      label.span.containsSpan child.label.span = true ∧ Item.Nested child) :
    Item.Nested (.node label below) :=
  Rose.forall_mem_subtrees.mpr ⟨⟨hforward, fun child hchild => (hbelow child hchild).1⟩,
    fun child hchild => (hbelow child hchild).2⟩

/-! ## 2. Nested drafts

While a scan runs, the open branches have no end yet, and the place where the scan stands is as good
as one.  The pending child has no end either, but it will get one from here on, so what is required
of it holds for any such end. -/

/-- Where a branch begins. -/
def Draft.Frame.begin (frame : Draft.Frame) : Nat := frame.origin.span.start.byte

/-- The branches that are open began one inside the other, and before `here`; what they hold lies
between their begin and `here`.  The pending child may end anywhere from `here` on. -/
structure Draft.Nested (here : Nat) (draft : Draft) : Prop where
  begun : ∀ frame ∈ draft.frames, frame.begin ≤ here
  inward : draft.frames.Pairwise fun inner around => around.begin ≤ inner.begin
  done : ∀ frame ∈ draft.frames, ∀ item ∈ frame.done, Item.Nested item ∧
    frame.begin ≤ item.label.span.start.byte ∧ item.label.span.stop.byte ≤ here
  loose : ∀ item ∈ draft.loose, draft.frame.begin ≤ item.label.span.start.byte ∧
    ∀ stop : Position, here ≤ stop.byte → Item.Nested (Item.endAt stop item)

namespace Draft.Nested

variable {draft : Draft} {here further : Nat}

/-- What lies before here lies before any later place. -/
theorem mono (h : draft.Nested here) (hle : here ≤ further) : draft.Nested further where
  begun := fun frame hframe => Nat.le_trans (h.begun frame hframe) hle
  inward := h.inward
  done := by
    intro frame hframe item hitem
    obtain ⟨hnested, hstart, hstop⟩ := h.done frame hframe item hitem
    exact ⟨hnested, hstart, Nat.le_trans hstop hle⟩
  loose := by
    intro item hitem
    obtain ⟨hstart, hnested⟩ := h.loose item hitem
    exact ⟨hstart, fun stop hstop => hnested stop (Nat.le_trans hle hstop)⟩

/-- The pending child ends where the scan stands. -/
theorem settle (h : draft.Nested here) {stop : Position} (hle : here ≤ stop.byte) :
    (draft.settle stop).Nested stop.byte := by
  have hmono := h.mono hle
  constructor
  case begun =>
    rw [Draft.frames_settle]
    exact List.forall_mem_cons.mpr (List.forall_mem_cons.mp hmono.begun)
  case inward =>
    rw [Draft.frames_settle]
    exact List.pairwise_cons.mpr (List.pairwise_cons.mp hmono.inward)
  case done =>
    obtain ⟨hframe, houter⟩ := List.forall_mem_cons.mp hmono.done
    rw [Draft.frames_settle]
    refine List.forall_mem_cons.mpr ⟨fun item hitem => ?_, houter⟩
    rcases List.mem_append.mp hitem with hitem | hitem
    · exact hframe item hitem
    · obtain ⟨last, hlast, rfl⟩ := List.mem_map.mp hitem
      obtain ⟨hstart, hnested⟩ := h.loose last hlast
      refine ⟨hnested stop hle, ?_, ?_⟩ <;> cases last
      · exact hstart
      · exact Nat.le_refl stop.byte
  case loose =>
    rw [Draft.loose_settle]
    exact List.forall_mem_nil _

/-- A leaf begins where the scan stands. -/
theorem addLeaf {start : Position} (h : draft.Nested start.byte) (leaf : Leaf) (valid : Bool) :
    (draft.addLeaf leaf valid start).Nested start.byte where
  begun := h.begun
  inward := h.inward
  done := h.done
  loose := by
    intro item hitem
    obtain rfl := List.mem_singleton.mp hitem
    exact ⟨h.begun draft.frame List.mem_cons_self,
      fun stop hstop => Item.nested_node hstop (List.forall_mem_nil _)⟩

/-- So does a branch. -/
theorem openBranch {start : Position} (h : draft.Nested start.byte) (branch : Branch) :
    (draft.openBranch branch start).Nested start.byte where
  begun := List.forall_mem_cons.mpr ⟨Nat.le_refl start.byte, h.begun⟩
  inward := List.pairwise_cons.mpr ⟨h.begun, h.inward⟩
  done := List.forall_mem_cons.mpr ⟨List.forall_mem_nil _, h.done⟩
  loose := List.forall_mem_nil _

/-- A branch that closes is the pending child of the one around it, which began before. -/
theorem closeBranch (h : draft.Nested here) (branch : Branch) (valid : Bool) :
    (draft.closeBranch branch valid).Nested here := by
  cases houter : draft.outer with
  | nil =>
    rw [Draft.closeBranch, houter]
    exact h
  | cons around further =>
    obtain ⟨hbegun, hinward, hdone, -⟩ := h
    rw [Draft.frames, houter] at hbegun hinward hdone
    rw [Draft.closeBranch_of_outer houter]
    obtain ⟨hbegan, hbegun⟩ := List.forall_mem_cons.mp hbegun
    obtain ⟨hframe, hdone⟩ := List.forall_mem_cons.mp hdone
    obtain ⟨hinside, hinward⟩ := List.pairwise_cons.mp hinward
    refine ⟨hbegun, hinward, hdone, fun item hitem => ?_⟩
    obtain rfl := List.mem_singleton.mp hitem
    refine ⟨hinside around List.mem_cons_self, fun stop hstop => ?_⟩
    refine Item.nested_node (Nat.le_trans hbegan hstop) fun child hchild => ?_
    obtain ⟨hnested, hstart, hend⟩ := hframe child hchild
    exact ⟨Span.containsSpan_iff.mpr ⟨hstart, Nat.le_trans hend hstop⟩, hnested⟩

/-- **Every mark keeps a draft nested**, if it stands where the scan does. -/
theorem take (h : draft.Nested here) {mark : Mark} (hle : here ≤ mark.place.byte) :
    (draft.take mark).Nested mark.place.byte := by
  cases mark with
  | leaf leaf valid start => exact (h.settle hle).addLeaf leaf valid
  | opened branch start => exact (h.settle hle).openBranch branch
  | closed branch valid stop => exact (h.settle hle).closeBranch branch valid

end Draft.Nested

namespace Scan

variable {scope : Scope} {view after : View} {start : Draft}

/-- A scan only moves forwards. -/
theorem View.byte_le_consume (scope : Scope) (n : Nat) (view : View) :
    view.position.byte ≤ (view.consume scope n).position.byte := by
  rw [View.byte_consume]
  exact Nat.le_add_right _ _

/-- **Every step keeps the draft of a scan nested.** -/
theorem Step.nested (hstep : Step scope view after)
    (h : (view.draft start).Nested view.position.byte) :
    (after.draft start).Nested after.position.byte := by
  cases hstep with
  | @leaf leaf valid branch n =>
    rw [draft_consume, draft_addLeaf]
    exact (h.take (Nat.le_refl (Mark.place (.leaf leaf valid view.position)).byte)).mono
      (View.byte_le_consume scope n (view.addLeaf leaf valid branch))
  | grow => exact h.mono (View.byte_le_consume scope 1 view)
  | @opened branch =>
    rw [draft_consume, draft_openBranch]
    exact (h.take (Nat.le_refl (Mark.place (.opened branch view.position)).byte)).mono
      (View.byte_le_consume scope _ (view.openBranch branch))
  | @closed branch valid n around further =>
    rw [draft_consume, draft_closeBranch]
    exact (h.take (Nat.le_refl (Mark.place (.closed branch valid view.position)).byte)).mono
      (View.byte_le_consume scope n (view.closeBranch branch valid around further))
  | halted => exact h

end Scan

/-- **What a call reads is nested**, and ends where the scan does. -/
theorem Lexer.draft_nested (lexer : Lexer) (tree : Tree) (parent : NodeId) {origin : Node}
    (branch : Branch) {source : Source} (hbegan : origin.span.start.byte ≤ source.start.byte) :
    (lexer.draft (Draft.into tree parent origin) branch source).Nested
      (lexer.scan branch source).position.byte := by
  have hstart : ((initial branch source).view.draft (Draft.into tree parent origin)).Nested
      (initial branch source).view.position.byte := by
    refine ⟨?_, List.pairwise_singleton _ _, ?_, List.forall_mem_nil _⟩
    · exact List.forall_mem_singleton.mpr hbegan
    · exact List.forall_mem_singleton.mpr (List.forall_mem_nil _)
  obtain ⟨-, hdone, -⟩ := Scan.run_induction (initial_fresh branch source)
    (P := fun view => (view.draft (Draft.into tree parent origin)).Nested view.position.byte)
    hstart fun _ _ _ _ (hstep : Scan.Step (lexer.scope source) _ _) h => hstep.nested h
  rw [← scan_eq lexer] at hdone
  exact hdone.settle (Nat.le_refl _)

/-! ## 3. Covered trees

For trees, the same in terms of nodes, with the exceptions.  A node after a call is one that was
there, the branch that was added to, or a new one; and so is its parent. -/

/-- The span of a node. -/
def Tree.span? (tree : Tree) (id : NodeId) : Option Span := (tree.node? id).map (·.span)

/-- Every node ends behind its begin.  A child begins within its branch, and ends there too unless
it is one of the `targets`. -/
structure Tree.Covering (targets : List NodeId) (tree : Tree) : Prop where
  forward : ∀ {id span}, tree.span? id = some span → span.start.byte ≤ span.stop.byte
  begins : ∀ {parent child outer inner}, child ∈ tree.children parent →
    tree.span? parent = some outer → tree.span? child = some inner →
    outer.containsSpan (Span.point inner.start) = true
  ends : ∀ {parent child outer inner}, child ∈ tree.children parent →
    tree.span? parent = some outer → tree.span? child = some inner → child ∉ targets →
    inner.stop.byte ≤ outer.stop.byte

namespace Tree

variable {tree : Tree} {outline : Rose NodeId} {targets : List NodeId}

/-- The span of a node is part of its body. -/
theorem span?_eq (tree : Tree) (id : NodeId) : tree.span? id = (tree.body? id).map (·.span) := by
  rw [span?, body?, Option.map_map]
  rfl

/-- The root is no child, so it makes no difference whether it was resumed. -/
theorem Covering.root (h : tree.Covering (Tree.root :: targets)) (hordered : tree.Ordered outline) :
    tree.Covering targets where
  forward := h.forward
  begins := h.begins
  ends := by
    intro parent child outer inner hchild houter hinner hnot
    refine h.ends hchild houter hinner fun hin => ?_
    rcases List.mem_cons.mp hin with rfl | hin
    · exact hordered.consistent.rooted.2 parent hchild
    · exact hnot hin

/-- A tree of nothing but a root covers all its children. -/
theorem covering_new (filename : Option String) (start : Position) :
    (Tree.new filename start).Covering [] := by
  have hnone : ∀ parent, (Tree.new filename start).children parent = #[] := by
    intro parent
    cases parent <;> rfl
  refine ⟨?_, ?_, ?_⟩
  · intro id span hspan
    cases id with
    | zero =>
      obtain rfl : Span.point start = span := Option.some.inj hspan
      exact Nat.le_refl start.byte
    | succ id => cases hspan
  · intro parent child outer inner hchild
    rw [hnone] at hchild
    exact absurd hchild (Array.not_mem_empty child)
  · intro parent child outer inner hchild
    rw [hnone] at hchild
    exact absurd hchild (Array.not_mem_empty child)

end Tree

namespace Added

variable {source : Array UInt8} {p : NodeId} {final : Scan.State} {items : List Item}
  {tree tree' : Tree} {targets : List NodeId} {outline : Rose NodeId} {origin : Span}

/-- Any other node has the span that it had. -/
theorem span?_kept (h : Added source p final items tree tree') {j : NodeId} (hj : j < tree.size)
    (hne : j ≠ p) : tree'.span? j = tree.span? j := by
  rw [Tree.span?_eq, Tree.span?_eq, h.kept j hj hne]

/-- The branch that was added to ends where the scan did. -/
theorem span?_target (h : Added source p final items tree tree')
    (horigin : tree.span? p = some origin) :
    tree'.span? p = some ⟨origin.start, final.position⟩ := by
  obtain ⟨began, -, hbegan, -, -, hfinal⟩ := h.target
  rw [Tree.span?_eq, hbegan, Option.map_some, Option.some.injEq] at horigin
  rw [Tree.span?_eq, hfinal, Option.map_some, Node.span_finish, ← horigin]

/-- An item that is held has its span. -/
theorem span?_held {parent : Option NodeId} {item : Item}
    (h : tree.Holds source parent item) : tree.span? item.label.id = some item.label.span := by
  obtain ⟨node, hnode, hshows⟩ := h.shows
  rw [Tree.span?, hnode, Option.map_some, hshows.span]

/-- A child of a node that was there and is not `p` was its child before, and begins where it
did. -/
theorem exists_old (h : Added source p final items tree tree')
    (hordered : tree.Ordered outline) (horigin : tree.span? p = some origin)
    {parent child : NodeId} {inner : Span} (hchild : child ∈ tree.children parent)
    (hinner : tree'.span? child = some inner) :
    ∃ before, tree.span? child = some before ∧ inner.start = before.start ∧
      (child ≠ p → inner = before) := by
  have hlt : child < tree.size := hordered.consistent.listed parent child hchild
  by_cases hp : child = p
  · subst hp
    obtain rfl := Option.some.inj ((h.span?_target horigin).symm.trans hinner)
    exact ⟨origin, horigin, rfl, fun hne => absurd rfl hne⟩
  · exact ⟨inner, (h.span?_kept hlt hp).symm.trans hinner, rfl, fun _ => rfl⟩

/-- **A call keeps a tree covered**, but for the branch that it was made into: that one may end
behind the end of the branch around it. -/
theorem covering (h : Added source p final items tree tree')
    (hordered : tree.Ordered outline) (hcovering : tree.Covering targets)
    (horigin : tree.span? p = some origin) (hstop : origin.stop.byte ≤ final.position.byte)
    (hitems : ∀ item ∈ items, Item.Nested item ∧
      origin.start.byte ≤ item.label.span.start.byte ∧
        item.label.span.stop.byte ≤ final.position.byte) :
    tree'.Covering (p :: targets) := by
  have hnested : ∀ sub ∈ Rose.subtreesAll items,
      sub.label.span.start.byte ≤ sub.label.span.stop.byte ∧
        ∀ child ∈ sub.children, sub.label.span.containsSpan child.label.span = true := by
    intro sub hsub
    obtain ⟨top, htop, hin⟩ := Rose.mem_subtreesAll.mp hsub
    exact (hitems top htop).1 sub hin
  have hforward : ∀ {id span}, tree'.span? id = some span → span.start.byte ≤ span.stop.byte := by
    intro id span hspan
    rcases Nat.lt_or_ge id tree.size with hold | hnew
    · by_cases hid : id = p
      · subst hid
        obtain rfl := Option.some.inj ((h.span?_target horigin).symm.trans hspan)
        show origin.start.byte ≤ final.position.byte
        exact Nat.le_trans (hcovering.forward horigin) hstop
      · exact hcovering.forward ((h.span?_kept hold hid).symm.trans hspan)
    · obtain ⟨node, hnode, rfl⟩ := Option.map_eq_some_iff.mp hspan
      obtain ⟨sub, hsub, -, hshows, -⟩ := h.exists_item hnode hnew
      rw [hshows.span]
      exact (hnested sub hsub).1
  -- Only a child that was there before may have been made longer, and only if it is `p`.
  have hbelow : ∀ {parent child outer inner}, child ∈ tree'.children parent →
      tree'.span? parent = some outer → tree'.span? child = some inner →
      outer.containsSpan inner = true ∨
        ∃ around before, child ∈ tree.children parent ∧ tree.span? parent = some around ∧
          tree.span? child = some before ∧ outer.start = around.start ∧
          around.stop.byte ≤ outer.stop.byte ∧ inner.start = before.start ∧
          (child ≠ p → inner = before) := by
    intro parent child outer inner hchild houter hinner
    rcases Nat.lt_or_ge parent tree.size with hold | hnew
    · by_cases hp : parent = p
      · subst hp
        obtain rfl := Option.some.inj ((h.span?_target horigin).symm.trans houter)
        rw [h.children_target] at hchild
        rcases Array.mem_append.mp hchild with hchild | hchild
        · obtain ⟨before, hbefore, hstart, hsame⟩ := h.exists_old hordered horigin hchild hinner
          exact Or.inr ⟨origin, before, hchild, horigin, hbefore, rfl, hstop, hstart, hsame⟩
        · obtain ⟨item, hitem, rfl⟩ := List.mem_map.mp (List.mem_toArray.mp hchild)
          obtain rfl := Option.some.inj ((span?_held (h.held item hitem)).symm.trans hinner)
          exact Or.inl (Span.containsSpan_iff.mpr (hitems item hitem).2)
      · rw [h.children_kept hold hp] at hchild
        rw [h.span?_kept hold hp] at houter
        obtain ⟨before, hbefore, hstart, hsame⟩ := h.exists_old hordered horigin hchild hinner
        exact Or.inr ⟨outer, before, hchild, houter, hbefore, rfl, Nat.le_refl _, hstart, hsame⟩
    · obtain ⟨node, hnode, rfl⟩ := Option.map_eq_some_iff.mp houter
      obtain ⟨sub, hsub, -, hshows, hholds⟩ := h.exists_item hnode hnew
      rw [Tree.children, hnode, Option.map_some, Option.getD_some, hshows.children] at hchild
      obtain ⟨item, hitem, rfl⟩ := List.mem_map.mp (List.mem_toArray.mp hchild)
      obtain rfl := Option.some.inj ((span?_held (hholds item hitem)).symm.trans hinner)
      rw [hshows.span]
      exact Or.inl ((hnested sub hsub).2 item hitem)
  constructor
  case forward => exact hforward
  case begins =>
    intro parent child outer inner hchild houter hinner
    rw [Span.containsSpan_iff]
    rcases hbelow hchild houter hinner with hcovers |
      ⟨around, before, hin, haround, hbefore, houterstart, hends, hstart, -⟩
    · rw [Span.containsSpan_iff] at hcovers
      exact ⟨hcovers.1, Nat.le_trans (hforward hinner) hcovers.2⟩
    · have hbegins := Span.containsSpan_iff.mp (hcovering.begins hin haround hbefore)
      rw [houterstart, hstart]
      exact ⟨hbegins.1, Nat.le_trans hbegins.2 hends⟩
  case ends =>
    intro parent child outer inner hchild houter hinner hnot
    rw [List.mem_cons, not_or] at hnot
    rcases hbelow hchild houter hinner with hcovers |
      ⟨around, before, hin, haround, hbefore, -, hends, -, hsame⟩
    · exact (Span.containsSpan_iff.mp hcovers).2
    · rw [hsame hnot.1]
      exact Nat.le_trans (hcovering.ends hin haround hbefore hnot.2) hends

end Added

/-- **A call that begins where its branch ends keeps a tree covered**, but for that branch. -/
theorem Lexer.extend_covering (lexer : Lexer) {tree : Tree} {outline : Rose NodeId}
    {targets : List NodeId} {p : NodeId} {origin : Node} {branch : Branch} {source : Source}
    (h : tree.Ordered outline) (hnames : tree.NamesRemember []) (hcovering : tree.Covering targets)
    (horigin : tree.body? p = some origin) (hkind : origin.kind = .branch branch)
    (hbegin : source.start = origin.span.stop) :
    (lexer.extend tree p branch source).tree.Covering (p :: targets) := by
  have hspan : tree.span? p = some origin.span := by
    rw [Tree.span?_eq, horigin, Option.map_some]
  have hbefore : origin.span.start.byte ≤ source.start.byte :=
    hbegin ▸ hcovering.forward hspan
  have hnested := lexer.draft_nested tree p branch hbefore
  have hend := (lexer.scan_within branch source).1.1
  rw [hbegin] at hend
  refine (lexer.extend_added h hnames horigin hkind source).covering h hcovering hspan hend ?_
  intro item hitem
  have hdone := hnested.done _ List.mem_cons_self item hitem
  rwa [Draft.Frame.begin, lexer.draft_origin h horigin] at hdone

/-! ## 4. Sessions that go on where a branch ended

The right edge is where a call can go on in the source without reading anything twice: the root, its
last child, the last child of that, and so on. -/

/-- The branches on the right edge of a tree: the root, and the last child of one that is there. -/
inductive Tree.Rightmost (tree : Tree) : NodeId → Prop where
  | root : tree.Rightmost Tree.root
  | last {id child : NodeId} (around : tree.Rightmost id)
      (ends : (tree.children id).back? = some child) : tree.Rightmost child

/-- The trees of sessions on one buffer in which every call goes on with a branch on the right
edge, where that branch ended; with the branches that were resumed, the last one first. -/
inductive Continued (bytes : Array UInt8) : List NodeId → Tree → Prop where
  | begun (lexer : Lexer) {source : Source} (same : source.bytes = bytes) :
      Continued bytes [] (lexer.tokenize source).tree
  | resumed {targets : List NodeId} {tree : Tree} (before : Continued bytes targets tree)
      (lexer : Lexer) {id : NodeId} {span : Span} {source : Source} {outcome : Outcome}
      (edge : tree.Rightmost id) (there : tree.span? id = some span)
      (same : source.bytes = bytes) (goes : source.start = span.stop)
      (success : lexer.resume tree id source = .ok outcome) :
      Continued bytes (id :: targets) outcome.tree

namespace Continued

variable {bytes : Array UInt8} {targets : List NodeId} {tree : Tree}

/-- By induction on the calls: what is covered stays covered, but for the branch that is resumed. -/
theorem covering (h : Continued bytes targets tree) :
    (∃ outline, tree.Ordered outline) ∧ tree.NamesRemember [] ∧ tree.Covering targets := by
  induction h with
  | @begun lexer source same =>
    have hnew := Tree.ordered_new source.filename source.start
    have hnames := Tree.namesRemember_new source.filename source.start
    have hbody := Lexer.body?_new source
    have hordered := lexer.extend_ordered hnew hbody .root source
    exact ⟨⟨_, hordered⟩, lexer.extend_namesRemember hnew hbody hnames .root source,
      (lexer.extend_covering hnew hnames (Tree.covering_new _ _) hbody rfl rfl).root hordered⟩
  | @resumed targets tree before lexer id span source outcome edge there same goes success ih =>
    obtain ⟨⟨outline, hordered⟩, hnames, hcovering⟩ := ih
    obtain ⟨origin, branch, hbody, hkind, hresume⟩ | ⟨leaf, -, hresume⟩ | ⟨-, hresume⟩ :=
      lexer.resume_cases tree id source
    · obtain rfl := Except.ok.inj (hresume.symm.trans success)
      rw [Tree.span?_eq, hbody, Option.map_some, Option.some.injEq] at there
      exact ⟨⟨_, lexer.extend_ordered hordered hbody branch source⟩,
        lexer.extend_namesRemember hordered hbody hnames branch source,
        lexer.extend_covering hordered hnames hcovering hbody hkind (there ▸ goes)⟩
    all_goals
      rw [hresume] at success
      cases success

/-- **Branches cover their children when a session goes on where they end**, but for the ends of
the children that were resumed: every child begins within its branch, and one that no call was made
into ends there too. -/
theorem covered (h : Continued bytes targets tree) {parent child : NodeId} {outer inner : Span}
    (hchild : child ∈ tree.children parent) (houter : tree.span? parent = some outer)
    (hinner : tree.span? child = some inner) :
    outer.containsSpan (Span.point inner.start) = true ∧
      (child ∉ targets → outer.containsSpan inner = true) := by
  obtain ⟨-, -, hcovering⟩ := h.covering
  have hbegins := hcovering.begins hchild houter hinner
  refine ⟨hbegins, fun hnot => ?_⟩
  exact Span.containsSpan_iff.mpr ⟨(Span.containsSpan_iff.mp hbegins).1,
    hcovering.ends hchild houter hinner hnot⟩

end Continued

/-- The bytes of `( `, read up to the blank. -/
def openGroup : Tree :=
  (Lexer.tokenize ⟨Dialect.standard, Fragments.empty⟩
    { bytes := #[0x28, 0x20], bound := some 1 }).tree

/-- The blank, to be read into the parentheses. -/
def blankAhead : Source where
  bytes := #[0x28, 0x20]
  start := ⟨⟨1, 1⟩, ⟨1, 1⟩, 0⟩

/-- The parentheses with the blank. -/
def longerGroup : Tree :=
  (Lexer.extend ⟨Dialect.standard, Fragments.empty⟩ openGroup 1 (.group .round) blankAhead).tree

/-- The session of the two calls is one that goes on where the first ended. -/
theorem continued_longerGroup : Continued #[0x28, 0x20] [1] longerGroup := by
  have hbegun : Continued #[0x28, 0x20] [] openGroup := .begun _ rfl
  have hedge : openGroup.Rightmost 1 := .last .root (by decide)
  have hthere : openGroup.span? 1 = some ⟨Position.origin, ⟨⟨1, 1⟩, ⟨1, 1⟩, 0⟩⟩ := by decide
  have hresume : Lexer.branchToResume openGroup 1 = .ok (.group .round) := by rfl
  refine .resumed hbegun ⟨Dialect.standard, Fragments.empty⟩ hedge hthere
    (show blankAhead.bytes = _ from rfl) rfl ?_
  rw [Lexer.resume, hresume]
  rfl

/-- The blank is covered by the parentheses. -/
theorem longerGroup_covered : 2 ∈ longerGroup.children 1 ∧ 2 ∉ [1] ∧
    Span.containsSpan ⟨Position.origin, ⟨⟨2, 2⟩, ⟨2, 2⟩, 0⟩⟩
      ⟨⟨⟨1, 1⟩, ⟨1, 1⟩, 0⟩, ⟨⟨2, 2⟩, ⟨2, 2⟩, 0⟩⟩ = true := by
  have hchild : 2 ∈ longerGroup.children 1 := Array.mem_toList_iff.mp (by decide)
  exact ⟨hchild, by decide,
    (continued_longerGroup.covered hchild (by decide) (by decide)).2 (by decide)⟩

/-- **A branch need not cover a child that was resumed**: the parentheses end behind the root. -/
theorem not_covered_when_resumed :
    ¬ ∀ (bytes : Array UInt8) (targets : List NodeId) (tree : Tree),
      Continued bytes targets tree → ∀ (parent child : NodeId) (outer inner : Span),
        child ∈ tree.children parent → tree.span? parent = some outer →
        tree.span? child = some inner → outer.containsSpan inner = true := by
  intro h
  have hchild : 1 ∈ longerGroup.children Tree.root := Array.mem_toList_iff.mp (by decide)
  have hcovers := h _ _ _ continued_longerGroup Tree.root 1
    ⟨Position.origin, ⟨⟨1, 1⟩, ⟨1, 1⟩, 0⟩⟩ ⟨Position.origin, ⟨⟨2, 2⟩, ⟨2, 2⟩, 0⟩⟩
    hchild (by decide) (by decide)
  exact absurd hcovers (by decide)

end StyleLex
