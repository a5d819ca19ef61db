/-
# What a call leaves alone

A call that resumes a branch adds to a tree that is in use.  If it is refused, nothing changes.  If
it succeeds, it changes the branch and the thread at one place, and nothing else (`Framed`):

* every other node that was there is the same, but for its two links on the thread;
* the branch has more children and another end; a name has its value made anew, and a hash is
  settled again;
* the new nodes are on the thread in one piece, right behind what was below the branch and, but for
  the root, right in front of the branch (`Spliced`).

That holds for every tree that requests can leave (`resumeIn_framed`).

Links on the thread are set apart because they are not part of what a node says: a client that holds
the identifier of a node sees the same kind, span, flag, text, parent and children before and after.
Where the new nodes stand on the thread is given as three pieces, with what the ends of the pieces
are next to, so that the two links that change can be read off (`Spliced.next`, `Spliced.previous`).

The children of the branch are among the nodes that do not change, even if the branch is a name that
has its value made anew.  That they would have kept their texts by then is a fact about the history
of the tree (`Request.treeAfter_namesRemember`), and the reason why the theorem is about trees that
requests can leave.
-/
import StyleLex.Proofs.Remembering

namespace StyleLex

open Rose

/-! ## 1. The frame of a call

`Framed` compares the bodies of nodes, which are all of a node but its two links. -/

/-- New nodes were put on the thread, between `front` and `back`, for a call that added to the
branch `id`. -/
structure Spliced (id : NodeId) (tree tree' : Tree) (front fresh back : List NodeId) : Prop where
  before : tree.production.toList = front ++ back
  after : tree'.production.toList = front ++ fresh ++ back
  new : fresh.Perm (List.range' tree.size (tree'.size - tree.size))
  /-- Of the links that were there, one forwards and one backwards lead elsewhere now. -/
  next : ∀ j < tree.size, tree'.next? j =
    if front.getLast? = some j then (fresh ++ back).head? else tree.next? j
  previous : ∀ j < tree.size, tree'.previous? j =
    if back.head? = some j then (front ++ fresh).getLast? else tree.previous? j
  /-- What was below the branch comes right before the new nodes. -/
  below : ∃ earlier below, front = earlier ++ below ∧ (id :: below).Perm (tree.preorder id).toList
  /-- The branch comes right behind them; the root comes first of all. -/
  above : back.head? = if id = Tree.root then none else some id

/-- What the call changed that added to the branch `id`, where `final` is the end of its scan. -/
structure Framed (final : Scan.State) (source : Array UInt8) (id : NodeId) (tree tree' : Tree) :
    Prop where
  grown : tree.size ≤ tree'.size
  /-- Every other node keeps its kind, its span, its flag, its text, its parent and its children. -/
  kept : ∀ j < tree.size, j ≠ id → tree'.body? j = tree.body? j
  /-- The branch has new children after the ones that it had, and it ends where the scan did. -/
  target : ∃ (origin : Node) (began : Branch) (added : List NodeId),
    tree.body? id = some origin ∧ origin.kind = .branch began ∧
    began.Alike final.frame.branch ∧ (∀ child ∈ added, tree.size ≤ child) ∧
    tree'.body? id = some (Node.finish final.frame.branch (tree'.joinedText source id)
      final.position { origin with children := origin.children ++ added.toArray })
  spliced : ∃ front fresh back, Spliced id tree tree' front fresh back

/-! ## 2. Calls that succeed

The parts of the frame have been shown of assemblies; here they are put together. -/

namespace Tree.Ordered

variable {tree : Tree} {outline : Rose NodeId}

/-- No node is below itself. -/
theorem notMem_children (h : tree.Ordered outline) (id : NodeId) : id ∉ tree.children id :=
  fun hin => absurd (h.parent_lt (h.parent?_of_mem_children hin)) (Nat.lt_irrefl id)

/-- What is below a node is all that the walk from it meets, but for the node itself. -/
theorem perm_preorder (h : tree.Ordered outline) {sub : Rose NodeId}
    (hsub : sub ∈ outline.subtrees) :
    (sub.label :: postorderAll sub.children).Perm (tree.preorder sub.label).toList := by
  rw [h.preorder_eq hsub]
  obtain ⟨id, below⟩ := sub
  rw [preorder_node]
  exact (postorderAll_perm below).cons id

end Tree.Ordered

/-- **A site is a place on the thread**: what is put in there stands in one piece. -/
theorem Grown.spliced {outline : Rose NodeId} {source : Array UInt8} {site : Site} {tree : Tree}
    {items : List Item} (hgrown : Grown source site tree items)
    (hsite : Tree.Ordered.IsSite outline site) (h : site.given.Ordered outline)
    (h' : tree.Ordered (outline.graft site.base (items.map (Rose.map Label.id)))) :
    Spliced site.base site.given tree site.before (Item.linked items) site.after := by
  have hthread : ∀ j < site.given.size, j ∈ site.before ++ site.after := fun j hj => by
    rw [← hsite.whole]
    exact h.thread_perm.mem_iff.mpr (h.mem_preorder.mpr hj)
  obtain ⟨sub, hsub, hlabel⟩ := Rose.mem_preorder.mp (h.mem_preorder.mpr hsite.sound.base)
  constructor
  case before => rw [h.production_eq, hsite.whole]
  case after =>
    rw [h'.production_eq, hsite.grafted, postorderAll_map]
    rfl
  case new => exact hgrown.ids ▸ Item.linked_perm items
  case next =>
    exact fun j hj =>
      hsite.thread.next?_inserted hgrown.thread hsite.sound.nodup (hthread j hj)
  case previous =>
    exact fun j hj =>
      hsite.thread.previous?_inserted hgrown.thread hsite.sound.nodup (hthread j hj)
  case below =>
    obtain ⟨front, hfront⟩ := hsite.below sub hsub hlabel
    exact ⟨_, _, hfront, hlabel ▸ h.perm_preorder hsub⟩
  case above => exact hsite.above

namespace Lexer

variable {tree : Tree} {outline : Rose NodeId} {p : NodeId} {origin : Node} {branch : Branch}

/-- **A call that succeeds has a frame.** -/
theorem extend_framed (lexer : Lexer) (h : tree.Ordered outline) (hnames : tree.NamesRemember [])
    (horigin : tree.body? p = some origin) (hkind : origin.kind = .branch branch)
    (source : Source) : Framed (lexer.scan branch source) source.bytes p tree
      (lexer.extend tree p branch source).tree := by
  have hordered := lexer.extend_ordered h horigin branch source
  have halike := lexer.scan_alike branch source
  obtain ⟨site, rfl, rfl, hsite, hrealizes, houter⟩ :=
    lexer.extend_realizes h horigin branch source
  have hgrown : Grown source.bytes site (lexer.extend site.given site.base branch source).tree _ :=
    hrealizes.finish hsite.sound houter _ _
  obtain ⟨-, -, -, hbegan⟩ := hrealizes.outermost houter
  rw [horigin, Option.some.injEq] at hbegan
  constructor
  case grown => exact hgrown.size
  -- not even the children of a name are touched, since they have kept their texts
  case kept =>
    exact fun j hj hne => hrealizes.finish_old hsite.sound hnames houter (hbegan ▸ hkind) halike
      _ hj hne
  -- the branch has the items as new children, and every item is new
  case target =>
    have hbase := hrealizes.finish_base hsite.sound (h.notMem_children _) houter (hbegan ▸ hkind)
      halike (lexer.scan branch source).position
    rw [Draft.Frame.node, Draft.origin_frame_settle, ← hbegan] at hbase
    refine ⟨origin, branch, _, horigin, hkind, halike, ?_, hbase⟩
    intro child hchild
    obtain ⟨item, hitem, rfl⟩ := List.mem_map.mp hchild
    exact (hgrown.mem_ids.mp (Item.id_mem_ids hitem)).1
  case spliced => exact ⟨_, _, _, hgrown.spliced hsite h hordered⟩

/-! ## 3. Calls in place

A call in place has no result but the tree that it leaves, so a call that is refused has to leave
the one it found. -/

/-- A call in place leaves the tree and the numbers of its outcome behind, or nothing. -/
theorem run_resumeIn (lexer : Lexer) (id : NodeId) (source : Source) (workspace : Workspace) :
    (lexer.resumeIn id source).run.run workspace =
      match lexer.resume workspace.tree id source with
      | .ok outcome => (.ok outcome, ⟨outcome.tree, outcome.metrics⟩)
      | .error error => (.error error, workspace) := by
  have hget : ∀ next : Workspace → ExceptT ResumeError (StateM Workspace) Outcome,
      (get >>= next).run.run workspace = (next workspace).run.run workspace := fun _ => rfl
  have hresume : ∀ (result : Except ResumeError Outcome)
      (next : Outcome → ExceptT ResumeError (StateM Workspace) Outcome),
      ((liftM result : ExceptT ResumeError (StateM Workspace) Outcome) >>= next).run.run workspace =
        match result with
        | .ok outcome => (next outcome).run.run workspace
        | .error error => (.error error, workspace) := by
    intro result next
    cases result <;> rfl
  rw [resumeIn, hget, hresume]
  generalize lexer.resume workspace.tree id source = result
  cases result <;> rfl

end Lexer

/-- How a call in place can end: it is refused and leaves all as it was, or it succeeds and has a
frame. -/
inductive Workspace.Resumes (lexer : Lexer) (id : NodeId) (source : Source) (before : Workspace) :
    Except ResumeError Outcome × Workspace → Prop where
  | unknown (kind : before.tree.kind? id = none) :
      before.Resumes lexer id source (.error (.unknownNode id), before)
  | refused {leaf : Leaf} (kind : before.tree.kind? id = some (.leaf leaf)) :
      before.Resumes lexer id source (.error (.notABranch id leaf.name), before)
  | framed {branch : Branch} {outcome : Outcome}
      (kind : before.tree.kind? id = some (.branch branch))
      (frame : Framed (lexer.scan branch source) source.bytes id before.tree outcome.tree) :
      before.Resumes lexer id source (.ok outcome, ⟨outcome.tree, outcome.metrics⟩)

/-- **Resuming has a frame**, in every tree that requests can leave: a call that is refused changes
nothing, and one that succeeds changes nothing but its branch and one place on the thread. -/
theorem resumeIn_framed (filename : Option String) (start : Position) (requests : List Request)
    (metrics : Metrics) (lexer : Lexer) (id : NodeId) (source : Source) :
    Workspace.Resumes lexer id source
      ⟨Request.treeAfter (Tree.new filename start) requests, metrics⟩
      ((lexer.resumeIn id source).run.run
        ⟨Request.treeAfter (Tree.new filename start) requests, metrics⟩) := by
  obtain ⟨outline, h, hnames⟩ := Request.treeAfter_namesRemember requests
    (Tree.ordered_new filename start) (Tree.namesRemember_new filename start)
  generalize Request.treeAfter (Tree.new filename start) requests = tree at h hnames ⊢
  rw [Lexer.run_resumeIn]
  obtain ⟨origin, branch, hbody, hkind, hresume⟩ | ⟨leaf, hleaf, hresume⟩ | ⟨hnone, hresume⟩ :=
    lexer.resume_cases tree id source
  · have hbranch : tree.kind? id = some (.branch branch) := by
      rw [Tree.kind?_eq, hbody, Option.map_some, hkind]
    simp only [hresume]
    exact .framed hbranch (lexer.extend_framed h hnames hbody hkind source)
  · simp only [hresume]
    exact .refused hleaf
  · simp only [hresume]
    exact .unknown hnone

end StyleLex
