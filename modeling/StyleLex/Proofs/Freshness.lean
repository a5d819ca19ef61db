/-
# Kept texts are fresh

The text of a run is decoded when it is first read, and then it stays what it was.  So if it were
read before the run has its end, or from another source, it would be wrong for good.  A tree is
fresh if every text that is kept is the one that the span of the run covers (`Tree.Fresh`).  A run
gets its end while it is pending, and closing a name reads the children that are complete; the
pending child is read by nothing (`Assembly.Fresh.take`).  So what a call leaves is fresh
(`Lexer.extend_fresh`).

A fresh tree says the same whether or not it keeps its texts (section 4), and a call makes of it
what it makes of the tree without them (`Lexer.forget_extend`).

When a text is read is up to the caller and to the lexer, and nothing in a tree tells a text that
was read early from one that was read late.  Freshness makes the moment irrelevant.  It is a
property of a tree and a source, so it speaks about sessions that read one source throughout; for
these, a text that is kept and a text that is read anew are the same.

The second half uses this to compare two trees that differ only in which texts they keep,
for example because a client has read some between two calls.  Both are reduced to the tree
that keeps none (`Tree.forget`), and every operation is shown to give equal results after
forgetting.
-/
import StyleLex.Proofs.Remembering

namespace StyleLex

/-! ## 1. Fresh trees

To change a node keeps a tree fresh if the node stays what it is, or if its text was not read.  The
second is needed once: when a run gets its end. -/

/-- The text that a run keeps is the one that its span covers. -/
def Node.Fresh (source : Array UInt8) (node : Node) : Prop :=
  node.kind.isRun = true → ∀ text, node.cached = some text → text = node.span.read source

namespace Tree

variable {tree : Tree} {source : Array UInt8} {id : NodeId}

/-- Every text that is kept is fresh. -/
def Fresh (source : Array UInt8) (tree : Tree) : Prop :=
  ∀ id node, tree.node? id = some node → node.Fresh source

/-- If the node is a run, has its text not been read? -/
def Unread (tree : Tree) (id : NodeId) : Prop :=
  ∀ node, tree.node? id = some node → node.kind.isRun = true → node.cached = none

/-- A change of one node that keeps it fresh. -/
theorem Fresh.modify (h : tree.Fresh source) (id : NodeId) {change : Node → Node}
    (hchange : ∀ node, tree.node? id = some node → node.Fresh source →
      (change node).Fresh source) : (tree.modify id change).Fresh source := by
  intro j node' hnode'
  rw [node?_modify] at hnode'
  split at hnode'
  · rename_i hid
    subst hid
    obtain ⟨node, hnode, rfl⟩ := Option.map_eq_some_iff.mp hnode'
    exact hchange node hnode (h id node hnode)
  · exact h j node' hnode'

/-- A new node has no text. -/
theorem Fresh.add (h : tree.Fresh source) {node : Node} (hnone : node.cached = none) :
    (tree.add node).Fresh source := by
  intro j found hfound
  rw [node?_add] at hfound
  split at hfound
  · cases hfound
    intro _ text htext
    rw [hnone] at htext
    cases htext
  · exact h j found hfound

/-- The place of a node in the tree has nothing to do with its text. -/
theorem Fresh.modify_links (h : tree.Fresh source) (id : NodeId) {change : Node → Node}
    (hsame : ∀ node, (change node).kind = node.kind ∧ (change node).cached = node.cached ∧
      (change node).span = node.span) : (tree.modify id change).Fresh source := by
  refine h.modify id fun node _ hnode => ?_
  obtain ⟨hkind, hcached, hspan⟩ := hsame node
  rw [Node.Fresh, hkind, hcached, hspan]
  exact hnode

/-- Nor has its place on the thread. -/
theorem Fresh.linkAfter (h : tree.Fresh source) (anchor id : NodeId) :
    (tree.linkAfter anchor id).Fresh source := by
  have hspliced : ∀ following, (tree.splice anchor id following).Fresh source := by
    intro following
    unfold splice
    refine (h.modify_links id ?_).modify_links anchor ?_
    all_goals exact fun _ => ⟨rfl, rfl, rfl⟩
  cases hnext : tree.next? anchor with
  | none =>
    rw [linkAfter_of_none hnext]
    exact hspliced none
  | some further =>
    rw [linkAfter_of_some hnext]
    refine (hspliced _).modify_links further ?_
    exact fun _ => ⟨rfl, rfl, rfl⟩

/-- A run that has not been read may get its end. -/
theorem Fresh.stop (h : tree.Fresh source) (hunread : tree.Unread id) (stop : Position) :
    (tree.modify id fun node => { node with span := { node.span with stop := stop } }).Fresh
      source := by
  refine h.modify id fun node hnode _ hrun text htext => ?_
  have hnone : node.cached = none := hunread node hnode hrun
  have hsome : node.cached = some text := htext
  rw [hnone] at hsome
  cases hsome

/-- So a run that has not been read may be tied in. -/
theorem Fresh.tie (h : tree.Fresh source) (hunread : tree.Unread id) (branch tail : NodeId)
    (stop : Position) : (tree.tie branch tail id stop).Fresh source := by
  unfold Tree.tie Tree.attach
  refine Fresh.linkAfter ?_ tail id
  refine ((h.stop hunread stop).modify_links id ?_).modify_links branch ?_
  · exact fun _ => ⟨rfl, rfl, rfl⟩
  · exact fun _ => ⟨rfl, rfl, rfl⟩

/-- **A text that is read is kept as it is.** -/
theorem Fresh.remember (h : tree.Fresh source) (id : NodeId) :
    (tree.remember source id).Fresh source := by
  refine h.modify id fun node _ hnode => ?_
  split
  · rename_i hrun
    intro _ text htext
    have hkept : some (node.cached.getD (node.span.read source)) = some text :=
      (text?_of_isRun hrun).symm.trans htext
    rw [← Option.some.inj hkept]
    cases hcached : node.cached with
    | none => rfl
    | some before => exact hnode hrun before hcached
  · exact hnode

/-- So are several texts. -/
theorem Fresh.rememberAll (h : tree.Fresh source) (ids : Array NodeId) :
    (tree.rememberAll source ids).Fresh source := by
  unfold Tree.rememberAll
  refine Array.foldl_induction (motive := fun _ (t : Tree) => t.Fresh source) h ?_
  intro i t ih
  exact ih.remember ids[i]

/-- A branch keeps no text. -/
theorem fresh_of_branch {node : Node} {branch : Branch} (h : node.kind = .branch branch) :
    node.Fresh source := by
  intro hrun
  rw [h] at hrun
  cases hrun

/-- A value is made of texts that are read now, or were. -/
theorem Fresh.evaluate (h : tree.Fresh source) (id : NodeId) :
    (tree.evaluate source id).Fresh source := by
  cases hname : tree.isName id with
  | false =>
    rw [evaluate_of_not_isName hname]
    exact h
  | true =>
    rw [evaluate_of_isName hname]
    refine (h.rememberAll _).modify id fun node _ hnode => ?_
    unfold named
    split
    · exact fresh_of_branch rfl
    · exact hnode

/-- What becomes a branch is no run. -/
theorem Fresh.become (h : tree.Fresh source) (id : NodeId) (branch : Branch) (valid : Bool) :
    (tree.modify id (Node.become branch valid)).Fresh source :=
  h.modify id fun _ _ _ => fresh_of_branch rfl

/-- Closing a branch is both, one after the other. -/
theorem Fresh.close (h : tree.Fresh source) (id : NodeId) (branch : Branch) (valid : Bool) :
    (tree.close source id branch valid).Fresh source :=
  (h.become id branch valid).evaluate id

/-- Is the node a run? -/
def isRun (tree : Tree) (id : NodeId) : Bool := (tree.kind? id).any Kind.isRun

/-- A change that makes no run of a node, and no node of a run, leaves the runs what they are. -/
theorem isRun_modify (tree : Tree) (id j : NodeId) {change : Node → Node}
    (h : ∀ node, (change node).kind.isRun = node.kind.isRun) :
    (tree.modify id change).isRun j = tree.isRun j := by
  rw [isRun, isRun, kind?, kind?, node?_modify]
  split
  · cases tree.node? j with
    | none => rfl
    | some node => exact h node
  · rfl

/-- So does keeping texts. -/
theorem isRun_rememberAll (tree : Tree) (source : Array UInt8) (ids : Array NodeId) (j : NodeId) :
    (tree.rememberAll source ids).isRun j = tree.isRun j := by
  unfold Tree.rememberAll
  refine Array.foldl_induction (motive := fun _ (t : Tree) => t.isRun j = tree.isRun j) rfl ?_
  intro i t ih
  rw [remember, isRun_modify, ih]
  intro node
  split <;> rfl

/-- No node becomes a run by being evaluated. -/
theorem isRun_evaluate (tree : Tree) (source : Array UInt8) (id j : NodeId) :
    (tree.evaluate source id).isRun j = tree.isRun j := by
  cases hname : tree.isName id with
  | false => rw [evaluate_of_not_isName hname]
  | true =>
    rw [evaluate_of_isName hname, isRun_modify, isRun_rememberAll]
    intro node
    unfold named
    split
    · rename_i branch hkind
      rw [hkind]
      rfl
    · rfl

/-- A branch that closes is no run. -/
theorem isRun_close (tree : Tree) (source : Array UInt8) (id : NodeId) (branch : Branch)
    (valid : Bool) : (tree.close source id branch valid).isRun id = false := by
  rw [close, isRun_evaluate, isRun, kind?, node?_modify, if_pos rfl]
  cases tree.node? id <;> rfl

/-- A node that is no run is not read. -/
theorem unread_of_not_isRun (h : tree.isRun id = false) : tree.Unread id := by
  intro node hnode hrun
  rw [isRun, kind?, hnode, Option.map_some, Option.any_some, hrun] at h
  cases h

/-- A new tree keeps nothing. -/
theorem fresh_new (filename : Option String) (start : Position) (source : Array UInt8) :
    (Tree.new filename start).Fresh source := by
  intro id node hnode
  cases id with
  | zero =>
    cases hnode
    exact fresh_of_branch rfl
  | succ id => cases hnode

end Tree

/-! ## 2. Assemblies

The pending node is the only one whose end is not known, and it is not yet the child of anything, so
making a value cannot read it. -/

/-- A run is what it was when a scan ends; only a hash is settled. -/
theorem Node.Fresh.mark {source : Array UInt8} {node : Node} (h : node.Fresh source)
    (final : Branch) : (node.mark final).Fresh source := by
  cases final with
  | hash hash => exact Tree.fresh_of_branch rfl
  | _ => exact h

namespace Assembly

variable {assembly : Assembly} {source : Array UInt8}

/-- The tree is fresh, and the pending child, which has no end yet, has not been read. -/
structure Fresh (source : Array UInt8) (assembly : Assembly) : Prop where
  tree : assembly.tree.Fresh source
  pending : ∀ id, assembly.pending = some id → assembly.tree.Unread id

/-- What has been tied in is not pending any more. -/
theorem pending_settle (assembly : Assembly) (stop : Position) :
    (assembly.settle stop).pending = none := by
  cases hpending : assembly.pending with
  | none => rw [settle_of_none hpending, hpending]
  | some id => rw [settle_of_some hpending]

/-- So settling keeps the tree fresh: the pending run gets its end, unread. -/
theorem Fresh.settle (h : assembly.Fresh source) (stop : Position) :
    (assembly.settle stop).tree.Fresh source := by
  cases hpending : assembly.pending with
  | none =>
    rw [settle_of_none hpending]
    exact h.tree
  | some id =>
    rw [settle_of_some hpending]
    exact h.tree.tie (h.pending id hpending) _ _ stop

/-- **Every mark keeps an assembly fresh.**  The pending child gets its end first. -/
theorem Fresh.take (h : assembly.Fresh source) (mark : Mark) :
    (assembly.take source mark).Fresh source := by
  cases mark with
  | leaf leaf valid start =>
    -- the leaf is new, so nobody has read it
    refine ⟨(h.settle start).add rfl, ?_⟩
    intro id hid node hnode _
    obtain rfl : (assembly.settle start).tree.size = id := by
      have hnewest : some (((assembly.settle start).tree.add _).size - 1) = some id := hid
      simpa using hnewest
    have hadded : ((assembly.settle start).tree.add
        { kind := .leaf leaf, span := Span.point start, valid := valid }).node?
          (assembly.settle start).tree.size = some node := hnode
    rw [Tree.node?_add, if_pos rfl, Option.some.injEq] at hadded
    rw [← hadded]
  | opened branch start =>
    -- nothing is pending in a branch that has just been opened
    refine ⟨(h.settle start).add rfl, ?_⟩
    intro id hid
    have hnone : (assembly.settle start).pending = some id := hid
    rw [pending_settle] at hnone
    cases hnone
  | closed branch valid stop =>
    -- the branch that closes reads its children, and is pending afterwards, but it is no run
    have hclosed := (h.settle stop).close (assembly.settle stop).branch branch valid
    have hpending := assembly.pending_settle stop
    rw [Assembly.take, complete_eq]
    generalize assembly.settle stop = settled at *
    obtain ⟨tree, tail, id, outer, pending, attached⟩ := settled
    cases outer with
    | nil =>
      refine ⟨hclosed, fun j hj => ?_⟩
      rw [show pending = none from hpending] at hj
      cases hj
    | cons around further =>
      refine ⟨hclosed, fun j hj => ?_⟩
      cases hj
      exact Tree.unread_of_not_isRun (Tree.isRun_close _ _ _ _ _)

/-- By induction on the marks. -/
theorem Fresh.takeAll (marks : List Mark) {assembly : Assembly} (h : assembly.Fresh source) :
    (assembly.takeAll source marks).Fresh source := by
  induction marks generalizing assembly with
  | nil => exact h
  | cons mark rest ih => exact ih (h.take mark)

/-- **The end of an assembly is fresh**, if what was added to is no run. -/
theorem Fresh.finish (h : assembly.Fresh source) (stop : Position)
    (hbranch : (assembly.settle stop).tree.isRun (assembly.settle stop).branch = false)
    (branch : Branch) : (assembly.finish source branch stop).tree.Fresh source := by
  cases branch with
  | hash hash =>
    exact ((h.settle stop).close _ (.hash hash.settle) hash.settle.isValid).stop
      (Tree.unread_of_not_isRun (Tree.isRun_close _ _ _ _ _)) stop
  | _ =>
    refine ((h.settle stop).evaluate _).stop (Tree.unread_of_not_isRun ?_) stop
    exact (Tree.isRun_evaluate _ _ _ _).trans hbranch

end Assembly

/-! ## 3. Calls

A call ends with the branch that it added to, which is made anew like any other. -/

/-- **A call that adds to a fresh tree leaves a fresh tree.** -/
theorem Lexer.extend_fresh (lexer : Lexer) {tree : Tree} {outline : Rose NodeId} {p : NodeId}
    {origin : Node} {branch : Branch} (h : tree.Ordered outline)
    (horigin : tree.body? p = some origin) (hkind : origin.kind = .branch branch)
    {source : Source} (hfresh : tree.Fresh source.bytes) :
    (lexer.extend tree p branch source).tree.Fresh source.bytes := by
  obtain ⟨site, rfl, rfl, hsite, hrealizes, houter⟩ :=
    lexer.extend_realizes h horigin branch source
  have hbegun : (Assembly.into site.given site.base).Fresh source.bytes :=
    ⟨hfresh, fun id hid => by cases hid⟩
  refine (hbegun.takeAll (lexer.scan branch source).marks.reverse).finish _ ?_ _
  have hs := hrealizes.settle hsite.sound (lexer.scan branch source).position
  obtain ⟨-, hbase, hself, hbegan⟩ := hs.outermost (by rw [Draft.outer_settle, houter])
  rw [horigin, Option.some.injEq] at hbegan
  rw [hbase, Tree.isRun, Tree.kind?_eq, hself, Option.map_some, Draft.Frame.node, ← hbegan, hkind]
  rfl

/-! ## 4. Trees without the texts that they keep

Two kinds of operations are told apart: those that only keep a text vanish when the texts are
forgotten, and the others commute with forgetting. -/

/-- The node, with no text kept. -/
def Node.forget (node : Node) : Node := { node with cached := none }

/-- The tree, with no text kept. -/
def Tree.forget (tree : Tree) : Tree := ⟨tree.nodes.map Node.forget, tree.filename⟩

/-- **A fresh node has the same text** if it keeps none. -/
theorem Node.Fresh.text?_forget {source : Array UInt8} {node : Node} (h : node.Fresh source) :
    node.forget.text? source = node.text? source := by
  cases hrun : node.kind.isRun with
  | true =>
    have hforget : node.forget.kind.isRun = true := hrun
    rw [Tree.text?_of_isRun hforget, Tree.text?_of_isRun hrun]
    cases hcached : node.cached with
    | none => rfl
    | some text =>
      rw [Option.getD_some, h hrun text hcached]
      rfl
  | false =>
    obtain ⟨kind, span, valid⟩ := node
    cases kind with
    | branch branch => cases branch <;> rfl
    | leaf leaf =>
      cases leaf with
      | blank => cases hrun
      | unexpected => cases hrun
      | raw => cases hrun
      | _ => rfl

/-- So is its description. -/
theorem Node.Fresh.description?_forget {source : Array UInt8} {node : Node}
    (h : node.Fresh source) : node.forget.description? source = node.description? source := by
  have htext := h.text?_forget
  obtain ⟨kind, span, valid⟩ := node
  cases kind with
  | branch branch =>
    cases branch with
    | comment form => cases form <;> rfl
    | _ => rfl
  | leaf leaf =>
    cases leaf with
    | blank => exact htext
    | unexpected => exact htext
    | raw => exact htext
    | _ => rfl

namespace Tree

variable {tree : Tree} {source : Array UInt8}

@[simp] theorem size_forget (tree : Tree) : tree.forget.size = tree.size := by
  simp [forget, size]

@[simp] theorem node?_forget (tree : Tree) (id : NodeId) :
    tree.forget.node? id = (tree.node? id).map Node.forget := by
  simp [forget, node?]

@[simp] theorem children_forget (tree : Tree) (id : NodeId) :
    tree.forget.children id = tree.children id := by
  rw [children, children, node?_forget]
  cases tree.node? id <;> rfl

@[simp] theorem parent?_forget (tree : Tree) (id : NodeId) :
    tree.forget.parent? id = tree.parent? id := by
  rw [parent?, parent?, node?_forget]
  cases tree.node? id <;> rfl

@[simp] theorem next?_forget (tree : Tree) (id : NodeId) :
    tree.forget.next? id = tree.next? id := by
  rw [next?, next?, node?_forget]
  cases tree.node? id <;> rfl

/-- A node is of the same kind. -/
@[simp] theorem kind?_forget (tree : Tree) (id : NodeId) :
    tree.forget.kind? id = tree.kind? id := by
  rw [kind?, kind?, node?_forget]
  cases tree.node? id <;> rfl

@[simp] theorem isName_forget (tree : Tree) (id : NodeId) :
    tree.forget.isName id = tree.isName id := by
  rw [isName, isName, kind?_forget]

/-- There is nothing more to forget. -/
@[simp] theorem forget_forget (tree : Tree) : tree.forget.forget = tree.forget := by
  refine ext_node? rfl fun id => ?_
  rw [node?_forget, node?_forget, Option.map_map]
  rfl

/-- To forget undoes what a change of no more than the kept text does. -/
theorem forget_modify_kept (tree : Tree) (id : NodeId) {change : Node → Node}
    (h : ∀ node, (change node).forget = node.forget) :
    (tree.modify id change).forget = tree.forget := by
  refine ext_node? rfl fun j => ?_
  rw [node?_forget, node?_forget, node?_modify]
  split
  · rw [Option.map_map]
    exact Option.map_congr fun node _ => h node
  · rfl

/-- Any other change can be made before or after. -/
theorem forget_modify (tree : Tree) (id : NodeId) {change : Node → Node}
    (h : ∀ node, (change node).forget = change node.forget) :
    (tree.modify id change).forget = tree.forget.modify id change := by
  refine ext_node? rfl fun j => ?_
  rw [node?_forget, node?_modify, node?_modify, node?_forget]
  split
  · rw [Option.map_map, Option.map_map]
    exact Option.map_congr fun node _ => h node
  · rfl

/-- A node is added the same way. -/
theorem forget_add (tree : Tree) (node : Node) :
    (tree.add node).forget = tree.forget.add node.forget := by
  refine ext_node? rfl fun j => ?_
  rw [node?_forget, node?_add, node?_add, size_forget]
  split
  · rfl
  · rw [node?_forget]

/-- It is attached the same way. -/
theorem forget_attach (tree : Tree) (parent child : NodeId) :
    (tree.attach parent child).forget = tree.forget.attach parent child := by
  unfold attach
  rw [forget_modify, forget_modify]
  · exact fun _ => rfl
  · exact fun _ => rfl

/-- And it is linked the same way. -/
theorem forget_linkAfter (tree : Tree) (anchor id : NodeId) :
    (tree.linkAfter anchor id).forget = tree.forget.linkAfter anchor id := by
  have hspliced : ∀ following, (tree.splice anchor id following).forget =
      tree.forget.splice anchor id following := by
    intro following
    unfold splice
    rw [forget_modify, forget_modify]
    · exact fun _ => rfl
    · exact fun _ => rfl
  cases hnext : tree.next? anchor with
  | none =>
    rw [linkAfter_of_none hnext, linkAfter_of_none ((next?_forget tree anchor).trans hnext),
      hspliced]
  | some further =>
    rw [linkAfter_of_some hnext, linkAfter_of_some ((next?_forget tree anchor).trans hnext),
      forget_modify, hspliced]
    exact fun _ => rfl

/-- A node ends where it ends. -/
theorem forget_stop (tree : Tree) (id : NodeId) (stop : Position) :
    (tree.modify id fun node => { node with span := { node.span with stop := stop } }).forget =
      tree.forget.modify id fun node => { node with span := { node.span with stop := stop } } :=
  forget_modify _ _ fun _ => rfl

/-- So it is tied in the same way. -/
theorem forget_tie (tree : Tree) (branch tail id : NodeId) (stop : Position) :
    (tree.tie branch tail id stop).forget = tree.forget.tie branch tail id stop := by
  unfold tie
  rw [forget_linkAfter, forget_attach, forget_stop]

/-- A text that is kept is forgotten. -/
@[simp] theorem forget_remember (tree : Tree) (source : Array UInt8) (id : NodeId) :
    (tree.remember source id).forget = tree.forget := by
  refine forget_modify_kept _ _ fun node => ?_
  split <;> rfl

/-- So are several. -/
@[simp] theorem forget_rememberAll (tree : Tree) (source : Array UInt8) (ids : Array NodeId) :
    (tree.rememberAll source ids).forget = tree.forget := by
  unfold rememberAll
  refine Array.foldl_induction (motive := fun _ (t : Tree) => t.forget = tree.forget) rfl ?_
  intro i t ih
  rw [forget_remember, ih]

/-- A node of a fresh tree has the same text. -/
theorem Fresh.text?_forget (h : tree.Fresh source) (id : NodeId) :
    tree.forget.text? source id = tree.text? source id := by
  rw [text?, text?, node?_forget]
  cases hnode : tree.node? id with
  | none => rfl
  | some node => exact (h id node hnode).text?_forget

/-- So have its children together. -/
theorem Fresh.joinedText_forget (h : tree.Fresh source) (id : NodeId) :
    tree.forget.joinedText source id = tree.joinedText source id :=
  joinedText_of_text? (children_forget tree id) fun child _ => h.text?_forget child

/-- **Evaluating a name of a fresh tree gives the same value** if no text is kept. -/
theorem Fresh.forget_evaluate (h : tree.Fresh source) (id : NodeId) :
    (tree.evaluate source id).forget = (tree.forget.evaluate source id).forget := by
  cases hname : tree.isName id with
  | false =>
    rw [evaluate_of_not_isName hname, evaluate_of_not_isName ((isName_forget tree id).trans hname),
      forget_forget]
  | true =>
    have hnamed : ∀ value node, (named value node).forget = named value node.forget := by
      intro value node
      obtain ⟨kind⟩ := node
      cases kind <;> rfl
    rw [evaluate_of_isName hname, evaluate_of_isName ((isName_forget tree id).trans hname),
      forget_modify _ _ (hnamed _), forget_modify _ _ (hnamed _), forget_rememberAll,
      forget_rememberAll, forget_forget, h.joinedText_forget]

/-- So a branch that closes has the same value. -/
theorem Fresh.forget_close (h : tree.Fresh source) (id : NodeId) (branch : Branch)
    (valid : Bool) :
    (tree.close source id branch valid).forget =
      (tree.forget.close source id branch valid).forget := by
  rw [Tree.close, (h.become id branch valid).forget_evaluate, forget_modify]
  · rfl
  · exact fun _ => rfl

end Tree

/-! ## 5. Assemblies and calls without kept texts

What an assembly holds beside its tree are identifiers, and they do not depend on texts. -/

namespace Assembly

variable {assembly : Assembly} {source : Array UInt8}

/-- The assembly, with no text kept in its tree. -/
def forget (assembly : Assembly) : Assembly := { assembly with tree := assembly.tree.forget }

/-- The pending node is tied in the same way. -/
theorem forget_settle (assembly : Assembly) (stop : Position) :
    (assembly.settle stop).forget = assembly.forget.settle stop := by
  cases hpending : assembly.pending with
  | none =>
    rw [settle_of_none hpending,
      settle_of_none (show assembly.forget.pending = none from hpending)]
  | some id =>
    rw [settle_of_some hpending,
      settle_of_some (show assembly.forget.pending = some id from hpending),
      forget, Tree.forget_tie]
    rfl

/-- **A mark is taken the same way** if no text is kept. -/
theorem Fresh.forget_take (h : assembly.Fresh source) (mark : Mark) :
    (assembly.take source mark).forget = (assembly.forget.take source mark).forget := by
  cases mark with
  | leaf leaf valid start =>
    rw [Assembly.take, Assembly.take, ← forget_settle]
    generalize assembly.settle start = settled
    simp only [forget, add_eq, Tree.forget_add, Tree.forget_forget, Tree.newest, Tree.size_add,
      Tree.size_forget]
  | opened branch start =>
    rw [Assembly.take, Assembly.take, ← forget_settle]
    generalize assembly.settle start = settled
    simp only [forget, add_eq, Tree.forget_add, Tree.forget_forget, Tree.newest, Tree.size_add,
      Tree.size_forget]
  | closed branch valid stop =>
    have hsettled := h.settle stop
    rw [Assembly.take, Assembly.take, ← forget_settle, complete_eq, complete_eq]
    generalize assembly.settle stop = settled at *
    obtain ⟨tree, tail, id, outer, pending, attached⟩ := settled
    have hclose := hsettled.forget_close id branch valid
    cases outer with
    | nil => simp only [forget, hclose]
    | cons around further => simp only [forget, hclose]

/-- By induction on the marks: what the assemblies keep makes no difference between them. -/
theorem Fresh.forget_takeAll (marks : List Mark) {a b : Assembly} (ha : a.Fresh source)
    (hb : b.Fresh source) (hsame : a.forget = b.forget) :
    (a.takeAll source marks).forget = (b.takeAll source marks).forget := by
  induction marks generalizing a b with
  | nil => exact hsame
  | cons mark rest ih =>
    refine ih (ha.take mark) (hb.take mark) ?_
    rw [ha.forget_take, hb.forget_take, hsame]

/-- **The end of an assembly is the same** if no text is kept. -/
theorem Fresh.forget_finish (h : assembly.Fresh source) (branch : Branch) (stop : Position) :
    (assembly.finish source branch stop).tree.forget =
      (assembly.forget.finish source branch stop).tree.forget := by
  have hmark : ∀ node : Node, (node.mark branch).forget = node.forget.mark branch := by
    intro node
    cases branch <;> rfl
  have hmarked := (h.settle stop).modify (assembly.settle stop).branch fun node _ hnode =>
    hnode.mark branch
  rw [finish_eq, finish_eq, Tree.forget_stop, Tree.forget_stop, hmarked.forget_evaluate,
    Tree.forget_modify _ _ hmark, ← forget_settle]
  rfl

end Assembly

/-- A child is put on the thread at the same place. -/
@[simp] theorem Tree.threadAnchor_forget (tree : Tree) (parent : NodeId) :
    tree.forget.threadAnchor parent = tree.threadAnchor parent := by
  rw [threadAnchor, threadAnchor, children_forget, node?_forget]
  cases tree.node? parent <;> rfl

/-- So an assembly begins the same way. -/
theorem Assembly.forget_into (tree : Tree) (parent : NodeId) :
    (Assembly.into tree parent).forget = Assembly.into tree.forget parent := by
  simp [forget, into]

/-- **What a call adds does not depend on the texts that are kept.** -/
theorem Lexer.forget_extend (lexer : Lexer) {a b : Tree} {source : Source}
    (ha : a.Fresh source.bytes) (hb : b.Fresh source.bytes) (hsame : a.forget = b.forget)
    (p : NodeId) (branch : Branch) :
    (lexer.extend a p branch source).tree.forget =
      (lexer.extend b p branch source).tree.forget := by
  have hbegun : ∀ {tree : Tree}, tree.Fresh source.bytes →
      (Assembly.into tree p).Fresh source.bytes := fun htree => ⟨htree, fun id hid => by cases hid⟩
  have htaken := (hbegun ha).forget_takeAll (lexer.scan branch source).marks.reverse (hbegun hb)
    (by rw [Assembly.forget_into, Assembly.forget_into, hsame])
  show (Assembly.finish source.bytes _ _ _).tree.forget =
    (Assembly.finish source.bytes _ _ _).tree.forget
  rw [((hbegun ha).takeAll _).forget_finish, ((hbegun hb).takeAll _).forget_finish, htaken]

end StyleLex
