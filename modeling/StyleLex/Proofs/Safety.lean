/-
# Nothing breaks

A client makes a tree of a source, adds to it where it likes, and asks about it: requests, one after
the other, with any bytes, any forms, any places to begin and to stop, and any ids.  `Request.serve`
answers them, and `Guarded.serve` answers them with every access checked.  The two agree on every
sequence of requests (`requests_safe`), so no check ever fails.

A client that asks about a node which is not there makes a mistake of its own, and gets no answer;
to resume such a node is no mistake but is refused.

Between requests the tree is ordered, and that is all that the answers rest on: keeping a text or
making a value anew moves no node (`Refreshed.ordered`), and what a call adds is grafted on.

The requests are those that the interface offers, with every argument left to the client.  Nothing
is assumed of the source of a later call: it may be another one, or shorter than the spans of the
nodes that are there, and its beginning and bound may be anything.

For each request there are two answers, the plain one and the guarded one, and they are compared as
values.  So a check that fails shows as a difference, and the statement that no check fails needs no
notion of failing other than that the guarded answer is not `.ok`.
-/
import StyleLex.Proofs.Guarded.Lexer
import StyleLex.Proofs.Guarded.Reports

namespace StyleLex

/-! ## 1. Requests

A request about a node that does not exist is the client's own mistake, as is indexing out of
bounds; `isProper` tells them apart. -/

/-- What a client may ask for. -/
inductive Request where
  /-- A tree of a source takes the place of the one before. -/
  | tokenize (dialect : Dialect) (source : Source)
  /-- What a source holds is added to a branch. -/
  | resume (dialect : Dialect) (id : NodeId) (source : Source)
  | text (source : Array UInt8) (id : NodeId)
  | evaluate (source : Array UInt8) (id : NodeId)
  | depth (id : NodeId)
  | describe (source : Array UInt8) (id : NodeId)
  | dump (source : Array UInt8)
  | counts
  | snapshot (source : Array UInt8)
  | diagnostics (source : Array UInt8) (filename : String)

/-- What it gets. -/
inductive Answer where
  /-- The dialect has an ill-made form. -/
  | rejected (error : FormError)
  /-- The id is not that of a branch. -/
  | refused (error : ResumeError)
  | lexed (metrics : Metrics) (recoveries : List Recovery)
  | text (text : Option String)
  | number (n : Nat)
  | counts (census : Census) (significant : Nat)
  | snapshot (snapshot : Option Snapshot)
  | diagnostics (diagnostics : List Diagnostic)
  /-- There is no node to be asked about. -/
  | none

namespace Request

/-- Is the node that is asked about there? -/
def isProper (tree : Tree) : Request → Bool
  | text _ id | evaluate _ id | depth id | describe _ id => id < tree.size
  | _ => true

/-- The answer to a proper request, and the tree after it. -/
def answer (tree : Tree) : Request → Answer × Tree
  | tokenize dialect source =>
    match Lexer.ofDialect dialect with
    | .ok lexer =>
      let outcome := lexer.tokenize source
      (.lexed outcome.metrics outcome.recoveries, outcome.tree)
    | .error error => (.rejected error, tree)
  | resume dialect id source =>
    match Lexer.ofDialect dialect with
    | .ok lexer =>
      match lexer.resume tree id source with
      | .ok outcome => (.lexed outcome.metrics outcome.recoveries, outcome.tree)
      | .error error => (.refused error, tree)
    | .error error => (.rejected error, tree)
  | text source id => (.text (tree.text? source id), tree.remember source id)
  | evaluate source id =>
    let evaluated := tree.evaluate source id
    (.text (if tree.isName id then evaluated.text? source id else none), evaluated)
  | depth id => (.number (tree.depth id), tree)
  | describe source id => (.text (tree.description? source id), tree.remember source id)
  | dump source =>
    (.text (some (tree.dump source)), tree.rememberAll source (tree.preorder Tree.root))
  | counts => (.counts (Census.ofTree tree) (Census.ofTree tree).significant, tree)
  | snapshot source =>
    (.snapshot (Snapshot.ofTree? tree source), tree.rememberAll source tree.production)
  | diagnostics source filename =>
    let report : Report :=
      { path := filename, source := source, tree := tree, metrics := {}, census := .ofTree tree }
    (.diagnostics report.diagnostics, tree)

/-- The answer to any request; an improper one gets none, and leaves the tree as it is. -/
def serve (tree : Tree) (request : Request) : Answer × Tree :=
  if request.isProper tree then request.answer tree else (.none, tree)

/-- The answers to some requests, in order. -/
def serveAll (tree : Tree) : List Request → List Answer
  | [] => []
  | request :: rest => (request.serve tree).1 :: serveAll (request.serve tree).2 rest

/-- The tree after some requests. -/
def treeAfter (tree : Tree) (requests : List Request) : Tree :=
  requests.foldl (fun tree request => (request.serve tree).2) tree

end Request

/-! ## 2. Guarded answers

The same requests, answered by the guarded operations.  What is merely kept for later, such as a
text that has been read, is not checked again. -/

namespace Guarded

/-- The guarded answer to a proper request, and the tree after it. -/
def answer (tree : Tree) : Request → Guarded (Answer × Tree)
  | .tokenize dialect source => do
    let made ← (lexer dialect).run
    match made with
    | .ok lexer => do
      let outcome ← extend lexer (Tree.new source.filename source.start) Tree.root .root source
      pure (.lexed outcome.metrics outcome.recoveries, outcome.tree)
    | .error error => pure (.rejected error, tree)
  | .resume dialect id source => do
    let made ← (lexer dialect).run
    match made with
    | .ok lexer =>
      match Lexer.branchToResume tree id with
      | .ok branch => do
        let outcome ← extend lexer tree id branch source
        pure (.lexed outcome.metrics outcome.recoveries, outcome.tree)
      | .error error => pure (.refused error, tree)
    | .error error => pure (.rejected error, tree)
  | .text source id => do
    let node ← fetch tree id
    let text ← text? source node
    pure (.text text, tree.remember source id)
  | .evaluate source id => do
    let evaluated ← evaluate tree source id
    let node ← fetch evaluated id
    pure (.text (if tree.isName id then node.text? source else none), evaluated)
  | .depth id => do
    let steps ← depth tree id
    pure (.number steps, tree)
  | .describe source id => do
    let node ← fetch tree id
    let text ← description? source node
    pure (.text text, tree.remember source id)
  | .dump source => do
    let text ← dump tree source
    pure (.text (some text), tree.rememberAll source (tree.preorder Tree.root))
  | .counts => do
    let counts ← census tree
    let others ← significant counts
    pure (.counts counts others, tree)
  | .snapshot source => do
    let whole ← snapshot? tree source
    pure (.snapshot whole, tree.rememberAll source tree.production)
  | .diagnostics source filename => do
    let all ← diagnostics tree source filename
    pure (.diagnostics all, tree)

/-- The guarded answer to any request. -/
def serve (tree : Tree) (request : Request) : Guarded (Answer × Tree) :=
  if request.isProper tree then answer tree request else pure (.none, tree)

/-- The guarded answers to some requests; the first breach ends them. -/
def serveAll (tree : Tree) : List Request → Guarded (List Answer)
  | [] => pure []
  | request :: rest => do
    let served ← serve tree request
    let answers ← serveAll served.2 rest
    pure (served.1 :: answers)

end Guarded

/-! ## 3. Trees stay ordered

All guarded operations need of a tree is that it is ordered, so that is what has to be kept.  Each
request leads to one of five kinds of trees, and each of these is ordered if the tree before was. -/

namespace Refreshed

variable {source : Array UInt8} {tree tree' : Tree} {id : NodeId} {outline : Rose NodeId}

/-- **What is refreshed stays ordered**, with the same outline. -/
theorem ordered (h : Refreshed source tree id tree') (hordered : tree.Ordered outline) :
    tree'.Ordered outline where
  label := hordered.label
  ids := by
    rw [h.size]
    exact hordered.ids
  outlines := by
    have hlt : ∀ sub ∈ outline.subtrees, sub.label < tree.size := fun sub hsub =>
      hordered.mem_preorder.mp (Rose.mem_preorder.mpr ⟨sub, hsub, rfl⟩)
    intro sub hsub
    obtain ⟨hchildren, hparent⟩ := hordered.outlines sub hsub
    refine ⟨?_, ?_⟩
    · rw [h.children_eq (hlt sub hsub)]
      exact hchildren
    · intro child hchild
      have hbelow := Rose.mem_subtrees_trans (Rose.mem_subtrees_of_mem_children hchild) hsub
      rw [h.parent?_eq (hlt child hbelow)]
      exact hparent child hchild
  increasing := hordered.increasing
  orphan := by
    rw [h.parent?_eq hordered.root_lt]
    exact hordered.orphan
  thread := hordered.thread.congr (fun j _ => h.previous j) fun j _ => h.next j

end Refreshed

/-- Keeping a text refreshes one node. -/
theorem refreshed_remember (source : Array UInt8) (tree : Tree) (id : NodeId) :
    Refreshed source tree id (tree.remember source id) where
  size := Tree.size_remember tree source id
  next := Tree.next?_remember tree source id
  previous := Tree.previous?_remember tree source id
  kept := fun _ _ _ h => Tree.kept_remember source id h
  self := by
    intro node h
    obtain ⟨kept, hkept, hkeeps⟩ := Tree.kept_remember source id h
    refine ⟨kept, hkept, ?_⟩
    rcases hkeeps with rfl | rfl <;> exact ⟨rfl, rfl⟩

/-- So does keeping several texts, one after the other. -/
theorem Tree.Ordered.rememberAll {tree : Tree} {outline : Rose NodeId} (h : tree.Ordered outline)
    (source : Array UInt8) (ids : Array NodeId) :
    (tree.rememberAll source ids).Ordered outline := by
  unfold Tree.rememberAll
  refine Array.foldl_induction (motive := fun _ (t : Tree) => t.Ordered outline) h ?_
  intro i t ih
  exact (refreshed_remember source t ids[i]).ordered ih

/-- What a request can make of a tree. -/
inductive Tree.Becomes (tree : Tree) : Tree → Prop where
  | same : tree.Becomes tree
  | made (lexer : Lexer) (source : Source) : tree.Becomes (lexer.tokenize source).tree
  | extended (lexer : Lexer) {id : NodeId} {origin : Node} {branch : Branch}
      (body : tree.body? id = some origin) (kind : origin.kind = .branch branch)
      (source : Source) : tree.Becomes (lexer.extend tree id branch source).tree
  | remembered (source : Array UInt8) (ids : Array NodeId) :
      tree.Becomes (tree.rememberAll source ids)
  | evaluated (source : Array UInt8) (id : NodeId) : tree.Becomes (tree.evaluate source id)

/-- A request makes a tree, adds to it, or keeps what it has read of it. -/
theorem Request.serve_becomes (request : Request) (tree : Tree) :
    tree.Becomes (request.serve tree).2 := by
  unfold serve
  split
  · cases request with
    | tokenize dialect source =>
      rw [answer]
      cases Lexer.ofDialect dialect with
      | error error => exact .same
      | ok lexer => exact .made lexer source
    | resume dialect id source =>
      rw [answer]
      cases Lexer.ofDialect dialect with
      | error error => exact .same
      | ok lexer =>
        dsimp only
        obtain ⟨origin, branch, hbody, hkind, hresume⟩ | ⟨leaf, -, hresume⟩ | ⟨-, hresume⟩ :=
          lexer.resume_cases tree id source
        · rw [hresume]
          exact .extended lexer hbody hkind source
        all_goals
          rw [hresume]
          exact .same
    | text source id => exact .remembered source #[id]
    | evaluate source id => exact .evaluated source id
    | describe source id => exact .remembered source #[id]
    | dump source => exact .remembered source _
    | snapshot source => exact .remembered source _
    | depth | counts | diagnostics => exact .same
  · exact .same

/-- What a request makes of an ordered tree is ordered. -/
theorem Tree.Becomes.ordered {tree tree' : Tree} (hbecomes : tree.Becomes tree')
    {outline : Rose NodeId} (h : tree.Ordered outline) : ∃ outline, tree'.Ordered outline := by
  cases hbecomes with
  | same => exact ⟨outline, h⟩
  | made lexer source =>
    obtain ⟨made, hmade, -⟩ := lexer.tokenize_ordered source
    exact ⟨made, hmade⟩
  | extended lexer hbody hkind source => exact ⟨_, lexer.extend_ordered h hbody _ source⟩
  | remembered source ids => exact ⟨outline, h.rememberAll source ids⟩
  | evaluated source id => exact ⟨outline, (refreshed_evaluate source tree id).ordered h⟩

/-- **Every request leaves the tree ordered.** -/
theorem Request.serve_ordered (request : Request) {tree : Tree} {outline : Rose NodeId}
    (h : tree.Ordered outline) : ∃ outline, (request.serve tree).2.Ordered outline :=
  (request.serve_becomes tree).ordered h

/-! ## 4. No breach

One case for each request, and each is the lemma about the operation that it asks for. -/

namespace Guarded

variable {tree : Tree} {outline : Rose NodeId}

/-- A branch that can be resumed is there. -/
theorem lt_of_branchToResume {id : NodeId} {branch : Branch}
    (h : Lexer.branchToResume tree id = .ok branch) : id < tree.size := by
  unfold Lexer.branchToResume at h
  rw [Tree.kind?] at h
  cases hnode : tree.node? id with
  | none =>
    rw [hnode] at h
    cases h
  | some node => exact Tree.lt_size_of_node? hnode

/-- **A proper request is answered without a breach.** -/
theorem answer_eq (h : tree.Ordered outline) {request : Request}
    (hproper : request.isProper tree = true) : answer tree request = .ok (request.answer tree) := by
  have hnode : ∀ {id : NodeId}, decide (id < tree.size) = true →
      ∃ node, tree.node? id = some node := fun hid => Tree.exists_node (of_decide_eq_true hid)
  unfold answer Request.answer
  cases request with
  | tokenize dialect source =>
    -- the tree to begin with is a root alone
    have hmade : (lexer dialect).run = .ok (Lexer.ofDialect dialect) := lexer_sound dialect
    have hsingle := Tree.ordered_new source.filename source.start
    simp only [hmade, ok_bind]
    cases Lexer.ofDialect dialect with
    | error error => rfl
    | ok lexer =>
      simp only [extend_eq hsingle.closed hsingle.root_lt, ok_bind]
      rfl
  | resume dialect id source =>
    -- what is refused is refused before the tree is touched
    have hmade : (lexer dialect).run = .ok (Lexer.ofDialect dialect) := lexer_sound dialect
    simp only [hmade, ok_bind]
    cases Lexer.ofDialect dialect with
    | error error => rfl
    | ok lexer =>
      unfold Lexer.resume
      cases hbranch : Lexer.branchToResume tree id with
      | error error => rfl
      | ok branch =>
        simp only [extend_eq h.closed (lt_of_branchToResume hbranch), ok_bind]
        rfl
  | text source id =>
    obtain ⟨node, hfound⟩ := hnode hproper
    simp only [fetch_eq hfound, ok_bind, text?_eq, Tree.text?, hfound]
    rfl
  | evaluate source id =>
    -- the node is looked at again in the tree that has the value, which is as large
    have hid : id < tree.size := of_decide_eq_true hproper
    have hsize : id < (tree.evaluate source id).size := by simpa using hid
    obtain ⟨node, hfound⟩ := Tree.exists_node hsize
    simp only [evaluate_eq h.closed source hid, ok_bind, fetch_eq hfound, Tree.text?, hfound]
    rfl
  | depth id =>
    simp only [depth_eq h (of_decide_eq_true hproper), ok_bind]
    rfl
  | describe source id =>
    obtain ⟨node, hfound⟩ := hnode hproper
    simp only [fetch_eq hfound, ok_bind, description?_eq, Tree.description?, hfound]
    rfl
  | dump source =>
    simp only [dump_eq h, ok_bind]
    rfl
  | counts =>
    simp only [census_eq h, significant_eq, ok_bind]
    rfl
  | snapshot source =>
    simp only [snapshot?_eq h, ok_bind]
    rfl
  | diagnostics source filename =>
    let report : Report :=
      { path := filename, source := source, tree := tree, metrics := {}, census := .ofTree tree }
    have hall : diagnostics tree source filename = .ok report.diagnostics :=
      diagnostics_eq h report rfl
    simp only [hall, ok_bind]
    rfl

/-- Any request is answered without a breach. -/
theorem serve_eq (h : tree.Ordered outline) (request : Request) :
    serve tree request = .ok (request.serve tree) := by
  unfold serve Request.serve
  split
  · rename_i hproper
    exact answer_eq h hproper
  · rfl

/-- By induction on the requests: the tree that each leaves to the next is ordered. -/
theorem serveAll_ordered (requests : List Request) (h : tree.Ordered outline) :
    serveAll tree requests = .ok (Request.serveAll tree requests) := by
  induction requests generalizing tree outline with
  | nil => rfl
  | cons request rest ih =>
    obtain ⟨next, hnext⟩ := request.serve_ordered h
    rw [serveAll, serve_eq h, ok_bind, ih hnext]
    rfl

end Guarded

/-- **Nothing breaks.**  Whatever is asked of a tree, from its making on, every check that is made
on the way holds, and the answers are those that are given without checks. -/
theorem requests_safe (filename : Option String) (start : Position) (requests : List Request) :
    Guarded.serveAll (Tree.new filename start) requests =
      .ok (Request.serveAll (Tree.new filename start) requests) :=
  Guarded.serveAll_ordered requests (Tree.ordered_new filename start)

end StyleLex
