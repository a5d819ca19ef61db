/-
# What reading leaves behind

Texts are decoded when they are asked for, so the tree that requests leave depends on what was
read.  It does so in nothing that can be seen: as long as every request means the same source, a
text that is kept is the one that the span of its run covers, and a name has the value that it
would get if it were evaluated (`Tree.Faithful`).  So a request that only reads changes no more of
the tree than the texts that it keeps (`Tree.ReadAs.forget`), and a call adds the same whatever is
kept (`Request.forget_serve`).  Two sessions that make the same calls end with the same tree but
for the texts it keeps (`Request.forget_treeAfter`), and that tree says the same
(`Tree.Fresh.saysAs`).

The operations that read write into the tree, for a text is kept where it was decoded.  So "reading
changes nothing" is not true of the tree as a value; it is true of what can be learnt from it.  That
is made precise by forgetting: two trees that become equal when no text is kept are alike for this
purpose, and if both are fresh, everything that a client can ask has the same answer in both.

Every request is either a call of the lexer or reads only.  The first kind maps alike trees to alike
trees, and the second kind leaves a tree that is alike; with these two facts, a list of requests can
be compared with the list of its calls.
-/
import StyleLex.Proofs.Freshness
import StyleLex.Proofs.Values

namespace StyleLex

/-! ## 1. What a fresh tree says

The walks follow links, which are not forgotten, and what is read at each node is a text or needs
none. -/

namespace Tree

variable {tree : Tree} {source : Array UInt8}

/-- A walk meets the same nodes. -/
theorem visit_forget (tree : Tree) (n : Nat) (seen : Array NodeId) (rest : List NodeId) :
    tree.forget.visit n seen rest = tree.visit n seen rest := by
  induction n generalizing seen rest with
  | zero => rfl
  | succ n ih =>
    cases rest with
    | nil => rfl
    | cons id rest => rw [visit, visit, children_forget, ih]

/-- So those below a node are the same. -/
theorem preorder_forget (tree : Tree) (id : NodeId) :
    tree.forget.preorder id = tree.preorder id := by
  rw [preorder, preorder, visit_forget, size_forget]

/-- A walk along the thread meets the same nodes. -/
theorem followThread_forget (tree : Tree) (n : Nat) (seen : Array NodeId)
    (next : Option NodeId) :
    tree.forget.followThread n seen next = tree.followThread n seen next := by
  induction n generalizing seen next with
  | zero => rfl
  | succ n ih =>
    cases next with
    | none => rfl
    | some id => rw [followThread, followThread, next?_forget, ih]

/-- So the thread is the same. -/
theorem production_forget (tree : Tree) : tree.forget.production = tree.production := by
  rw [production, production, followThread_forget, size_forget]

/-- The way to the root is the same. -/
theorem climb_forget (tree : Tree) (n : Nat) (id : NodeId) :
    tree.forget.climb n id = tree.climb n id := by
  induction n generalizing id with
  | zero => rfl
  | succ n ih =>
    rw [climb, climb, parent?_forget]
    cases tree.parent? id with
    | none => rfl
    | some parent => exact congrArg (· + 1) (ih parent)

/-- So every node is as deep. -/
theorem depth_forget (tree : Tree) (id : NodeId) : tree.forget.depth id = tree.depth id := by
  rw [depth, depth, climb_forget, size_forget]

/-- A node of a fresh tree has the same description. -/
theorem Fresh.description?_forget (h : tree.Fresh source) (id : NodeId) :
    tree.forget.description? source id = tree.description? source id := by
  rw [description?, description?, node?_forget]
  cases hnode : tree.node? id with
  | none => rfl
  | some node => exact (h id node hnode).description?_forget

/-- **A fresh tree has the same dump** if no text is kept. -/
theorem Fresh.dump_forget (h : tree.Fresh source) : tree.forget.dump source = tree.dump source := by
  rw [dump, dump, preorder_forget]
  congr 1
  funext text id
  rw [node?_forget, depth_forget]
  cases hnode : tree.node? id with
  | none => rfl
  | some node =>
    have hline : dumpLine source (tree.depth id) node.forget =
        dumpLine source (tree.depth id) node := by
      rw [dumpLine, dumpLine, (h id node hnode).description?_forget]
      rfl
    rw [Option.map_some, Option.map_some, Option.map_some, hline]

/-- Each node of a snapshot is finished the same way. -/
theorem Fresh.finish_forget (h : tree.Fresh source) :
    Snapshot.finish tree.forget source = Snapshot.finish tree source := by
  funext finished id
  rw [Snapshot.finish, Snapshot.finish, node?_forget]
  cases hnode : tree.node? id with
  | none => rfl
  | some node =>
    have hsnapshot : Snapshot.ofNode source node.forget = Snapshot.ofNode source node := by
      funext children
      rw [Snapshot.ofNode, Snapshot.ofNode, (h id node hnode).description?_forget]
      rfl
    show Array.setIfInBounds _ id (some (Snapshot.ofNode source node.forget _)) = _
    rw [hsnapshot]
    rfl

/-- **A fresh tree has the same snapshot** if no text is kept. -/
theorem Fresh.ofTree?_forget (h : tree.Fresh source) :
    Snapshot.ofTree? tree.forget source = Snapshot.ofTree? tree source := by
  rw [Snapshot.ofTree?, Snapshot.ofTree?, production_forget, size_forget, h.finish_forget]

/-- Two trees say the same over a source: in their dumps, their snapshots, and node by node. -/
structure SaysAs (source : Array UInt8) (a b : Tree) : Prop where
  dump : a.dump source = b.dump source
  snapshot : Snapshot.ofTree? a source = Snapshot.ofTree? b source
  json : a.toJson source = b.toJson source
  text : ∀ id, a.text? source id = b.text? source id
  description : ∀ id, a.description? source id = b.description? source id

/-- **Two fresh trees that differ in nothing but the texts they keep say the same.** -/
theorem Fresh.saysAs {a b : Tree} (ha : a.Fresh source) (hb : b.Fresh source)
    (hsame : a.forget = b.forget) : a.SaysAs source b := by
  have hsnapshot : Snapshot.ofTree? a source = Snapshot.ofTree? b source := by
    rw [← ha.ofTree?_forget, ← hb.ofTree?_forget, hsame]
  constructor
  case dump => rw [← ha.dump_forget, ← hb.dump_forget, hsame]
  case snapshot => exact hsnapshot
  case json => rw [toJson, toJson, hsnapshot]
  case text => exact fun id => by rw [← ha.text?_forget, ← hb.text?_forget, hsame]
  case description =>
    exact fun id => by rw [← ha.description?_forget, ← hb.description?_forget, hsame]

/-! ## 2. Evaluating a name again

A client may ask for a name to be evaluated.  As every name has its value already, the request can
do no more than keep texts. -/

/-- A change that leaves the node as it is leaves the tree as it is. -/
theorem modify_of_fixed {id : NodeId} {change : Node → Node}
    (h : ∀ node, tree.node? id = some node → change node = node) :
    tree.modify id change = tree := by
  refine ext_node? (by cases tree; rfl) fun j => ?_
  rw [node?_modify]
  split
  · rename_i hid
    subst hid
    cases hnode : tree.node? id with
    | none => rfl
    | some node => rw [Option.map_some, h node hnode]
  · rfl

/-- **A name that has its value keeps it** when it is evaluated; no more than texts are kept. -/
theorem Valued.forget_evaluate (h : tree.Valued source) (id : NodeId) :
    (tree.evaluate source id).forget = tree.forget := by
  cases hname : tree.isName id with
  | false => rw [evaluate_of_not_isName hname]
  | true =>
    have hnamed : ∀ node, (named (tree.joinedText source id) node).forget =
        named (tree.joinedText source id) node.forget := by
      intro node
      obtain ⟨kind⟩ := node
      cases kind <;> rfl
    rw [evaluate_of_isName hname, forget_modify _ _ hnamed, forget_rememberAll]
    refine modify_of_fixed fun node hnode => ?_
    obtain ⟨branch, hkind, -⟩ := exists_of_isName hname
    rw [← kind?_forget, kind?, hnode, Option.map_some, Option.some.injEq] at hkind
    have hvalue : withValue (tree.joinedText source id) branch = branch := by
      refine h.value id branch ?_
      rw [← kind?_forget, kind?, hnode, Option.map_some, hkind]
    rw [named, hkind]
    dsimp only
    rw [hvalue, ← hkind]

/-- Names have their values, whatever is kept. -/
theorem Valued.of_forget {a b : Tree} (h : a.Valued source) (ha : a.Fresh source)
    (hb : b.Fresh source) (hsame : b.forget = a.forget) : b.Valued source := by
  have hisname : ∀ id, b.isName id = a.isName id := fun id => by
    rw [← isName_forget b, hsame, isName_forget]
  refine ⟨fun id branch hkind => ?_, fun id hname child hchild => ?_⟩
  · rw [← kind?_forget, hsame, kind?_forget] at hkind
    rw [← hb.joinedText_forget, hsame, ha.joinedText_forget]
    exact h.value id branch hkind
  · rw [← children_forget, hsame, children_forget] at hchild
    rw [hisname] at hname ⊢
    exact h.apart id hname child hchild

/-! ## 3. Requests that only read

`Faithful` collects what is known of a tree between two requests over one source, and is used as one
hypothesis from here on. -/

/-- What requests over one source leave: an ordered tree, whose texts are those of the source. -/
structure Faithful (source : Array UInt8) (tree : Tree) : Prop where
  ordered : ∃ outline, tree.Ordered outline
  names : tree.NamesRemember []
  fresh : tree.Fresh source
  valued : tree.Valued source

/-- A tree to begin with is faithful to any source. -/
theorem faithful_new (filename : Option String) (start : Position) (source : Array UInt8) :
    (Tree.new filename start).Faithful source :=
  ⟨⟨_, ordered_new filename start⟩, namesRemember_new filename start,
    fresh_new filename start source, valued_new filename start source⟩

/-- What a request that only reads can make of a tree. -/
inductive ReadAs (source : Array UInt8) (tree : Tree) : Tree → Prop where
  | same : tree.ReadAs source tree
  | remembered (ids : Array NodeId) : tree.ReadAs source (tree.rememberAll source ids)
  | evaluated (id : NodeId) : tree.ReadAs source (tree.evaluate source id)

variable {tree' : Tree}

/-- Reading is one of the things that requests can do. -/
theorem ReadAs.becomes (h : tree.ReadAs source tree') : tree.Becomes tree' := by
  cases h with
  | same => exact .same
  | remembered ids => exact .remembered source ids
  | evaluated id => exact .evaluated source id

/-- **Reading keeps texts, and changes nothing else.** -/
theorem ReadAs.forget (hread : tree.ReadAs source tree') (h : tree.Valued source) :
    tree'.forget = tree.forget := by
  cases hread with
  | same => rfl
  | remembered ids => exact forget_rememberAll tree source ids
  | evaluated id => exact h.forget_evaluate id

/-- What is read is kept as it is. -/
theorem ReadAs.fresh (hread : tree.ReadAs source tree') (h : tree.Fresh source) :
    tree'.Fresh source := by
  cases hread with
  | same => exact h
  | remembered ids => exact h.rememberAll ids
  | evaluated id => exact h.evaluate id

/-- So a tree that is read stays faithful. -/
theorem Faithful.read (h : tree.Faithful source) (hread : tree.ReadAs source tree') :
    tree'.Faithful source := by
  obtain ⟨outline, hordered⟩ := h.ordered
  have hfresh := hread.fresh h.fresh
  exact ⟨hread.becomes.ordered hordered, hread.becomes.namesRemember hordered h.names, hfresh,
    h.valued.of_forget h.fresh hfresh (hread.forget h.valued)⟩

/-- A call adds to a faithful tree, and leaves one. -/
theorem Faithful.extend (lexer : Lexer) {p : NodeId} {branch : Branch} {source : Source}
    (h : tree.Faithful source.bytes) (hkind : tree.kind? p = some (.branch branch)) :
    (lexer.extend tree p branch source).tree.Faithful source.bytes := by
  obtain ⟨outline, hordered⟩ := h.ordered
  rw [kind?_eq] at hkind
  obtain ⟨origin, horigin, hbranch⟩ := Option.map_eq_some_iff.mp hkind
  exact ⟨⟨_, lexer.extend_ordered hordered horigin branch source⟩,
    lexer.extend_namesRemember hordered horigin h.names branch source,
    lexer.extend_fresh hordered horigin hbranch h.fresh,
    lexer.extend_valued hordered h.names horigin hbranch h.valued⟩

end Tree

/-- The tree of a source is faithful to it. -/
theorem Lexer.tokenize_faithful (lexer : Lexer) (source : Source) :
    (lexer.tokenize source).tree.Faithful source.bytes :=
  (Tree.faithful_new source.filename source.start source.bytes).extend lexer rfl

/-! ## 4. Requests over one source

All requests of a session mean the same bytes here.  A session that changes its source in the middle
can make a text stale, and nothing is claimed of it. -/

namespace Request

/-- Does the request mean the given bytes, if it means any? -/
def On (bytes : Array UInt8) : Request → Prop
  | tokenize _ source | resume _ _ source => source.bytes = bytes
  | text source _ | evaluate source _ | describe source _ | dump source | snapshot source
  | diagnostics source _ => source = bytes
  | depth _ | counts => True

/-- Is the request a call of the lexer?  All others only read. -/
def isCall : Request → Bool
  | tokenize .. | resume .. => true
  | _ => false

variable {bytes : Array UInt8} {tree : Tree} {request : Request}

/-- A request that is no call only reads. -/
theorem serve_readAs (hon : request.On bytes) (hcall : request.isCall = false) (tree : Tree) :
    tree.ReadAs bytes (request.serve tree).2 := by
  unfold serve
  split
  · cases request with
    | tokenize => cases hcall
    | resume => cases hcall
    | text source id =>
      obtain rfl : source = bytes := hon
      exact .remembered #[id]
    | evaluate source id =>
      obtain rfl : source = bytes := hon
      exact .evaluated id
    | describe source id =>
      obtain rfl : source = bytes := hon
      exact .remembered #[id]
    | dump source =>
      obtain rfl : source = bytes := hon
      exact .remembered _
    | snapshot source =>
      obtain rfl : source = bytes := hon
      exact .remembered _
    | depth | counts | diagnostics => exact .same
  · exact .same

/-- A call makes a tree, or adds to the one that is there, or leaves it. -/
theorem faithful_serve (h : tree.Faithful bytes) (hon : request.On bytes) :
    (request.serve tree).2.Faithful bytes := by
  cases hcall : request.isCall with
  | false => exact h.read (serve_readAs hon hcall tree)
  | true =>
    cases request with
    | tokenize dialect source =>
      obtain rfl : source.bytes = bytes := hon
      rw [serve, if_pos (show isProper tree (.tokenize dialect source) = true from rfl), answer]
      cases Lexer.ofDialect dialect with
      | error error => exact h
      | ok lexer => exact lexer.tokenize_faithful source
    | resume dialect id source =>
      obtain rfl : source.bytes = bytes := hon
      rw [serve, if_pos (show isProper tree (.resume dialect id source) = true from rfl), answer]
      cases Lexer.ofDialect dialect with
      | error error => exact h
      | ok lexer =>
        dsimp only
        obtain ⟨origin, branch, hbody, hkind, hresume⟩ | ⟨leaf, -, hresume⟩ | ⟨-, hresume⟩ :=
          lexer.resume_cases tree id source
        · rw [hresume]
          refine h.extend lexer ?_
          rw [Tree.kind?_eq, hbody, Option.map_some, hkind]
        all_goals
          rw [hresume]
          exact h
    | _ => cases hcall

/-- **A call does the same to two trees that differ in nothing but the texts they keep.** -/
theorem forget_serve {a b : Tree} (ha : a.Faithful bytes) (hb : b.Faithful bytes)
    (hsame : a.forget = b.forget) (hon : request.On bytes) (hcall : request.isCall = true) :
    (request.serve a).2.forget = (request.serve b).2.forget := by
  have hserve : ∀ tree, request.serve tree = request.answer tree := by
    intro tree
    cases request with
    | tokenize => rfl
    | resume => rfl
    | _ => cases hcall
  rw [hserve, hserve]
  cases request with
  | tokenize dialect source =>
    rw [answer, answer]
    cases Lexer.ofDialect dialect with
    | error error => exact hsame
    | ok lexer => rfl
  | resume dialect id source =>
    obtain rfl : source.bytes = bytes := hon
    have hbranch : Lexer.branchToResume a id = Lexer.branchToResume b id := by
      rw [Lexer.branchToResume, Lexer.branchToResume, ← Tree.kind?_forget a, hsame,
        Tree.kind?_forget]
    rw [answer, answer]
    cases Lexer.ofDialect dialect with
    | error error => exact hsame
    | ok lexer =>
      simp only [Lexer.resume, hbranch]
      cases Lexer.branchToResume b id with
      | error error => exact hsame
      | ok branch => exact lexer.forget_extend ha.fresh hb.fresh hsame id branch
  | _ => cases hcall

/-- By induction on the requests. -/
theorem faithful_treeAfter (requests : List Request) (h : tree.Faithful bytes)
    (hon : ∀ request ∈ requests, request.On bytes) : (treeAfter tree requests).Faithful bytes := by
  induction requests generalizing tree with
  | nil => exact h
  | cons request rest ih =>
    exact ih (faithful_serve h (hon request List.mem_cons_self))
      fun request hin => hon request (List.mem_cons_of_mem _ hin)

/-- **What is only read can be left out.**  By induction on the requests: the two trees differ in
nothing but the texts that they keep. -/
theorem forget_treeAfter (requests : List Request) {a b : Tree} (ha : a.Faithful bytes)
    (hb : b.Faithful bytes) (hsame : a.forget = b.forget)
    (hon : ∀ request ∈ requests, request.On bytes) :
    (treeAfter a requests).forget = (treeAfter b (requests.filter isCall)).forget := by
  induction requests generalizing a b with
  | nil => exact hsame
  | cons request rest ih =>
    have hfirst := hon request List.mem_cons_self
    have hrest : ∀ request ∈ rest, request.On bytes :=
      fun request hin => hon request (List.mem_cons_of_mem _ hin)
    have hserved := faithful_serve ha hfirst
    cases hcall : request.isCall with
    | true =>
      -- both make the call, from trees that are alike
      rw [List.filter_cons_of_pos hcall]
      exact ih hserved (faithful_serve hb hfirst) (forget_serve ha hb hsame hfirst hcall) hrest
    | false =>
      -- only one of them reads, and is left with a tree that is alike
      rw [List.filter_cons_of_neg (by simp [hcall])]
      refine ih hserved hb ?_ hrest
      rw [(serve_readAs hfirst hcall a).forget ha.valued, hsame]

end Request

/-- **No text is stale.**  Whatever is asked of a tree over one source, a run that has kept a text
has kept the one that its span covers now; and any other requests with the same calls among them
leave a tree that says the same. -/
theorem texts_never_stale (filename : Option String) (start : Position) (bytes : Array UInt8)
    (requests : List Request) (hon : ∀ request ∈ requests, request.On bytes) :
    (∀ id node, (Request.treeAfter (Tree.new filename start) requests).node? id = some node →
      node.kind.isRun = true → ∀ text, node.cached = some text → text = node.span.read bytes) ∧
    ∀ others : List Request, (∀ request ∈ others, request.On bytes) →
      others.filter Request.isCall = requests.filter Request.isCall →
      (Request.treeAfter (Tree.new filename start) others).SaysAs bytes
        (Request.treeAfter (Tree.new filename start) requests) := by
  have hnew := Tree.faithful_new filename start bytes
  have hafter := Request.faithful_treeAfter requests hnew hon
  refine ⟨hafter.fresh, fun others hothers hcalls => ?_⟩
  refine (Request.faithful_treeAfter others hnew hothers).fresh.saysAs hafter.fresh ?_
  rw [Request.forget_treeAfter others hnew hnew rfl hothers, hcalls,
    Request.forget_treeAfter requests hnew hnew rfl hon]

/-- Two blanks, read in two calls: the text of the first may be read in between. -/
def blanksInTwoCalls (between : List Request) : List Request :=
  .tokenize Dialect.standard { bytes := #[0x20, 0x20], bound := some 1 } :: between ++
    [.resume Dialect.standard Tree.root
      { bytes := #[0x20, 0x20], start := ⟨⟨1, 1⟩, ⟨1, 1⟩, 0⟩ }]

/-- Reading the first blank before the second call makes no difference. -/
theorem blank_read_between_calls :
    (Request.treeAfter (Tree.new none Position.origin) (blanksInTwoCalls [])).SaysAs #[0x20, 0x20]
      (Request.treeAfter (Tree.new none Position.origin)
        (blanksInTwoCalls [.text #[0x20, 0x20] 1])) := by
  refine (texts_never_stale none Position.origin #[0x20, 0x20]
    (blanksInTwoCalls [.text #[0x20, 0x20] 1]) ?_).2 (blanksInTwoCalls []) ?_ rfl
  all_goals simp [blanksInTwoCalls, Request.On]

end StyleLex
