/-
# Names remember

The value of a name is made of the texts of the runs below it, and these texts are kept when it is
made.  So once a name is closed, every run below it has kept its text (`Tree.Remembers`), whatever
is added to the tree elsewhere: an assembly touches nodes that exist only to tie others to them
(`Assembly.Remembers.take`), and the branch that is added to is made anew in the end
(`Assembly.Remembers.finish`).

A name that is made anew then keeps nothing new of the runs that it had.  That is why resuming a
name changes no node below it.

The invariant is about names that are closed.  A name that is still open gets children of which the
last ones have not been read yet, and the same is true of the branch that a call adds to, even if it
was closed by an earlier call.  So the open branches are left out of it (`Tree.NamesRemember`), and
a branch that closes is taken off the list of exceptions just after its value was made.
-/
import StyleLex.Proofs.Safety

namespace StyleLex

/-! ## 1. Trees that remember

What a change has to keep so that the invariant survives it is little: runs keep the texts that they
have kept, no node becomes a run, and names that are not left out keep their children. -/

namespace Tree

/-- If the node is a run, has it kept its text? -/
def KeptText (tree : Tree) (id : NodeId) : Prop :=
  ∀ node, tree.node? id = some node → node.kind.isRun = true → node.cached.isSome = true

/-- Has every run right below the node kept its text? -/
def Remembers (tree : Tree) (id : NodeId) : Prop := ∀ child ∈ tree.children id, tree.KeptText child

/-- All names remember, but for those that are left out. -/
def NamesRemember (tree : Tree) (out : List NodeId) : Prop :=
  ∀ id ∉ out, tree.isName id = true → tree.Remembers id

variable {tree : Tree} {out : List NodeId}

/-- A change keeps what is remembered if it makes no run and drops no text, and if it leaves the
node what it is, unless the node is left out. -/
theorem NamesRemember.modify (h : tree.NamesRemember out) {id : NodeId} {change : Node → Node}
    (hrun : ∀ node, (change node).kind.isRun = true →
      node.kind.isRun = true ∧ (node.cached.isSome = true → (change node).cached.isSome = true))
    (hplace : id ∈ out ∨
      ∀ node, (change node).kind = node.kind ∧ (change node).children = node.children) :
    (tree.modify id change).NamesRemember out := by
  intro j hj hname
  have hsame : (tree.modify id change).kind? j = tree.kind? j ∧
      (tree.modify id change).children j = tree.children j := by
    rw [kind?, kind?, children, children, node?_modify]
    split
    · rename_i hid
      subst hid
      have hleft := hplace.resolve_left hj
      cases tree.node? id <;> simp [hleft]
    · exact ⟨rfl, rfl⟩
  rw [isName, hsame.1, ← isName] at hname
  intro child hchild node' hnode' hisrun
  rw [hsame.2] at hchild
  rw [node?_modify] at hnode'
  split at hnode'
  · obtain ⟨node, hnode, rfl⟩ := Option.map_eq_some_iff.mp hnode'
    obtain ⟨hwas, hkept⟩ := hrun node hisrun
    exact hkept (h j hj hname child hchild node hnode hwas)
  · exact h j hj hname child hchild node' hnode' hisrun

/-- Only what a node is counts, and what is below it. -/
theorem NamesRemember.modify_links (h : tree.NamesRemember out) {id : NodeId}
    {change : Node → Node} (hsame : ∀ node, (change node).kind = node.kind ∧
      (change node).cached = node.cached ∧ (change node).children = node.children) :
    (tree.modify id change).NamesRemember out := by
  refine h.modify (fun node => ?_) (Or.inr fun node => ⟨(hsame node).1, (hsame node).2.2⟩)
  obtain ⟨hkind, hcached, -⟩ := hsame node
  rw [hkind, hcached]
  exact fun hrun => ⟨hrun, fun hkept => hkept⟩

/-- Linking changes nothing of that. -/
theorem NamesRemember.linkAfter (h : tree.NamesRemember out) (anchor id : NodeId) :
    (tree.linkAfter anchor id).NamesRemember out := by
  have hspliced : ∀ following, (tree.splice anchor id following).NamesRemember out := by
    intro following
    unfold splice
    refine (h.modify_links ?_).modify_links ?_
    all_goals exact fun _ => ⟨rfl, rfl, rfl⟩
  cases hnext : tree.next? anchor with
  | none =>
    rw [linkAfter_of_none hnext]
    exact hspliced none
  | some further =>
    rw [linkAfter_of_some hnext]
    refine (hspliced _).modify_links ?_
    exact fun _ => ⟨rfl, rfl, rfl⟩

/-- Tying a node in adds to one branch. -/
theorem NamesRemember.tie (h : tree.NamesRemember out) {branch : NodeId} (hbranch : branch ∈ out)
    (tail id : NodeId) (stop : Position) :
    (tree.tie branch tail id stop).NamesRemember out := by
  unfold Tree.tie Tree.attach
  refine NamesRemember.linkAfter ?_ tail id
  refine ((h.modify_links ?_).modify_links ?_).modify ?_ (Or.inl hbranch)
  · exact fun _ => ⟨rfl, rfl, rfl⟩
  · exact fun _ => ⟨rfl, rfl, rfl⟩
  · exact fun node hrun => ⟨hrun, fun hkept => hkept⟩

/-- A node with nothing below it has nothing to remember. -/
theorem NamesRemember.add (h : tree.NamesRemember out) (hclosed : tree.Closed) {node : Node}
    (hnone : node.children = #[]) : (tree.add node).NamesRemember out := by
  intro j hj hname child hchild found hfound
  by_cases hnew : j = tree.size
  · simp [children, node?_add, hnew, hnone] at hchild
  · have hold : (tree.add node).node? j = tree.node? j := by rw [node?_add, if_neg hnew]
    rw [isName, kind?, hold, ← kind?, ← isName] at hname
    rw [children, hold, ← children] at hchild
    rw [node?_add_of_lt node (hclosed.children_lt hchild)] at hfound
    exact h j hj hname child hchild found hfound

/-- Keeping one more text takes none away. -/
theorem NamesRemember.remember (h : tree.NamesRemember out) (source : Array UInt8)
    (id : NodeId) : (tree.remember source id).NamesRemember out := by
  refine h.modify ?_ ?_
  · intro node hrun
    by_cases hwas : node.kind.isRun = true
    · simp [hwas, text?_of_isRun hwas]
    · simp [hwas] at hrun
  · refine Or.inr fun node => ?_
    split <;> exact ⟨rfl, rfl⟩

/-- Nor does keeping several. -/
theorem NamesRemember.rememberAll (h : tree.NamesRemember out) (source : Array UInt8)
    (ids : Array NodeId) : (tree.rememberAll source ids).NamesRemember out := by
  unfold Tree.rememberAll
  refine Array.foldl_induction (motive := fun _ (t : Tree) => t.NamesRemember out) h ?_
  intro i t ih
  exact ih.remember source ids[i]

/-- A name that is made anew is left out; the texts that it is made of are kept. -/
theorem NamesRemember.evaluate (h : tree.NamesRemember out) (source : Array UInt8) {id : NodeId}
    (hid : id ∈ out) : (tree.evaluate source id).NamesRemember out := by
  cases hname : tree.isName id with
  | false =>
    rw [evaluate_of_not_isName hname]
    exact h
  | true =>
    rw [evaluate_of_isName hname]
    refine (h.rememberAll source _).modify ?_ (Or.inl hid)
    intro node
    unfold named
    split
    · simp [Kind.isRun]
    · exact fun hrun => ⟨hrun, fun hkept => hkept⟩

/-! ## 2. Names made anew

A value is made in two steps: the texts of the children are kept, then joined.  The first step is
what the name remembers by, and on children that have kept their texts it does nothing. -/

/-- A text that was asked for is kept. -/
theorem keptText_remember_self (tree : Tree) (source : Array UInt8) (id : NodeId) :
    (tree.remember source id).KeptText id := by
  intro node hnode hrun
  rw [remember, node?_modify, if_pos rfl] at hnode
  obtain ⟨before, -, rfl⟩ := Option.map_eq_some_iff.mp hnode
  by_cases hwas : before.kind.isRun = true
  · simp [hwas, text?_of_isRun hwas]
  · simp [hwas] at hrun

/-- One that is kept stays kept. -/
theorem KeptText.remember {id : NodeId} (h : tree.KeptText id) (source : Array UInt8)
    (j : NodeId) : (tree.remember source j).KeptText id := by
  by_cases hj : j = id
  · subst hj
    exact keptText_remember_self tree source j
  · intro node hnode
    rw [Tree.remember, node?_modify, if_neg hj] at hnode
    exact h node hnode

/-- A run that has kept its text keeps nothing new. -/
theorem KeptText.body?_remember {id : NodeId} (h : tree.KeptText id) (source : Array UInt8)
    (j : NodeId) : (tree.remember source j).body? id = tree.body? id := by
  rw [Tree.body?_remember]
  split
  · cases hnode : tree.node? id with
    | none => simp [body?, hnode]
    | some node =>
      rw [body?_of_node? hnode, Option.map_some]
      by_cases hrun : node.body.kind.isRun = true
      · obtain ⟨text, htext⟩ := Option.isSome_iff_exists.mp (h node hnode hrun)
        have hcached : node.body.cached = some text := htext
        rw [if_pos hrun, text?_of_isRun hrun, hcached, Option.getD_some, ← hcached]
      · rw [if_neg hrun]
  · rfl

/-- However often it is asked for. -/
theorem KeptText.body?_rememberAll {id : NodeId} (h : tree.KeptText id) (source : Array UInt8)
    (ids : Array NodeId) : (tree.rememberAll source ids).body? id = tree.body? id := by
  unfold Tree.rememberAll
  refine (Array.foldl_induction
    (motive := fun _ (t : Tree) => t.KeptText id ∧ t.body? id = tree.body? id) ⟨h, rfl⟩ ?_).2
  rintro i t ⟨hkept, hbody⟩
  exact ⟨hkept.remember source ids[i], (hkept.body?_remember source ids[i]).trans hbody⟩

/-- A node that is the same has kept what it had. -/
theorem KeptText.of_body?_eq {tree' : Tree} {id : NodeId} (h : tree.KeptText id)
    (heq : tree'.body? id = tree.body? id) : tree'.KeptText id := by
  intro node' hnode' hrun
  rw [body?_of_node? hnode'] at heq
  obtain ⟨node, hnode, hbody⟩ := exists_of_body? heq.symm
  have hwas : node.body.kind.isRun = true := by
    rw [hbody]
    exact hrun
  have hkept : node.body.cached.isSome = true := h node hnode hwas
  rw [hbody] at hkept
  exact hkept

/-- **Making a name anew changes no other node**, if the runs that it is made of have kept their
texts. -/
theorem body?_evaluate_of_keptText (source : Array UInt8) {id j : NodeId} (hne : id ≠ j)
    (h : tree.isName id = true → j ∈ tree.children id → tree.KeptText j) :
    (tree.evaluate source id).body? j = tree.body? j := by
  by_cases hin : j ∈ tree.children id
  · cases hname : tree.isName id with
    | false => rw [evaluate_of_not_isName hname]
    | true =>
      rw [evaluate_of_isName hname, body?_modify _ _ _ (body_named _), if_neg hne,
        (h hname hin).body?_rememberAll source]
  · exact body?_evaluate_of_notMem hne hin

/-- All that are asked for keep their texts, whatever is asked for behind them. -/
theorem keptText_rememberAll_of_mem (source : Array UInt8) {ids : Array NodeId} {id : NodeId}
    (hin : id ∈ ids) : (tree.rememberAll source ids).KeptText id := by
  have hlater : ∀ (later : List NodeId) (t : Tree), t.KeptText id →
      (later.foldl (fun t id => t.remember source id) t).KeptText id := by
    intro later
    induction later with
    | nil => exact fun _ h => h
    | cons next later ih => exact fun t h => ih _ (h.remember source next)
  obtain ⟨before, after, hids⟩ := List.append_of_mem (Array.mem_toList_iff.mpr hin)
  rw [Tree.rememberAll, ← Array.foldl_toList, hids, List.foldl_append, List.foldl_cons]
  exact hlater after _ (keptText_remember_self _ source id)

/-- **A name that is made anew remembers.** -/
theorem remembers_evaluate (source : Array UInt8) {id : NodeId} (hname : tree.isName id = true) :
    (tree.evaluate source id).Remembers id := by
  have hnamed : ∀ (value : String) (node : Node), (named value node).kind.isRun = true →
      named value node = node := by
    intro value node
    unfold named
    split
    · exact fun hrun => by simp [Kind.isRun] at hrun
    · exact fun _ => rfl
  have hid : id < tree.size := by
    cases hbody : tree.body? id with
    | none => simp [isName, kind?_eq, hbody] at hname
    | some node => exact lt_size_of_body? hbody
  intro child hin node' hnode' hrun
  rw [(refreshed_evaluate source tree id).children_eq hid] at hin
  rw [evaluate_of_isName hname, node?_modify] at hnode'
  have hkept : (tree.rememberAll source (tree.children id)).KeptText child :=
    keptText_rememberAll_of_mem source hin
  split at hnode'
  · obtain ⟨node, hnode, rfl⟩ := Option.map_eq_some_iff.mp hnode'
    have hsame := hnamed _ node hrun
    rw [hsame] at hrun ⊢
    exact hkept node hnode hrun
  · exact hkept node' hnode' hrun

/-- A name that is made anew need not be left out any more. -/
theorem NamesRemember.evaluated {id : NodeId} (h : tree.NamesRemember (id :: out))
    (source : Array UInt8) : (tree.evaluate source id).NamesRemember out := by
  have hothers := h.evaluate source (List.mem_cons_self)
  intro j hj hname
  by_cases hid : j = id
  · subst hid
    cases hwas : tree.isName j with
    | true => exact remembers_evaluate source hwas
    | false =>
      rw [evaluate_of_not_isName hwas, hwas] at hname
      cases hname
  · exact hothers j (by simp [hid, hj]) hname

/-- A name that is closed is made anew, so it need not be left out either. -/
theorem NamesRemember.closed {id : NodeId} (h : tree.NamesRemember (id :: out))
    (source : Array UInt8) (branch : Branch) (valid : Bool) :
    (tree.close source id branch valid).NamesRemember out := by
  refine NamesRemember.evaluated ?_ source
  exact h.modify (fun node hrun => by simp [Node.become, Kind.isRun] at hrun)
    (Or.inl List.mem_cons_self)

end Tree

/-! ## 3. Assemblies

The exceptions are the open branches of the assembly, the innermost one first. -/

namespace Assembly

variable {assembly : Assembly}

/-- Every name that is closed remembers. -/
def Remembers (assembly : Assembly) : Prop :=
  assembly.tree.NamesRemember (assembly.branch :: assembly.outer)

/-- The pending node becomes a child of an open branch. -/
theorem Remembers.settle (h : assembly.Remembers) (stop : Position) :
    (assembly.settle stop).Remembers := by
  cases hpending : assembly.pending with
  | none =>
    rw [settle_of_none hpending]
    exact h
  | some id =>
    rw [settle_of_some hpending]
    exact h.tie List.mem_cons_self assembly.tail id stop

/-- **Every mark lets the names remember**: one that is closed has just been made anew. -/
theorem Remembers.take (h : assembly.Remembers) (hplaced : assembly.Placed)
    (source : Array UInt8) (mark : Mark) : (assembly.take source mark).Remembers := by
  cases mark with
  | leaf leaf valid start =>
    exact (h.settle start).add (hplaced.settle start).closed rfl
  | opened branch start =>
    intro id hid hname
    have hnone : (Draft.opening branch start).children = #[] := rfl
    have hadded := (h.settle start).add (hplaced.settle start).closed hnone
    exact hadded id (fun hin => hid (List.mem_cons_of_mem _ hin)) hname
  | closed branch valid stop =>
    have hclosed := (h.settle stop).closed source branch valid
    rw [Assembly.take, complete_eq]
    generalize (assembly.settle stop).outer = outer at hclosed ⊢
    cases outer with
    | nil => exact fun id _ => hclosed id List.not_mem_nil
    | cons around further => exact hclosed

/-- By induction on the marks. -/
theorem Remembers.takeAll (source : Array UInt8) (marks : List Mark) {assembly : Assembly}
    (h : assembly.Remembers) (hplaced : assembly.Placed) :
    (assembly.takeAll source marks).Remembers := by
  induction marks generalizing assembly with
  | nil => exact h
  | cons mark rest ih => exact ih (h.take hplaced source mark) (hplaced.take source mark)

/-- Tying a node in opens and closes nothing. -/
theorem outer_settle (assembly : Assembly) (stop : Position) :
    (assembly.settle stop).outer = assembly.outer := by
  cases hpending : assembly.pending with
  | none => rw [settle_of_none hpending]
  | some id => rw [settle_of_some hpending]

/-- **In the end all names remember**, the branch that was added to with them. -/
theorem Remembers.finish (h : assembly.Remembers) (houter : assembly.outer = [])
    (source : Array UInt8) (branch : Branch) (stop : Position) :
    (assembly.finish source branch stop).tree.NamesRemember [] := by
  have hsettled := h.settle stop
  rw [Remembers, outer_settle, houter] at hsettled
  have hended : ∀ {tree : Tree}, tree.NamesRemember [] → ∀ id,
      (tree.modify id fun node =>
        { node with span := { node.span with stop := stop } }).NamesRemember [] :=
    fun htree id => htree.modify_links fun _ => ⟨rfl, rfl, rfl⟩
  cases branch with
  | hash hash => exact hended (hsettled.closed source (.hash hash.settle) hash.settle.isValid) _
  | _ => exact hended (hsettled.evaluated source) _

end Assembly

/-! ## 4. What was there before

Seen from outside, a call changes one node that was there.  That its children are as they were has
to be shown, as making the value of a name anew could have written to them. -/

namespace Realizes

variable {source : Array UInt8} {site : Site} {assembly : Assembly} {draft : Draft}

/-- **The end of an assembly changes no node that was there before**, but for the branch that was
added to.  The children of a name have kept their texts by then. -/
theorem finish_old (h : Realizes source site assembly draft) (hsite : site.Sound)
    (hnames : site.given.NamesRemember []) (houter : draft.outer = []) {began final : Branch}
    (hkind : draft.frame.origin.kind = .branch began) (halike : began.Alike final)
    (stop : Position) {id : NodeId} (hold : id < site.given.size) (hne : id ≠ site.base) :
    (assembly.finish source final stop).tree.body? id = site.given.body? id := by
  have hs := h.settle hsite stop
  have hclear : (draft.settle stop).outer = [] := by rw [Draft.outer_settle, houter]
  obtain ⟨-, hbranch, hself, horigin⟩ := hs.outermost hclear
  have hsettled : (draft.settle stop).frame.origin.kind = .branch began := by
    rw [Draft.origin_frame_settle, hkind]
  have hsame := hs.old id hold hne
  have hmarked : ∀ j, site.base ≠ j →
      ((assembly.settle stop).tree.modify site.base (Node.mark final)).body? j =
        (assembly.settle stop).tree.body? j := fun j hj => by
    rw [Tree.body?_modify _ _ _ (Node.body_mark final), if_neg hj]
  have hbase : ((assembly.settle stop).tree.modify site.base (Node.mark final)).body? site.base =
      some ((draft.settle stop).frame.node.mark final) := by
    rw [Tree.body?_modify _ _ _ (Node.body_mark final), if_pos rfl, hself, Option.map_some]
  rw [assembly.finish_eq source final stop, hbranch, Tree.body?_stop, if_neg (Ne.symm hne),
    Tree.body?_evaluate_of_keptText source (Ne.symm hne), hmarked id (Ne.symm hne), hsame]
  intro hname hin
  -- a node to which something could have been written was a run below the branch before, and kept
  -- its text
  refine Tree.KeptText.of_body?_eq (hnames site.base List.not_mem_nil ?_ id ?_)
    ((hmarked id (Ne.symm hne)).trans hsame)
  · -- it was a name before, for a scan makes no name of a branch that is none
    have hnode : (draft.settle stop).frame.node.kind = .branch began := hsettled
    obtain ⟨branch, hkind', hsort⟩ := Node.exists_kind_mark hnode halike
    rw [Tree.isName_eq (by rw [Tree.kind?_eq, hbase, Option.map_some, hkind'])] at hname
    rw [Tree.isName_eq (by rw [Tree.kind?_eq, horigin, Option.map_some, hsettled]), ← hsort, hname]
  · -- and the node was below it before, for what is below it now was there or is new
    rw [Tree.children_eq, hbase, Option.map_some, Node.children_mark] at hin
    rw [Tree.children_eq, horigin]
    rcases Array.mem_append.mp hin with hin | hin
    · exact hin
    · obtain ⟨item, hitem, rfl⟩ := List.mem_map.mp (List.mem_toArray.mp hin)
      refine absurd ?_ (hs.old_notMem hold hne)
      exact Draft.done_mem_ids List.mem_cons_self (Item.id_mem_ids hitem)

end Realizes

/-! ## 5. Requests

A tree to begin with has no names; after that, it is calls that make them. -/

/-- A new tree has no names. -/
theorem Tree.namesRemember_new (filename : Option String) (start : Position) :
    (Tree.new filename start).NamesRemember [] := by
  intro id _ hname
  cases id <;> simp [isName, kind?, node?, new] at hname

namespace Lexer

variable {tree : Tree} {outline : Rose NodeId} {p : NodeId} {origin : Node}

/-- A call lets all names remember. -/
theorem extend_namesRemember (lexer : Lexer) (h : tree.Ordered outline)
    (horigin : tree.body? p = some origin) (hnames : tree.NamesRemember []) (branch : Branch)
    (source : Source) : (lexer.extend tree p branch source).tree.NamesRemember [] := by
  obtain ⟨site, rfl, rfl, -, hrealizes, houter⟩ := lexer.extend_realizes h horigin branch source
  have hbegun : (Assembly.into site.given site.base).Remembers :=
    fun id _ => hnames id List.not_mem_nil
  have hplaced := Assembly.Placed.into h.closed (Tree.lt_size_of_body? horigin)
  refine (hbegun.takeAll source.bytes _ hplaced).finish ?_ _ _ _
  rw [hrealizes.outer, houter]
  rfl

end Lexer

/-- What a request makes of a tree has names that remember. -/
theorem Tree.Becomes.namesRemember {tree tree' : Tree} (hbecomes : tree.Becomes tree')
    {outline : Rose NodeId} (h : tree.Ordered outline) (hnames : tree.NamesRemember []) :
    tree'.NamesRemember [] := by
  cases hbecomes with
  | same => exact hnames
  | made lexer source =>
    exact lexer.extend_namesRemember (Tree.ordered_new source.filename source.start)
      (Lexer.body?_new source) (Tree.namesRemember_new source.filename source.start) .root source
  | extended lexer hbody hkind source =>
    exact lexer.extend_namesRemember h hbody hnames _ source
  | remembered source ids => exact hnames.rememberAll source ids
  | evaluated source id =>
    have hothers : tree.NamesRemember [id] := fun j _ => hnames j List.not_mem_nil
    exact hothers.evaluated source

/-- **After any requests all names remember**, and the tree is ordered. -/
theorem Request.treeAfter_namesRemember (requests : List Request) {tree : Tree}
    {outline : Rose NodeId} (h : tree.Ordered outline) (hnames : tree.NamesRemember []) :
    ∃ outline, (treeAfter tree requests).Ordered outline ∧
      (treeAfter tree requests).NamesRemember [] := by
  induction requests generalizing tree outline with
  | nil => exact ⟨outline, h, hnames⟩
  | cons request rest ih =>
    have hbecomes := request.serve_becomes tree
    obtain ⟨next, hnext⟩ := hbecomes.ordered h
    exact ih hnext (hbecomes.namesRemember h hnames)

end StyleLex
