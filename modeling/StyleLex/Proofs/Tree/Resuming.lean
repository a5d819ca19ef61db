/-
# A root that is added to again

A call that stopped half way has left its root ending there.  A call that goes on in the root finds
it so, and sets its end anew.  In between, nothing looks at where the root ends: what an assembly does
to a tree, it does to the tree with its root ending elsewhere (`Shifted.takeAll`).  So two calls one
after the other leave the tree that one call leaves (`Assembly.finish_resumed`).

The first of the two calls ends the root where it stopped, completes the child that was waiting, and
is over; the second one starts an assembly of its own.  Compared with one call that takes all the
marks, three things are different in between: the end of the root, the anchor that the second call
computes for itself, and the child that was completed early.  The end of the root is overwritten by
the second call (`endRoot_endRoot`).  The anchor is the last child of the root, which is the node
that was put on the thread last (`Realizes.threadAnchor_eq`).  And the child was completed at the
place where the next mark stands, so the mark would have completed it there (`finish_settle`).

Only the root is dealt with here: it has no value and no text, so nothing that an assembly reads can
depend on its end.
-/
import StyleLex.Proofs.Tree.Grafting

namespace StyleLex

/-! ## 1. Where the root ends

Every question about a node that is not about its end has the same answer in both trees, and
`of_endRoot` is the one reason for all of them. -/

namespace Tree

/-- The node, ending at `stop`. -/
def ended (stop : Position) (node : Node) : Node :=
  { node with span := { node.span with stop := stop } }

/-- The tree, its root ending at `stop`. -/
def endRoot (tree : Tree) (stop : Position) : Tree := tree.modify root (ended stop)

variable {tree : Tree} {stop : Position} {id : NodeId}

/-- Setting the end of the root is seen at the root only. -/
theorem node?_endRoot (tree : Tree) (stop : Position) (id : NodeId) :
    (tree.endRoot stop).node? id =
      if root = id then (tree.node? id).map (ended stop) else tree.node? id :=
  node?_modify _ _ _ _

/-- What says nothing about the end of a node is the same. -/
theorem of_endRoot {α : Type} (tree : Tree) (stop : Position) (id : NodeId) {field : Node → α}
    (h : ∀ node, field (ended stop node) = field node) :
    ((tree.endRoot stop).node? id).map field = (tree.node? id).map field := by
  rw [node?_endRoot]
  split
  · rw [Option.map_map]
    exact congrArg (Option.map · _) (funext h)
  · rfl

theorem kind?_endRoot (tree : Tree) (stop : Position) (id : NodeId) :
    (tree.endRoot stop).kind? id = tree.kind? id :=
  of_endRoot tree stop id fun _ => rfl

theorem children_endRoot (tree : Tree) (stop : Position) (id : NodeId) :
    (tree.endRoot stop).children id = tree.children id :=
  congrArg (Option.getD · #[]) (of_endRoot tree stop id fun _ => rfl)

theorem next?_endRoot (tree : Tree) (stop : Position) (id : NodeId) :
    (tree.endRoot stop).next? id = tree.next? id := by
  rw [next?, next?, node?_endRoot]
  split
  · cases tree.node? id <;> rfl
  · rfl

theorem isName_endRoot (tree : Tree) (stop : Position) (id : NodeId) :
    (tree.endRoot stop).isName id = tree.isName id := by
  rw [isName, isName, kind?_endRoot]

/-! ## 2. Changes with another end of the root

Each change of a tree commutes with setting the end of the root, if the change is about another node
or leaves ends alone.  There is one lemma for each operation of an assembly, and none of them looks
at more than the field that it sets. -/

/-- A change of another node, or one that does not look at the end, is the same. -/
theorem modify_endRoot (change : Node → Node)
    (h : id ≠ root ∨
      ∀ node, tree.node? root = some node → change (ended stop node) = ended stop (change node)) :
    (tree.endRoot stop).modify id change = (tree.modify id change).endRoot stop := by
  refine ext_node? rfl fun j => ?_
  rw [node?_modify, node?_endRoot, node?_endRoot, node?_modify]
  by_cases hroot : root = j
  · subst hroot
    rw [if_pos rfl, if_pos rfl]
    by_cases hid : id = root
    · rw [if_pos hid, if_pos hid]
      cases hnode : tree.node? root with
      | none => rfl
      | some node => exact congrArg some ((h.resolve_left (not_not_intro hid)) node hnode)
    · rw [if_neg hid, if_neg hid]
  · rw [if_neg hroot, if_neg hroot]

theorem modify_endRoot_of_comm {change : Node → Node}
    (h : ∀ node, change (ended stop node) = ended stop (change node)) (tree : Tree) (id : NodeId) :
    (tree.endRoot stop).modify id change = (tree.modify id change).endRoot stop :=
  modify_endRoot change (Or.inr fun node _ => h node)

/-- A new node has a new id, so it is not the root. -/
theorem add_endRoot (hsize : root < tree.size) (node : Node) :
    (tree.endRoot stop).add node = (tree.add node).endRoot stop := by
  refine ext_node? rfl fun j => ?_
  have hsize' : (tree.endRoot stop).size = tree.size := size_modify _ _ _
  rw [node?_add, node?_endRoot, node?_endRoot, node?_add, hsize']
  by_cases hroot : root = j
  · subst hroot
    rw [if_neg (Nat.ne_of_lt hsize), if_neg (Nat.ne_of_lt hsize)]
  · rw [if_neg hroot, if_neg hroot]

theorem attach_endRoot (tree : Tree) (stop : Position) (parent child : NodeId) :
    (tree.endRoot stop).attach parent child = (tree.attach parent child).endRoot stop := by
  rw [attach, attach, modify_endRoot_of_comm (by intro node; rfl),
    modify_endRoot_of_comm (by intro node; rfl)]

theorem linkAfter_endRoot (tree : Tree) (stop : Position) (anchor id : NodeId) :
    (tree.endRoot stop).linkAfter anchor id = (tree.linkAfter anchor id).endRoot stop := by
  have hsplice : ∀ following, (tree.endRoot stop).splice anchor id following =
      (tree.splice anchor id following).endRoot stop := by
    intro following
    rw [splice, splice, modify_endRoot_of_comm (by intro node; rfl),
      modify_endRoot_of_comm (by intro node; rfl)]
  have hnext := next?_endRoot tree stop anchor
  cases hanchor : tree.next? anchor with
  | none =>
    rw [hanchor] at hnext
    rw [linkAfter_of_none hnext, linkAfter_of_none hanchor, hsplice]
  | some further =>
    rw [hanchor] at hnext
    rw [linkAfter_of_some hnext, linkAfter_of_some hanchor, hsplice,
      modify_endRoot_of_comm (by intro node; rfl)]

/-- Tying a node in sets an end too, but not that of the root. -/
theorem tie_endRoot (tree : Tree) (stop : Position) (branch tail : NodeId) (hid : id ≠ root)
    (stop' : Position) :
    (tree.endRoot stop).tie branch tail id stop' =
      (tree.tie branch tail id stop').endRoot stop := by
  rw [tie, tie, modify_endRoot _ (Or.inl hid), attach_endRoot, linkAfter_endRoot]

/-! ## 3. Texts

A text is read from the span of a node, so here it matters that a root has none: its kind is neither
a run nor a name.  The hypothesis is carried along, for reading changes trees. -/

/-- The root of the tree is a root. -/
def RootedAt (tree : Tree) : Prop := tree.kind? root = some (.branch .root)

/-- The node at the root is a root. -/
theorem RootedAt.kind (h : tree.RootedAt) {node : Node} (hnode : tree.node? root = some node) :
    node.kind = .branch .root := by
  rw [RootedAt, kind?, hnode] at h
  exact Option.some.inj h

/-- A root has no text. -/
theorem text?_endRoot (h : tree.RootedAt) (source : Array UInt8) (stop : Position) (id : NodeId) :
    (tree.endRoot stop).text? source id = tree.text? source id := by
  rw [text?, text?, node?_endRoot]
  split
  · rename_i hid
    subst hid
    cases hnode : tree.node? root with
    | none => rfl
    | some node =>
      have hkind := h.kind hnode
      have hkind' : (ended stop node).kind = .branch .root := hkind
      rw [Option.map_some, Option.bind_some, Option.bind_some, Node.text?, Node.text?, hkind,
        hkind']
      rfl
  · rfl

theorem joinedText_endRoot (h : tree.RootedAt) (source : Array UInt8) (stop : Position)
    (id : NodeId) : (tree.endRoot stop).joinedText source id = tree.joinedText source id := by
  rw [joinedText, joinedText, children_endRoot]
  have hstep : (fun text child => text ++ ((tree.endRoot stop).text? source child).getD "") =
      fun text child => text ++ (tree.text? source child).getD "" := by
    funext text child
    rw [text?_endRoot h]
  rw [hstep]

/-- No change of another node unmakes the root, and none of the root that keeps its kind. -/
theorem rootedAt_modify (h : tree.RootedAt) {change : Node → Node}
    (hchange : id ≠ root ∨ ∀ node, (change node).kind = node.kind) :
    (tree.modify id change).RootedAt := by
  rw [RootedAt, kind?, node?_modify]
  split
  · rename_i hid
    rw [Option.map_map]
    rw [RootedAt, kind?] at h
    rw [← h]
    exact congrArg (Option.map · _)
      (funext fun node => (hchange.resolve_left (not_not_intro hid)) node)
  · exact h

theorem remember_endRoot (h : tree.RootedAt) (source : Array UInt8) (stop : Position)
    (id : NodeId) :
    (tree.endRoot stop).remember source id = (tree.remember source id).endRoot stop := by
  refine modify_endRoot _ (Or.inr fun node hnode => ?_)
  have hkind := h.kind hnode
  have hkind' : (ended stop node).kind = .branch .root := hkind
  rw [hkind, hkind']
  rfl

theorem rootedAt_remember (h : tree.RootedAt) (source : Array UInt8) (id : NodeId) :
    (tree.remember source id).RootedAt := by
  refine rootedAt_modify h (Or.inr fun node => ?_)
  split <;> rfl

/-- Reading several texts is reading them one by one, each in a tree that still has a root. -/
theorem rememberAll_endRoot (source : Array UInt8) (stop : Position) (ids : Array NodeId) :
    ∀ {tree : Tree}, tree.RootedAt →
      (tree.endRoot stop).rememberAll source ids = (tree.rememberAll source ids).endRoot stop := by
  intro tree h
  have hfold : ∀ (ids : List NodeId) {tree : Tree}, tree.RootedAt →
      ids.foldl (fun tree id => tree.remember source id) (tree.endRoot stop) =
        (ids.foldl (fun tree id => tree.remember source id) tree).endRoot stop := by
    intro ids
    induction ids with
    | nil =>
      intro tree _
      rfl
    | cons id rest ih =>
      intro tree h
      rw [List.foldl_cons, List.foldl_cons, remember_endRoot h, ih (rootedAt_remember h source id)]
  rw [rememberAll, rememberAll, ← Array.foldl_toList, ← Array.foldl_toList]
  exact hfold ids.toList h

theorem evaluate_endRoot (h : tree.RootedAt) (source : Array UInt8) (stop : Position)
    (id : NodeId) :
    (tree.endRoot stop).evaluate source id = (tree.evaluate source id).endRoot stop := by
  have hname := isName_endRoot tree stop id
  cases hcase : tree.isName id with
  | false =>
    rw [hcase] at hname
    rw [evaluate_of_not_isName hcase, evaluate_of_not_isName hname]
  | true =>
    rw [hcase] at hname
    rw [evaluate_of_isName hcase, evaluate_of_isName hname, children_endRoot,
      joinedText_endRoot h, rememberAll_endRoot source stop _ h]
    refine modify_endRoot_of_comm (fun node => ?_) _ _
    obtain ⟨kind, span, valid, parent, previous, next, children, cached⟩ := node
    cases kind <;> rfl

/-- Closing another branch is the same. -/
theorem close_endRoot (h : tree.RootedAt) (source : Array UInt8) (stop : Position)
    (hid : id ≠ root) (branch : Branch) (valid : Bool) :
    (tree.endRoot stop).close source id branch valid =
      (tree.close source id branch valid).endRoot stop := by
  rw [close, close, modify_endRoot _ (Or.inl hid),
    evaluate_endRoot (rootedAt_modify h (Or.inl hid))]

/-- The end that is set last counts. -/
theorem endRoot_endRoot (tree : Tree) (stop stop' : Position) :
    (tree.endRoot stop).endRoot stop' = tree.endRoot stop' := by
  refine ext_node? rfl fun j => ?_
  rw [node?_endRoot, node?_endRoot, node?_endRoot]
  split
  · rw [Option.map_map]
    rfl
  · rfl

end Tree

/-! ## 4. Assemblies

What remains is to follow the two assemblies through the marks.  They differ in their trees alone,
and the hypotheses of the lemmas above are met because the root is the branch at the bottom of the
stack: it is never pending, and no mark closes it. -/

/-- The branch that is added to is the root of a tree, and what is below it is on the thread
before. -/
structure Site.Top (site : Site) : Prop where
  base : site.base = Tree.root
  kind : site.given.RootedAt
  anchor : site.before.getLast? = some (site.given.threadAnchor Tree.root)

namespace Realizes

variable {source : Array UInt8} {site : Site} {assembly : Assembly} {draft : Draft}

/-- The root stays a root. -/
theorem rooted (h : Realizes source site assembly draft) (htop : site.Top) :
    assembly.tree.RootedAt := by
  have hlast : draft.frames.getLast? = some (draft.frames.getLast (List.cons_ne_nil _ _)) :=
    List.getLast?_eq_some_getLast _
  have hbegan := h.began _ hlast
  have hin : draft.frames.getLast (List.cons_ne_nil _ _) ∈ draft.frames := List.getLast_mem _
  have hbody := h.frames _ hin
  rw [h.numbered.base_eq, htop.base] at hbody
  have hkind := htop.kind
  rw [Tree.RootedAt, Tree.kind?_eq, ← htop.base, hbegan] at hkind
  rw [Tree.RootedAt, Tree.kind?_eq, hbody]
  exact hkind

/-- It is not the pending child. -/
theorem pending_ne_root (h : Realizes source site assembly draft) (hsite : site.Sound)
    (htop : site.Top) : assembly.pending ≠ some Tree.root := by
  rw [h.pending]
  intro heq
  obtain ⟨item, hitem, hid⟩ := Option.map_eq_some_iff.mp heq
  obtain ⟨frame, hframe, hbase⟩ := h.base_mem
  refine (h.apart hsite).loose frame hframe ?_
  rw [hbase, htop.base, ← hid]
  exact Item.id_mem_ids (Draft.mem_loose hitem)

/-- It is not the branch inside another one. -/
theorem branch_ne_root (h : Realizes source site assembly draft) (hsite : site.Sound)
    (htop : site.Top) (houter : draft.outer ≠ []) : assembly.branch ≠ Tree.root := by
  have hlast : draft.frames.getLast (List.cons_ne_nil _ _) = draft.outer.getLast houter :=
    List.getLast_cons houter
  have hne := (h.apart hsite).frame_ne (List.getLast_mem houter)
  rw [← hlast, h.numbered.base_eq, htop.base, ← h.branch] at hne
  exact hne

/-- The next call goes on behind the node that was put on the thread last. -/
theorem threadAnchor_eq (h : Realizes source site assembly draft) (htop : site.Top)
    (houter : draft.outer = []) (hloose : draft.loose = []) :
    assembly.tree.threadAnchor Tree.root = assembly.tail := by
  obtain ⟨-, -, hbody, hbegan⟩ := h.outermost houter
  have htail := h.tail
  have hlinks : draft.links = Item.linked draft.frame.done := by
    rw [Draft.links, Draft.frames, houter, hloose]
    simp [Draft.frameLinks]
  have hids : (draft.frame.done.map (·.label.id)).getLast? =
      (Item.linked draft.frame.done).getLast? := by
    rw [Item.linked, List.getLast?_map, List.getLast?_map, Rose.getLast?_postorderAll,
      List.getLast?_map, Option.map_map]
    rfl
  have hchildren : (assembly.tree.children Tree.root).back? =
      (Item.linked draft.frame.done).getLast?.or (site.given.children Tree.root).back? := by
    rw [Tree.children_eq, Tree.children_eq, ← htop.base, hbody, hbegan]
    show (draft.frame.origin.children ++ _).back? = _
    rw [← Array.getLast?_toList, Array.toList_append, List.getLast?_append, hids]
    exact congrArg (Option.or _) (Array.getLast?_toList _)
  rw [hlinks, List.getLast?_append, htop.anchor] at htail
  rw [Tree.threadAnchor, hchildren]
  cases hlast : (Item.linked draft.frame.done).getLast? with
  | some last =>
    rw [hlast] at htail
    exact Option.some.inj htail
  | none =>
    rw [hlast] at htail
    exact Option.some.inj htail

end Realizes

/-- Two assemblies are the same, but for where the root of the second one's tree ends. -/
structure Assembly.Shifted (stop : Position) (a b : Assembly) : Prop where
  tree : b.tree = a.tree.endRoot stop
  tail : b.tail = a.tail
  branch : b.branch = a.branch
  outer : b.outer = a.outer
  pending : b.pending = a.pending

namespace Assembly.Shifted

variable {source : Array UInt8} {site : Site} {draft : Draft} {a b : Assembly} {stop : Position}

/-- Completing the pending child does the same to both, for it is not the root. -/
theorem settle (h : Shifted stop a b) (hpending : a.pending ≠ some Tree.root)
    (stop' : Position) : Shifted stop (a.settle stop') (b.settle stop') := by
  cases hcase : a.pending with
  | none =>
    rw [settle_of_none hcase, settle_of_none (h.pending.trans hcase)]
    exact h
  | some id =>
    have hid : id ≠ Tree.root := fun heq => hpending (heq ▸ hcase)
    rw [settle_of_some hcase, settle_of_some (h.pending.trans hcase)]
    refine ⟨?_, rfl, h.branch, h.outer, rfl⟩
    dsimp only
    rw [h.tree, h.branch, h.tail, Tree.tie_endRoot _ _ _ _ hid]

theorem add (h : Shifted stop a b) (hsize : Tree.root < a.tree.size) (node : Node) :
    Shifted stop (a.add node) (b.add node) := by
  rw [add_eq, add_eq]
  refine ⟨?_, h.tail, h.branch, h.outer, h.pending⟩
  dsimp only
  rw [h.tree, Tree.add_endRoot hsize]

/-- **A mark does the same to both.** -/
theorem take (h : Shifted stop a b) (hreal : Realizes source site a draft) (hsite : site.Sound)
    (htop : site.Top) {mark : Mark} (hfits : draft.Fits mark) :
    Shifted stop (a.take source mark) (b.take source mark) := by
  have hpending := hreal.pending_ne_root hsite htop
  have hsize : ∀ stop', Tree.root < (a.settle stop').tree.size := by
    intro stop'
    have hrooted := (hreal.settle hsite stop').rooted htop
    obtain ⟨node, hnode, -⟩ := Option.map_eq_some_iff.mp hrooted
    exact Tree.lt_size_of_node? hnode
  cases mark with
  | leaf leaf valid start =>
    have hadded := (h.settle hpending start).add (hsize start)
      { kind := .leaf leaf, span := Span.point start, valid := valid }
    refine ⟨hadded.tree, hadded.tail, hadded.branch, hadded.outer, ?_⟩
    show some (Tree.newest _) = some (Tree.newest _)
    rw [hadded.tree, Tree.newest, Tree.newest, Tree.endRoot, Tree.size_modify]
  | opened branch start =>
    have hadded := (h.settle hpending start).add (hsize start)
      { kind := .branch branch, span := Span.point start }
    refine ⟨hadded.tree, hadded.tail, ?_, ?_, hadded.pending⟩
    · show Tree.newest _ = Tree.newest _
      rw [hadded.tree, Tree.newest, Tree.newest, Tree.endRoot, Tree.size_modify]
    · show _ :: _ = _ :: _
      rw [hadded.branch, hadded.outer]
  | closed branch valid stop' =>
    have hsettled := h.settle hpending stop'
    have hreal' := hreal.settle hsite stop'
    have houter : (draft.settle stop').outer ≠ [] := by
      rw [Draft.outer_settle]
      exact hfits
    have hbranch := hreal'.branch_ne_root hsite htop houter
    have htree := Tree.close_endRoot (hreal'.rooted htop) source stop hbranch branch valid
    rw [Assembly.take, Assembly.take, complete_eq, complete_eq, hsettled.tree, hsettled.branch,
      htree]
    dsimp only
    rw [hsettled.outer]
    cases (a.settle stop').outer with
    | nil => exact ⟨rfl, hsettled.tail, rfl, rfl, hsettled.pending⟩
    | cons around further => exact ⟨rfl, hsettled.tail, rfl, rfl, rfl⟩

/-- So do all marks of a scan. -/
theorem takeAll (hsite : site.Sound) (htop : site.Top) : ∀ (marks : List Mark) {a b : Assembly}
    {draft : Draft}, Shifted stop a b → Realizes source site a draft → draft.Admits marks →
    Shifted stop (a.takeAll source marks) (b.takeAll source marks)
  | [], _, _, _, h, _, _ => h
  | mark :: rest, a, b, draft, h, hreal, hadmits => by
    have htaken : Shifted stop ((a.take source mark).takeAll source rest)
        ((b.take source mark).takeAll source rest) :=
      takeAll hsite htop rest (h.take hreal hsite htop hadmits.1) (hreal.take hsite hadmits.1)
        hadmits.2
    exact htaken

end Assembly.Shifted

/-! ## 5. One call and two

Put together: the first call is the first part of the marks and an end, the second call starts from
a tree that is the same but for that end. -/

namespace Assembly

variable {source : Array UInt8} {site : Site} {draft : Draft} {a b : Assembly} {stop : Position}

/-- An assembly that added to a root ends the root. -/
theorem finish_root_tree (source : Array UInt8) (hbranch : (a.settle stop).branch = Tree.root)
    (hrooted : (a.settle stop).tree.RootedAt) :
    (a.finish source .root stop).tree = (a.settle stop).tree.endRoot stop := by
  have hname : (a.settle stop).tree.isName Tree.root = false := by
    rw [Tree.isName, hrooted]
  show ((a.settle stop).tree.evaluate source (a.settle stop).branch).modify
    (a.settle stop).branch _ = _
  rw [hbranch, Tree.evaluate_of_not_isName hname]
  rfl

/-- Where the root ended before is forgotten. -/
theorem Shifted.finish {stop' : Position} (h : Shifted stop a b)
    (hreal : Realizes source site a draft) (hsite : site.Sound) (htop : site.Top)
    (houter : draft.outer = []) :
    (b.finish source .root stop').tree = (a.finish source .root stop').tree := by
  have hsettled := h.settle (hreal.pending_ne_root hsite htop) stop'
  have hreal' := hreal.settle hsite stop'
  have hrooted := hreal'.rooted htop
  obtain ⟨-, hbranch, -, -⟩ := hreal'.outermost (by rw [Draft.outer_settle, houter])
  rw [htop.base] at hbranch
  have hrooted' : (b.settle stop').tree.RootedAt := by
    rw [hsettled.tree, Tree.RootedAt, Tree.kind?_endRoot]
    exact hrooted
  rw [finish_root_tree source hbranch hrooted,
    finish_root_tree source (hsettled.branch.trans hbranch) hrooted', hsettled.tree,
    Tree.endRoot_endRoot]

/-- What is complete is not completed again. -/
theorem settle_settle (a : Assembly) (stop stop' : Position) :
    (a.settle stop).settle stop' = a.settle stop := by
  refine settle_of_none ?_ stop'
  cases hcase : a.pending with
  | none => rw [settle_of_none hcase, hcase]
  | some id => rw [settle_of_some hcase]

end Assembly

namespace Assembly

/-- The next mark says where the pending child ends, or the end does. -/
theorem finish_settle (source : Array UInt8) (a : Assembly) {p stop : Position}
    {marks : List Mark} (hnone : marks = [] → stop = p)
    (hfirst : ∀ mark ∈ marks.head?, mark.place = p) (branch : Branch) :
    ((a.settle p).takeAll source marks).finish source branch stop =
      (a.takeAll source marks).finish source branch stop := by
  cases marks with
  | nil =>
    obtain rfl := hnone rfl
    show (a.settle stop).finish source branch stop = a.finish source branch stop
    unfold finish
    rw [settle_settle]
  | cons mark rest =>
    have hplace := hfirst mark rfl
    have htake : (a.settle p).take source mark = a.take source mark := by
      cases mark with
      | leaf leaf valid start =>
        obtain rfl : start = p := hplace
        rw [take, take, settle_settle]
      | opened branch start =>
        obtain rfl : start = p := hplace
        rw [take, take, settle_settle]
      | closed branch valid stop' =>
        obtain rfl : stop' = p := hplace
        rw [take, take, settle_settle]
    show (((a.settle p).take source mark).takeAll source rest).finish source branch stop =
      ((a.take source mark).takeAll source rest).finish source branch stop
    rw [htake]

/-- **Two calls in a root, one after the other, leave the tree that one call leaves**: the second
one goes on where the first one stopped. -/
theorem finish_resumed (hreal : Realizes source site a draft) (hsite : site.Sound)
    (htop : site.Top) (houter : draft.outer = []) {p stop : Position} {marks : List Mark}
    (hadmits : (draft.settle p).Admits marks)
    (hclosed : ((draft.settle p).takeAll marks).outer = []) (hnone : marks = [] → stop = p)
    (hfirst : ∀ mark ∈ marks.head?, mark.place = p) :
    (((into (a.finish source .root p).tree Tree.root).takeAll source marks).finish source .root
        stop).tree = ((a.takeAll source marks).finish source .root stop).tree := by
  have hreal' := hreal.settle hsite p
  have houter' : (draft.settle p).outer = [] := by rw [Draft.outer_settle, houter]
  obtain ⟨-, hbranch, -, -⟩ := hreal'.outermost houter'
  rw [htop.base] at hbranch
  have htree := finish_root_tree source hbranch (hreal'.rooted htop)
  have hanchor := hreal'.threadAnchor_eq htop houter' (Draft.loose_settle _ _)
  have hshifted : Shifted p (a.settle p) (into (a.finish source .root p).tree Tree.root) := by
    refine ⟨htree, ?_, hbranch.symm, ?_, ?_⟩
    · show (a.finish source .root p).tree.threadAnchor Tree.root = (a.settle p).tail
      rw [htree, ← hanchor, Tree.threadAnchor, Tree.threadAnchor, Tree.children_endRoot]
      rfl
    · rw [hreal'.outer, houter']
      rfl
    · exact (hreal'.loose_of_none (Draft.loose_settle _ _)).symm
  rw [(hshifted.takeAll hsite htop marks hreal' hadmits).finish
    (Realizes.takeAll hsite marks hreal' hadmits) hsite htop hclosed,
    finish_settle source a hnone hfirst]

end Assembly
end StyleLex
