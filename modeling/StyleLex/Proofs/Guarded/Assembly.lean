/-
# From marks to a tree, guarded

The assembly of `StyleLex.Tree.Assembly` with every access to the arena checked: each node that is
tied in, closed or evaluated is fetched, and after every mark the innermost branch and the pending
node are looked at (`observe`), for that is what a scan asks about between its steps.

An assembly is `Placed` if the ids it holds are those of nodes and its tree is closed.  Every mark
keeps it so, and from there each guarded operation has the answer of the plain one
(`takeAll_eq`, `finish_eq`).

`Placed` says nothing of where in the tree these ids are; that the pending node is not attached yet,
or that the outer branches enclose each other, is of no importance for access.  So the invariant is
a good deal weaker than the one that an assembly really has, and its proof is accordingly short.
-/
import StyleLex.Proofs.Guarded.Arena

namespace StyleLex
namespace Guarded

/-! ## 1. Texts

A text is a piece of the source, cut out where the span of its node is.  As a source may be shorter
than the one that the node was read from, the ends of the span are bounded by its length before
anything is cut out. -/

/-- The piece of some bytes from `start` up to `stop`. -/
def slice (bytes : List UInt8) (start stop : Nat) : Guarded (List UInt8) :=
  if start ≤ stop ∧ stop ≤ bytes.length then .ok ((bytes.drop start).take (stop - start))
  else .error (.slice start stop bytes.length)

/-- A piece that is there is cut out. -/
theorem slice_eq {bytes : List UInt8} {start stop : Nat} (hle : start ≤ stop)
    (hlength : stop ≤ bytes.length) :
    slice bytes start stop = .ok ((bytes.drop start).take (stop - start)) :=
  if_pos ⟨hle, hlength⟩

/-- The bytes that a span covers; both of its ends are put back into the source first. -/
def covered (span : Span) (source : Array UInt8) : Guarded (List UInt8) :=
  let stop := min span.stop.byte source.size
  slice source.toList (min span.start.byte stop) stop

/-- Bounded in that way, a span covers a piece of any source. -/
theorem covered_eq (span : Span) (source : Array UInt8) :
    covered span source = .ok (span.slice source) := by
  have hstop : min span.stop.byte source.size ≤ source.toList.length := by
    rw [Array.length_toList]
    exact Nat.min_le_right _ _
  unfold covered
  rw [slice_eq (Nat.min_le_right _ _) hstop, Span.slice_eq, Span.length]
  refine congrArg Except.ok ?_
  rcases Nat.lt_or_ge (min span.stop.byte source.size) span.start.byte with hlt | hle
  · -- the span begins behind its end, or behind the source: both pieces are empty
    rw [Nat.min_eq_right (Nat.le_of_lt hlt), Nat.sub_self, List.take_zero, eq_comm]
    refine List.eq_nil_of_length_eq_zero ?_
    rw [List.length_take, List.length_drop, Array.length_toList]
    omega
  · rw [Nat.min_eq_left hle, List.take_eq_take_iff, List.length_drop, Array.length_toList]
    omega

/-- The text of a node. -/
def text? (source : Array UInt8) (node : Node) : Guarded (Option String) :=
  if node.kind.isRun then
    match node.cached with
    | some text => pure (some text)
    | none => do
      let bytes ← covered node.span source
      pure (some (Utf8.decode bytes))
  else pure (node.text? source)

/-- So every node has its text. -/
theorem text?_eq (source : Array UInt8) (node : Node) :
    text? source node = .ok (node.text? source) := by
  unfold text?
  split
  · rename_i hrun
    rw [Tree.text?_of_isRun hrun, covered_eq]
    cases node.cached <;> rfl
  · rfl

/-- The texts of some nodes, one after the other. -/
def joinedText (tree : Tree) (source : Array UInt8) (ids : List NodeId) : Guarded String :=
  ids.foldlM (fun text id => do
    let node ← fetch tree id
    let own ← text? source node
    pure (text ++ own.getD "")) ""

/-- Makes the value of a name anew. -/
def evaluate (tree : Tree) (source : Array UInt8) (id : NodeId) : Guarded Tree := do
  let node ← fetch tree id
  if tree.isName id then
    let value ← joinedText tree source node.children.toList
    change (tree.rememberAll source node.children) id (Tree.named value)
  else pure tree

variable {tree : Tree}

/-- So have several, if they are there. -/
theorem joinedText_eq (source : Array UInt8) {ids : List NodeId} (h : ∀ id ∈ ids, id < tree.size) :
    joinedText tree source ids =
      .ok (ids.foldl (fun text id => text ++ (tree.text? source id).getD "") "") := by
  refine foldlM_eq (fun text id hid => ?_) ""
  obtain ⟨node, hnode⟩ := Tree.exists_node (h id hid)
  rw [fetch_eq hnode, ok_bind, text?_eq, ok_bind, Tree.text?, hnode]
  rfl

/-- A name gets its value, as its children are there. -/
theorem evaluate_eq (h : tree.Closed) (source : Array UInt8) {id : NodeId} (hid : id < tree.size) :
    evaluate tree source id = .ok (tree.evaluate source id) := by
  obtain ⟨node, hnode⟩ := Tree.exists_node hid
  have hchildren : tree.children id = node.children := by rw [Tree.children, hnode]; rfl
  rw [evaluate, fetch_eq hnode, ok_bind]
  cases hname : tree.isName id with
  | false =>
    rw [Tree.evaluate_of_not_isName hname]
    rfl
  | true =>
    have hjoined : joinedText tree source node.children.toList =
        .ok (tree.joinedText source id) := by
      rw [joinedText_eq source fun child hin =>
        (h id node hnode).children child (Array.mem_toList_iff.mp hin), Tree.joinedText,
        hchildren, Array.foldl_toList]
    rw [if_pos rfl, hjoined, ok_bind, change_eq (by simpa using hid),
      Tree.evaluate_of_isName hname, hchildren]

/-! ## 2. One mark

Each step is the plain one with `fetch` and `change` in the place of the total operations. -/

/-- Looks at the innermost branch and at the pending node. -/
def observe (assembly : Assembly) : Guarded Unit := do
  let _ ← fetch assembly.tree assembly.branch
  match assembly.pending with
  | some id => do
    let _ ← fetch assembly.tree id
    pure ()
  | none => pure ()

/-- Ends the pending node and ties it in. -/
def settle (assembly : Assembly) (stop : Position) : Guarded Assembly :=
  match assembly.pending with
  | some id => do
    let tied ← tie assembly.tree assembly.branch assembly.tail id stop
    pure { assembly with
      tree := tied
      tail := id
      pending := none
      attached := assembly.attached + 1 }
  | none => pure assembly

/-- Completes the innermost branch: its kind, its flag, and its value if it is a name. -/
def complete (assembly : Assembly) (source : Array UInt8) (branch : Branch) (valid : Bool) :
    Guarded Assembly := do
  let marked ← change assembly.tree assembly.branch fun node =>
    { node with kind := .branch branch, valid := valid }
  let evaluated ← evaluate marked source assembly.branch
  pure { assembly with tree := evaluated }

/-- Ties in what a mark describes. -/
def place (source : Array UInt8) (assembly : Assembly) : Mark → Guarded Assembly
  | .leaf leaf valid start => do
    let settled ← settle assembly start
    let added := settled.add { kind := .leaf leaf, span := Span.point start, valid := valid }
    pure { added with pending := some added.tree.newest }
  | .opened branch start => do
    let settled ← settle assembly start
    let added := settled.add { kind := .branch branch, span := Span.point start }
    pure { added with
      branch := added.tree.newest
      outer := added.branch :: added.outer }
  | .closed branch valid stop => do
    let settled ← settle assembly stop
    let closed ← complete settled source branch valid
    match closed.outer with
    | around :: further =>
      pure { closed with branch := around, outer := further, pending := some closed.branch }
    | [] => pure closed

/-- Takes one mark, and looks at what came of it. -/
def take (source : Array UInt8) (assembly : Assembly) (mark : Mark) : Guarded Assembly := do
  let placed ← place source assembly mark
  observe placed
  pure placed

/-- Takes several marks, the oldest first. -/
def takeAll (source : Array UInt8) (assembly : Assembly) (marks : List Mark) : Guarded Assembly :=
  marks.foldlM (take source) assembly

/-- Ends the assembly. -/
def finish (source : Array UInt8) (assembly : Assembly) (branch : Branch) (stop : Position) :
    Guarded Assembly := do
  let settled ← settle assembly stop
  let completed ←
    match branch with
    | .hash hash => complete settled source (.hash hash.settle) hash.settle.isValid
    | _ => do
      let evaluated ← evaluate settled.tree source settled.branch
      pure { settled with tree := evaluated }
  let ended ← change completed.tree completed.branch fun node =>
    { node with span := { node.span with stop := stop } }
  pure { completed with tree := ended }

/-- The assembly that adds to a branch. -/
def into (tree : Tree) (parent : NodeId) : Guarded Assembly := do
  let anchor ← threadAnchor tree parent
  let assembly : Assembly := { tree := tree, tail := anchor, branch := parent }
  observe assembly
  pure assembly

end Guarded

/-! ## 3. Placed assemblies

One lemma for each operation of an assembly, and then the one for marks, by their three kinds. -/

/-- The ids that an assembly holds are those of nodes. -/
structure Assembly.Placed (assembly : Assembly) : Prop where
  closed : assembly.tree.Closed
  tail : assembly.tail < assembly.tree.size
  branch : assembly.branch < assembly.tree.size
  outer : ∀ id ∈ assembly.outer, id < assembly.tree.size
  pending : ∀ id, assembly.pending = some id → id < assembly.tree.size

namespace Assembly.Placed

variable {source : Array UInt8} {assembly : Assembly}

/-- A tree of at least the size takes its place, as long as it is closed. -/
theorem congr (h : assembly.Placed) {tree : Tree} (hclosed : tree.Closed)
    (hsize : assembly.tree.size ≤ tree.size) : ({ assembly with tree := tree }).Placed where
  closed := hclosed
  tail := Nat.lt_of_lt_of_le h.tail hsize
  branch := Nat.lt_of_lt_of_le h.branch hsize
  outer := fun id hid => Nat.lt_of_lt_of_le (h.outer id hid) hsize
  pending := fun id hid => Nat.lt_of_lt_of_le (h.pending id hid) hsize

/-- An assembly that is to add to a node begins placed. -/
theorem into {tree : Tree} {parent : NodeId} (hclosed : tree.Closed)
    (hparent : parent < tree.size) : (Assembly.into tree parent).Placed where
  closed := hclosed
  tail := hclosed.threadAnchor_lt hparent
  branch := hparent
  outer := fun _ hid => absurd hid List.not_mem_nil
  pending := fun _ hid => absurd hid (Option.some_ne_none _).symm

/-- Tying in what is pending leaves nothing pending. -/
theorem settle (h : assembly.Placed) (stop : Position) : (assembly.settle stop).Placed := by
  cases hpending : assembly.pending with
  | none =>
    rw [settle_of_none hpending]
    exact h
  | some id =>
    have hid := h.pending id hpending
    have htied := h.congr (h.closed.tie h.branch h.tail hid stop) (by simp)
    rw [settle_of_some hpending]
    exact ⟨htied.closed, by simpa using hid, htied.branch, htied.outer, by simp⟩

/-- A node that names no other can be added, and is there then. -/
theorem add (h : assembly.Placed) (kind : Kind) (start : Position) (valid : Bool) :
    let added := assembly.add { kind := kind, span := Span.point start, valid := valid }
    added.Placed ∧ added.tree.newest < added.tree.size := by
  have hnode : Node.Names assembly.tree.size
      { kind := kind, span := Span.point start, valid := valid } := by
    refine ⟨?_, ?_, ?_, ?_⟩ <;> simp
  exact ⟨h.congr (h.closed.add hnode) (by simp), by simp [add_eq]⟩

/-- Completing a branch changes no links. -/
theorem complete (h : assembly.Placed) (source : Array UInt8) (branch : Branch) (valid : Bool) :
    (assembly.complete source branch valid).Placed := by
  rw [complete_eq]
  exact h.congr (h.closed.close source assembly.branch branch valid) (by simp)

/-- **Every mark keeps an assembly placed.** -/
theorem take (h : assembly.Placed) (source : Array UInt8) (mark : Mark) :
    (assembly.take source mark).Placed := by
  cases mark with
  | leaf leaf valid start =>
    -- the new node is pending
    obtain ⟨hadded, hnewest⟩ := (h.settle start).add (.leaf leaf) start valid
    refine ⟨hadded.closed, hadded.tail, hadded.branch, hadded.outer, ?_⟩
    rintro id ⟨⟩
    exact hnewest
  | opened branch start =>
    -- the new node is the innermost branch, and the one before is around it
    obtain ⟨hadded, hnewest⟩ := (h.settle start).add (.branch branch) start true
    refine ⟨hadded.closed, hadded.tail, hnewest, ?_, hadded.pending⟩
    intro id hid
    rcases List.mem_cons.mp hid with rfl | hid
    · exact hadded.branch
    · exact hadded.outer id hid
  | closed branch valid stop =>
    -- the branch around becomes the innermost one, and the one that closed is pending
    have hclosed := (h.settle stop).complete source branch valid
    rw [Assembly.take]
    generalize (assembly.settle stop).complete source branch valid = closed at hclosed
    obtain ⟨tree, tail, id, outer, pending, attached⟩ := closed
    cases outer with
    | nil => exact hclosed
    | cons around further =>
      refine ⟨hclosed.closed, hclosed.tail, hclosed.outer around List.mem_cons_self, ?_, ?_⟩
      · intro id hid
        exact hclosed.outer id (List.mem_cons_of_mem around hid)
      · rintro id ⟨⟩
        exact hclosed.branch

end Assembly.Placed

/-! ## 4. No breach

From placed assemblies on, the guarded operations have the answers of the plain ones. -/

namespace Guarded

variable {assembly : Assembly}

/-- What is looked at is there. -/
theorem observe_eq (h : assembly.Placed) : observe assembly = .ok () := by
  obtain ⟨node, hnode⟩ := Tree.exists_node h.branch
  rw [observe, fetch_eq hnode, ok_bind]
  cases hpending : assembly.pending with
  | none => rfl
  | some id =>
    obtain ⟨last, hlast⟩ := Tree.exists_node (h.pending id hpending)
    simp only [fetch_eq hlast, ok_bind]
    rfl

/-- The pending node is tied in without a breach. -/
theorem settle_eq (h : assembly.Placed) (stop : Position) :
    settle assembly stop = .ok (assembly.settle stop) := by
  unfold settle
  cases hpending : assembly.pending with
  | none =>
    rw [Assembly.settle_of_none hpending]
    rfl
  | some id =>
    rw [Assembly.settle_of_some hpending]
    simp only
    rw [tie_eq h.branch h.tail (h.pending id hpending) (fun _ hnext => h.closed.next_lt hnext)]
    rfl

/-- A branch is completed without one. -/
theorem complete_eq (h : assembly.Placed) (source : Array UInt8) (branch : Branch) (valid : Bool) :
    complete assembly source branch valid = .ok (assembly.complete source branch valid) := by
  have hmarked : (assembly.tree.modify assembly.branch (Node.become branch valid)).Closed :=
    h.closed.modify _ fun _ hnode => ⟨hnode.parent, hnode.previous, hnode.next, hnode.children⟩
  have heval : evaluate (assembly.tree.modify assembly.branch (Node.become branch valid)) source
      assembly.branch = .ok (assembly.tree.close source assembly.branch branch valid) :=
    evaluate_eq hmarked source (by simpa using h.branch)
  rw [complete, change_eq h.branch, ok_bind]
  show (evaluate (assembly.tree.modify assembly.branch (Node.become branch valid)) source
    assembly.branch >>= _) = _
  rw [heval]
  rfl

/-- So a mark is placed without one. -/
theorem place_eq (h : assembly.Placed) (source : Array UInt8) (mark : Mark) :
    place source assembly mark = .ok (assembly.take source mark) := by
  cases mark with
  | leaf leaf valid start =>
    rw [place, settle_eq h start]
    rfl
  | opened branch start =>
    rw [place, settle_eq h start]
    rfl
  | closed branch valid stop =>
    rw [place, settle_eq h stop, ok_bind, complete_eq (h.settle stop), ok_bind, Assembly.take]
    generalize (assembly.settle stop).complete source branch valid = closed
    obtain ⟨tree, tail, id, outer, pending, attached⟩ := closed
    cases outer with
    | nil => rfl
    | cons around further => rfl

/-- **A mark is taken without a breach.** -/
theorem take_eq (h : assembly.Placed) (source : Array UInt8) (mark : Mark) :
    take source assembly mark = .ok (assembly.take source mark) := by
  rw [take, place_eq h, ok_bind, observe_eq (h.take source mark)]
  rfl

/-- By induction on the marks, with the assembly placed between them. -/
theorem takeAll_eq (h : assembly.Placed) (source : Array UInt8) (marks : List Mark) :
    takeAll source assembly marks = .ok (assembly.takeAll source marks) ∧
      (assembly.takeAll source marks).Placed :=
  foldlM_ok marks assembly h fun _ hplaced mark _ =>
    ⟨take_eq hplaced source mark, hplaced.take source mark⟩

/-- The end of an assembly has no breach. -/
theorem finish_eq (h : assembly.Placed) (source : Array UInt8) (branch : Branch) (stop : Position) :
    finish source assembly branch stop = .ok (assembly.finish source branch stop) := by
  have hsettled := h.settle stop
  rw [finish, settle_eq h stop, ok_bind]
  cases branch with
  | hash hash =>
    have hcompleted := hsettled.complete source (.hash hash.settle) hash.settle.isValid
    simp only [complete_eq hsettled, ok_bind, change_eq hcompleted.branch]
    rfl
  | _ =>
    have hbranch : (assembly.settle stop).branch <
        ((assembly.settle stop).tree.evaluate source (assembly.settle stop).branch).size := by
      simpa using hsettled.branch
    simp only [evaluate_eq hsettled.closed source hsettled.branch, ok_bind, pure_bind,
      change_eq hbranch]
    rfl

/-- Nor has its beginning. -/
theorem into_eq {tree : Tree} {parent : NodeId} (hclosed : tree.Closed)
    (hparent : parent < tree.size) : into tree parent = .ok (Assembly.into tree parent) := by
  have hplaced : ({ tree := tree, tail := tree.threadAnchor parent, branch := parent } :
      Assembly).Placed := Assembly.Placed.into hclosed hparent
  rw [into, threadAnchor_eq hparent, ok_bind]
  simp only [observe_eq hplaced, ok_bind]
  rfl

end Guarded
end StyleLex
