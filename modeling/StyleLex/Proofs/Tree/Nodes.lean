/-
# What each change does to each node

The operations on a tree are described by what `node?` gives afterwards, node by node.  Two views
keep the statements small.  The *body* of a node is everything but its two links on the thread;
the *links* are those two.  `linkAfter` changes no body, and every other operation changes no
links, so what is said of bodies and what is said of the thread never meet.

Every lemma has the form "the node at `j` after the change, in terms of the node at `j` before it",
with an `if` for the nodes that the change is about.  An invariant of a tree says something about
each node, so it is carried over a change by rewriting with one of these lemmas and splitting the
`if`; no later proof opens an operation again.

Reading texts is a change too, for a text that was read is kept.  It keeps all bodies up to that
text (`Node.Kept`), so what does not look at texts is not concerned.
-/
import StyleLex.Tree.Assembly

namespace StyleLex

/-! ## 1. Bodies and links

A tree is determined by `node?`  and its file name (`ext_node?`), and everything that is asked of a
node can be read off its body, except the two links. -/

/-- A node off the thread. -/
def Node.body (node : Node) : Node := { node with previous := none, next := none }

namespace Tree

/-- The body of a node. -/
def body? (tree : Tree) (id : NodeId) : Option Node := (tree.node? id).map Node.body

def previous? (tree : Tree) (id : NodeId) : Option NodeId := (tree.node? id).bind (·.previous)

theorem node?_isSome {tree : Tree} {id : NodeId} : (tree.node? id).isSome ↔ id < tree.size := by
  simp [node?, size]

/-- An id below the size names a node. -/
theorem exists_node {tree : Tree} {id : NodeId} (h : id < tree.size) :
    ∃ node, tree.node? id = some node := by
  rw [← Option.isSome_iff_exists, node?_isSome]
  exact h

/-- Only ids below the size name nodes. -/
theorem lt_size_of_node? {tree : Tree} {id : NodeId} {node : Node}
    (h : tree.node? id = some node) : id < tree.size := by
  rw [← node?_isSome, h]
  rfl

theorem exists_of_body? {tree : Tree} {id : NodeId} {body : Node}
    (h : tree.body? id = some body) : ∃ node, tree.node? id = some node ∧ node.body = body := by
  simpa [body?] using h

/-- A node that is there shows its body. -/
theorem body?_of_node? {tree : Tree} {id : NodeId} {node : Node}
    (h : tree.node? id = some node) : tree.body? id = some node.body := by
  simp [body?, h]

theorem lt_size_of_body? {tree : Tree} {id : NodeId} {body : Node}
    (h : tree.body? id = some body) : id < tree.size := by
  obtain ⟨node, hnode, -⟩ := exists_of_body? h
  exact lt_size_of_node? hnode

/-- A tree is its nodes and its name. -/
theorem ext_node? {a b : Tree} (hfile : a.filename = b.filename)
    (hnodes : ∀ id, a.node? id = b.node? id) : a = b := by
  obtain ⟨nodes, filename⟩ := a
  obtain ⟨nodes', filename'⟩ := b
  obtain rfl : filename = filename' := hfile
  congr
  exact Array.ext_getElem? hnodes

/-- Parent and children can be read off the body. -/
theorem parent?_eq (tree : Tree) (id : NodeId) :
    tree.parent? id = (tree.body? id).bind (·.parent) := by
  cases h : tree.node? id <;> simp [parent?, body?, h, Node.body]

/-- The same for the children: a node that is not there has none. -/
theorem children_eq (tree : Tree) (id : NodeId) :
    tree.children id = ((tree.body? id).map (·.children)).getD #[] := by
  cases h : tree.node? id <;> simp [children, body?, h, Node.body]

theorem kind?_eq (tree : Tree) (id : NodeId) : tree.kind? id = (tree.body? id).map (·.kind) := by
  cases h : tree.node? id <;> simp [kind?, body?, h, Node.body]

/-- The text of a node can be read off its body. -/
theorem text?_eq (tree : Tree) (source : Array UInt8) (id : NodeId) :
    tree.text? source id = (tree.body? id).bind (Node.text? source) := by
  cases h : tree.node? id <;> simp [text?, body?, h, Node.body, Node.text?]

/-! ## 2. One node changed -/

@[simp] theorem size_modify (tree : Tree) (id : NodeId) (change : Node → Node) :
    (tree.modify id change).size = tree.size := by
  cases tree
  simp [modify, size]

/-- A change at `id` is seen at `id` only. -/
theorem node?_modify (tree : Tree) (id j : NodeId) (change : Node → Node) :
    (tree.modify id change).node? j =
      if id = j then (tree.node? j).map change else tree.node? j := by
  cases tree
  simp [modify, node?, Array.getElem?_modify]

/-- A change that changes nothing. -/
@[simp] theorem modify_self (tree : Tree) (id : NodeId) :
    tree.modify id (fun node => node) = tree := by
  refine ext_node? (by cases tree; rfl) fun j => ?_
  rw [node?_modify]
  split <;> simp

/-- A change that is the same on bodies changes the body of its node alone. -/
theorem body?_modify (tree : Tree) (id j : NodeId) {change : Node → Node}
    (h : ∀ node, (change node).body = change node.body) :
    (tree.modify id change).body? j =
      if id = j then (tree.body? j).map change else tree.body? j := by
  rw [body?, node?_modify]
  split
  · simp [body?, Function.comp_def, h]
  · rfl

/-- A change that leaves the link forward alone moves no link forward. -/
theorem next?_modify (tree : Tree) (id j : NodeId) {change : Node → Node}
    (h : ∀ node, (change node).next = node.next) :
    (tree.modify id change).next? j = tree.next? j := by
  rw [next?, next?, node?_modify]
  split
  · cases tree.node? j <;> simp [h]
  · rfl

/-- The same for links backward. -/
theorem previous?_modify (tree : Tree) (id j : NodeId) {change : Node → Node}
    (h : ∀ node, (change node).previous = node.previous) :
    (tree.modify id change).previous? j = tree.previous? j := by
  rw [previous?, previous?, node?_modify]
  split
  · cases tree.node? j <;> simp [h]
  · rfl

/-! ## 3. A node added -/

@[simp] theorem size_add (tree : Tree) (node : Node) : (tree.add node).size = tree.size + 1 := by
  cases tree
  simp [add, size]

@[simp] theorem newest_add (tree : Tree) (node : Node) : (tree.add node).newest = tree.size := by
  simp [newest]

/-- The new node stands at the end of the array, and every other id names what it did. -/
theorem node?_add (tree : Tree) (node : Node) (j : NodeId) :
    (tree.add node).node? j = if j = tree.size then some node else tree.node? j := by
  cases tree
  exact Array.getElem?_push

theorem node?_add_of_lt {tree : Tree} (node : Node) {j : NodeId} (h : j < tree.size) :
    (tree.add node).node? j = tree.node? j := by
  rw [node?_add, if_neg (Nat.ne_of_lt h)]

theorem body?_add (tree : Tree) (node : Node) (j : NodeId) :
    (tree.add node).body? j = if j = tree.size then some node.body else tree.body? j := by
  rw [body?, node?_add]
  split <;> rfl

/-- A node added changes none that was there. -/
theorem body?_add_of_some {tree : Tree} (node : Node) {id : NodeId} {body : Node}
    (h : tree.body? id = some body) : (tree.add node).body? id = some body := by
  rw [body?_add, if_neg (Nat.ne_of_lt (lt_size_of_body? h)), h]

theorem next?_add_of_lt {tree : Tree} (node : Node) {j : NodeId} (h : j < tree.size) :
    (tree.add node).next? j = tree.next? j := by
  rw [next?, next?, node?_add_of_lt node h]

theorem previous?_add_of_lt {tree : Tree} (node : Node) {j : NodeId} (h : j < tree.size) :
    (tree.add node).previous? j = tree.previous? j := by
  rw [previous?, previous?, node?_add_of_lt node h]

/-! ## 4. A node tied in

Attaching writes to bodies only: the links on the thread are what they were. -/

@[simp] theorem size_attach (tree : Tree) (parent child : NodeId) :
    (tree.attach parent child).size = tree.size := by
  simp [attach]

/-- Attaching changes two bodies: the child gets its parent, and the parent one more child at the
end. -/
theorem body?_attach (tree : Tree) {parent child : NodeId} (h : child ≠ parent) (j : NodeId) :
    (tree.attach parent child).body? j =
      if child = j then (tree.body? j).map fun node => { node with parent := some parent }
      else if parent = j then (tree.body? j).map (addChild child)
      else tree.body? j := by
  have hadd : ∀ node, (addChild child node).body = addChild child node.body := fun _ => rfl
  have hparent : ∀ node : Node, Node.body { node with parent := some parent } =
      { node.body with parent := some parent } := fun _ => rfl
  rw [attach, body?_modify _ _ _ hadd, body?_modify _ _ _ hparent]
  by_cases hc : child = j
  · subst hc
    rw [if_pos rfl, if_pos rfl, if_neg (Ne.symm h)]
  · rw [if_neg hc, if_neg hc]

@[simp] theorem next?_attach (tree : Tree) (parent child j : NodeId) :
    (tree.attach parent child).next? j = tree.next? j := by
  rw [attach, next?_modify, next?_modify] <;> (intro node; rfl)

@[simp] theorem previous?_attach (tree : Tree) (parent child j : NodeId) :
    (tree.attach parent child).previous? j = tree.previous? j := by
  rw [attach, previous?_modify, previous?_modify] <;> (intro node; rfl)

/-! ## 5. A node put on the thread

Putting a node on the thread writes at most three links: out of the new node, out of the node before
it, and back from the node behind, if there is one.  The case without a node behind is the end of
the thread. -/

/-- `id` after `anchor` and before `following`, which is not told. -/
def splice (tree : Tree) (anchor id : NodeId) (following : Option NodeId) : Tree :=
  (tree.modify id fun node => { node with previous := some anchor, next := following }).modify
    anchor fun node => { node with next := some id }

theorem linkAfter_of_some {tree : Tree} {anchor id further : NodeId}
    (h : tree.next? anchor = some further) :
    tree.linkAfter anchor id =
      (tree.splice anchor id (some further)).modify further fun node =>
        { node with previous := some id } := by
  simp [linkAfter, splice, h]

theorem linkAfter_of_none {tree : Tree} {anchor id : NodeId} (h : tree.next? anchor = none) :
    tree.linkAfter anchor id = tree.splice anchor id none := by
  simp [linkAfter, splice, h]

@[simp] theorem size_linkAfter (tree : Tree) (anchor id : NodeId) :
    (tree.linkAfter anchor id).size = tree.size := by
  cases h : tree.next? anchor with
  | none => simp [linkAfter_of_none h, splice]
  | some further => simp [linkAfter_of_some h, splice]

/-- A change of links changes no body. -/
theorem body?_modify_links (tree : Tree) (id j : NodeId) {change : Node → Node}
    (h : ∀ node, (change node).body = node.body) :
    (tree.modify id change).body? j = tree.body? j := by
  rw [body?, node?_modify]
  split
  · simp [body?, Function.comp_def, h]
  · rfl

@[simp] theorem body?_linkAfter (tree : Tree) (anchor id j : NodeId) :
    (tree.linkAfter anchor id).body? j = tree.body? j := by
  cases h : tree.next? anchor with
  | none =>
    rw [linkAfter_of_none h, splice, body?_modify_links, body?_modify_links] <;>
      (intro node; rfl)
  | some further =>
    rw [linkAfter_of_some h, body?_modify_links, splice, body?_modify_links,
      body?_modify_links] <;> (intro node; rfl)

/-- The new node leads to what the anchor led to, and the anchor to the new node. -/
theorem next?_splice {tree : Tree} {anchor id : NodeId} (hne : id ≠ anchor)
    (hid : id < tree.size) (hanchor : anchor < tree.size) (following : Option NodeId)
    (j : NodeId) :
    (tree.splice anchor id following).next? j =
      if j = anchor then some id else if j = id then following else tree.next? j := by
  obtain ⟨a, ha⟩ := exists_node hanchor
  obtain ⟨n, hn⟩ := exists_node hid
  rw [splice, next?, node?_modify, node?_modify]
  by_cases h₁ : j = anchor
  · subst h₁
    simp [hne, ha]
  · by_cases h₂ : j = id
    · subst h₂
      simp [h₁, Ne.symm h₁, hn]
    · simp [h₁, h₂, Ne.symm h₁, Ne.symm h₂, next?]

/-- Only the new node looks back differently so far; the node behind it is told in `linkAfter`. -/
theorem previous?_splice {tree : Tree} {anchor id : NodeId} (hid : id < tree.size)
    (following : Option NodeId) (j : NodeId) :
    (tree.splice anchor id following).previous? j =
      if j = id then some anchor else tree.previous? j := by
  obtain ⟨n, hn⟩ := exists_node hid
  rw [splice, previous?_modify _ _ _ (by intro node; rfl), previous?, node?_modify]
  by_cases h : j = id
  · subst h
    simp [hn]
  · simp [h, Ne.symm h, previous?]

/-- After `id` was put on the thread, `anchor` leads to it, and it to what `anchor` led to. -/
theorem next?_linkAfter {tree : Tree} {anchor id : NodeId} (hne : id ≠ anchor)
    (hid : id < tree.size) (hanchor : anchor < tree.size) (j : NodeId) :
    (tree.linkAfter anchor id).next? j =
      if j = anchor then some id else if j = id then tree.next? anchor else tree.next? j := by
  cases h : tree.next? anchor with
  | none => rw [linkAfter_of_none h, next?_splice hne hid hanchor]
  | some further =>
    rw [linkAfter_of_some h, next?_modify _ _ _ (by intro node; rfl), next?_splice hne hid hanchor]

/-- Backwards, `id` leads to `anchor`, and what came after `anchor` leads to `id`. -/
theorem previous?_linkAfter {tree : Tree} {anchor id : NodeId} (hid : id < tree.size)
    (hnext : tree.next? anchor ≠ some id)
    (hfurther : ∀ further, tree.next? anchor = some further → further < tree.size)
    (j : NodeId) :
    (tree.linkAfter anchor id).previous? j =
      if j = id then some anchor
      else if tree.next? anchor = some j then some id
      else tree.previous? j := by
  cases h : tree.next? anchor with
  | none =>
    -- the thread ended at the anchor, and no node stands behind it to be told
    rw [linkAfter_of_none h, previous?_splice hid]
    simp
  | some further =>
    have hsize : further < (tree.splice anchor id (some further)).size := by
      simpa [splice] using hfurther further h
    obtain ⟨f, hf⟩ := exists_node hsize
    rw [linkAfter_of_some h]
    -- the node behind is told last, and it is not the new one, for the anchor did not lead to that
    -- yet
    by_cases hj : further = j
    · subst hj
      have hfid : further ≠ id := fun he => hnext (he ▸ h)
      simp [previous?, node?_modify, hf, hfid]
    · have hold : ((tree.splice anchor id (some further)).modify further fun node =>
          { node with previous := some id }).previous? j =
          (tree.splice anchor id (some further)).previous? j := by
        rw [previous?, previous?, node?_modify, if_neg hj]
      rw [hold, previous?_splice hid]
      simp [hj]

end Tree

/-! ## 6. Texts kept

The text of a run is read from the source when it is asked for, and kept.  So reading is a change of
the tree that does not show: the node is the same up to the text that it keeps. -/

/-- The bytes of a span are those from its beginning on, as many as it is long. -/
theorem Span.slice_eq (span : Span) (bytes : Array UInt8) :
    span.slice bytes = (bytes.toList.drop span.start.byte).take span.length := by
  simp [Span.slice, Span.length, List.extract_eq_take_drop]

/-- `kept` is `node`, perhaps with the text of its span kept. -/
def Node.Kept (source : Array UInt8) (node kept : Node) : Prop :=
  kept = node ∨
    kept = { node with cached := some (node.cached.getD (node.span.read source)) }

/-- Texts that are read twice are kept once, as they were read first. -/
theorem Node.Kept.trans {source : Array UInt8} {a b c : Node} (hab : a.Kept source b)
    (hbc : b.Kept source c) : a.Kept source c := by
  rcases hab with rfl | rfl
  · exact hbc
  · rcases hbc with rfl | rfl
    · exact Or.inr rfl
    · exact Or.inr rfl

namespace Tree

variable {tree : Tree} {source : Array UInt8}

@[simp] theorem size_remember (tree : Tree) (source : Array UInt8) (id : NodeId) :
    (tree.remember source id).size = tree.size := by
  simp [remember]

@[simp] theorem next?_remember (tree : Tree) (source : Array UInt8) (id j : NodeId) :
    (tree.remember source id).next? j = tree.next? j :=
  next?_modify _ _ _ fun node => by split <;> rfl

@[simp] theorem previous?_remember (tree : Tree) (source : Array UInt8) (id j : NodeId) :
    (tree.remember source id).previous? j = tree.previous? j :=
  previous?_modify _ _ _ fun node => by split <;> rfl

/-- Reading one node keeps its text if it is a run, and does nothing to any other. -/
theorem body?_remember (tree : Tree) (source : Array UInt8) (id j : NodeId) :
    (tree.remember source id).body? j =
      if id = j then
        (tree.body? j).map fun node =>
          if node.kind.isRun then { node with cached := node.text? source } else node
      else tree.body? j := by
  refine body?_modify _ _ _ fun node => ?_
  by_cases h : node.kind.isRun
  · have hbody : node.body.kind.isRun = true := h
    rw [if_pos h, if_pos hbody]
    rfl
  · have hbody : ¬ node.body.kind.isRun = true := h
    rw [if_neg h, if_neg hbody]

/-- The text of a run is the text kept, or that of its span. -/
theorem text?_of_isRun {node : Node} (h : node.kind.isRun = true) :
    node.text? source = some (node.cached.getD (node.span.read source)) := by
  unfold Node.text?
  split
  · simp_all [Kind.isRun]
  · simp_all [Kind.isRun]
  · simp_all [Kind.isRun, Leaf.isRun]
  · rw [if_pos h]

/-- No node changes by reading, but for a text that it may keep. -/
theorem kept_remember (source : Array UInt8) (id : NodeId) {j : NodeId} {node : Node}
    (h : tree.body? j = some node) :
    ∃ kept, (tree.remember source id).body? j = some kept ∧ node.Kept source kept := by
  rw [body?_remember, h]
  split
  · by_cases hrun : node.kind.isRun
    · refine ⟨_, rfl, Or.inr ?_⟩
      simp only [if_pos hrun, text?_of_isRun hrun]
    · refine ⟨_, rfl, Or.inl ?_⟩
      simp only [if_neg hrun]
  · exact ⟨node, rfl, Or.inl rfl⟩

@[simp] theorem size_rememberAll (tree : Tree) (source : Array UInt8) (ids : Array NodeId) :
    (tree.rememberAll source ids).size = tree.size := by
  unfold rememberAll
  refine Array.foldl_induction (motive := fun _ (t : Tree) => t.size = tree.size) rfl ?_
  intro i t ih
  rw [size_remember, ih]

@[simp] theorem next?_rememberAll (tree : Tree) (source : Array UInt8) (ids : Array NodeId)
    (j : NodeId) : (tree.rememberAll source ids).next? j = tree.next? j := by
  unfold rememberAll
  refine Array.foldl_induction (motive := fun _ (t : Tree) => t.next? j = tree.next? j) rfl ?_
  intro i t ih
  rw [next?_remember, ih]

@[simp] theorem previous?_rememberAll (tree : Tree) (source : Array UInt8) (ids : Array NodeId)
    (j : NodeId) : (tree.rememberAll source ids).previous? j = tree.previous? j := by
  unfold rememberAll
  refine Array.foldl_induction
    (motive := fun _ (t : Tree) => t.previous? j = tree.previous? j) rfl ?_
  intro i t ih
  rw [previous?_remember, ih]

/-- The same for reading several nodes, one after the other. -/
theorem kept_rememberAll (source : Array UInt8) (ids : Array NodeId) {j : NodeId} {node : Node}
    (h : tree.body? j = some node) :
    ∃ kept, (tree.rememberAll source ids).body? j = some kept ∧ node.Kept source kept := by
  unfold rememberAll
  refine Array.foldl_induction
    (motive := fun _ (t : Tree) => ∃ kept, t.body? j = some kept ∧ node.Kept source kept)
    ⟨node, h, Or.inl rfl⟩ ?_
  rintro i t ⟨kept, hkept, hnode⟩
  obtain ⟨again, hagain, hkeep⟩ := kept_remember source ids[i] hkept
  exact ⟨again, hagain, hnode.trans hkeep⟩

/-- Only the nodes asked for can change. -/
theorem body?_rememberAll_of_notMem {ids : Array NodeId} {j : NodeId} (h : j ∉ ids) :
    (tree.rememberAll source ids).body? j = tree.body? j := by
  unfold rememberAll
  refine Array.foldl_induction (motive := fun _ (t : Tree) => t.body? j = tree.body? j) rfl ?_
  intro i t ih
  have hne : ids[i] ≠ j := fun he => h (he ▸ Array.getElem_mem i.isLt)
  rw [body?_remember, if_neg hne, ih]

/-! ## 7. Names evaluated

The value of a name is the text of its children.  Evaluating a name reads them, so they keep their
texts, and sets the value in its own kind; whatever is no name is left alone. -/

/-- Sets the value of a name; any other node stays. -/
def named (value : String) (node : Node) : Node :=
  match node.kind with
  | .branch branch => { node with kind := .branch (withValue value branch) }
  | .leaf _ => node

/-- What evaluating a name comes to: read the children, then set the value. -/
theorem evaluate_of_isName {id : NodeId} (h : tree.isName id = true) :
    tree.evaluate source id =
      (tree.rememberAll source (tree.children id)).modify id
        (named (tree.joinedText source id)) := by
  rw [evaluate, if_pos h]
  rfl

theorem evaluate_of_not_isName {id : NodeId} (h : tree.isName id = false) :
    tree.evaluate source id = tree := by
  simp [evaluate, h]

@[simp] theorem size_evaluate (tree : Tree) (source : Array UInt8) (id : NodeId) :
    (tree.evaluate source id).size = tree.size := by
  cases h : tree.isName id <;> simp [evaluate, h]

@[simp] theorem next?_evaluate (tree : Tree) (source : Array UInt8) (id j : NodeId) :
    (tree.evaluate source id).next? j = tree.next? j := by
  cases h : tree.isName id with
  | false => rw [evaluate_of_not_isName h]
  | true =>
    rw [evaluate_of_isName h, next?_modify, next?_rememberAll]
    intro node
    unfold named
    split <;> rfl

@[simp] theorem previous?_evaluate (tree : Tree) (source : Array UInt8) (id j : NodeId) :
    (tree.evaluate source id).previous? j = tree.previous? j := by
  cases h : tree.isName id with
  | false => rw [evaluate_of_not_isName h]
  | true =>
    rw [evaluate_of_isName h, previous?_modify, previous?_rememberAll]
    intro node
    unfold named
    split <;> rfl

/-- Setting a value touches no link. -/
theorem body_named (value : String) (node : Node) :
    (named value node).body = named value node.body := by
  cases node with
  | mk kind =>
    cases kind <;> rfl

/-- Evaluating a name leaves all but the name and its children as they are. -/
theorem body?_evaluate_of_notMem {id j : NodeId} (hne : id ≠ j) (h : j ∉ tree.children id) :
    (tree.evaluate source id).body? j = tree.body? j := by
  cases hname : tree.isName id with
  | false => rw [evaluate_of_not_isName hname]
  | true =>
    rw [evaluate_of_isName hname, body?_modify _ _ _ (body_named _), if_neg hne,
      body?_rememberAll_of_notMem h]

/-- Of any other node, it can keep the text. -/
theorem kept_evaluate (source : Array UInt8) {id j : NodeId} (hne : id ≠ j) {node : Node}
    (h : tree.body? j = some node) :
    ∃ kept, (tree.evaluate source id).body? j = some kept ∧ node.Kept source kept := by
  cases hname : tree.isName id with
  | false => exact ⟨node, by rw [evaluate_of_not_isName hname, h], Or.inl rfl⟩
  | true =>
    obtain ⟨kept, hkept, hnode⟩ := kept_rememberAll source (tree.children id) h
    refine ⟨kept, ?_, hnode⟩
    rw [evaluate_of_isName hname, body?_modify _ _ _ (body_named _), if_neg hne, hkept]

/-- A branch gets its value, if it is a name, and stays as it is otherwise. -/
theorem body?_evaluate_self {id : NodeId} {node : Node} {branch : Branch}
    (h : tree.body? id = some node) (hkind : node.kind = .branch branch)
    (hown : id ∉ tree.children id) :
    (tree.evaluate source id).body? id =
      some { node with kind := .branch (withValue (tree.joinedText source id) branch) } := by
  cases hname : tree.isName id with
  | false =>
    rw [evaluate_of_not_isName hname, h]
    have hvalue : withValue (tree.joinedText source id) branch = branch := by
      have hkind? : tree.kind? id = some (.branch branch) := by
        rw [kind?_eq, h, Option.map_some, hkind]
      cases branch <;> simp [isName, hkind?] at hname <;> rfl
    rw [hvalue, ← hkind]
  | true =>
    rw [evaluate_of_isName hname, body?_modify _ _ _ (body_named _), if_pos rfl,
      body?_rememberAll_of_notMem hown, h, Option.map_some, named, hkind]

/-- Whatever a branch is, evaluating it leaves its place in the tree. -/
theorem exists_body?_evaluate (source : Array UInt8) {id : NodeId} {node : Node}
    (h : tree.body? id = some node) :
    ∃ node', (tree.evaluate source id).body? id = some node' ∧ node'.parent = node.parent ∧
      node'.children = node.children := by
  cases hname : tree.isName id with
  | false => exact ⟨node, by rw [evaluate_of_not_isName hname, h], rfl, rfl⟩
  | true =>
    obtain ⟨kept, hkept, hnode⟩ := kept_rememberAll source (tree.children id) h
    refine ⟨named (tree.joinedText source id) kept, ?_, ?_, ?_⟩
    · rw [evaluate_of_isName hname, body?_modify _ _ _ (body_named _), if_pos rfl, hkept]
      rfl
    · rcases hnode with rfl | rfl <;> (unfold named; split <;> rfl)
    · rcases hnode with rfl | rfl <;> (unfold named; split <;> rfl)

end Tree
end StyleLex
