/-
# What a census counts

A census walks through a tree and counts every node but the root.  To walk and to count are taken
apart: what the walk meets is a list of nodes with their depths (`Tree.census_eq`), and the
numbers of a list are proved of one node at a time (section 1).  So the census of a source agrees
with what the call reported, and its numbers agree with each other (`Lexer.tokenize_agrees`).

The census is the only place where the tree is summed up, so its numbers are compared with three
others: with what the call counted while it went on, with the tree itself, and with each other.  The
census leaves the root out and so does the call, whose nodes are those that it attached.

The depth of the census may be one more than that of the call: the census looks at all nodes, and a
leaf in the deepest branch is one deeper than that branch.
-/
import Mathlib.Algebra.Ring.Nat
import StyleLex.Proofs.Depths

namespace StyleLex

/-! ## 1. Numbers of a list of nodes

A list of nodes is counted from the left; what is proved here is by induction on it, from any census
to begin with. -/

namespace Census

/-- Counts some nodes, each with its depth. -/
def countAll (census : Census) (nodes : List (Node × Nat)) : Census :=
  nodes.foldl (fun census found => census.count found.1 found.2) census

variable {census : Census}

/-- One node is counted first. -/
theorem countAll_cons (census : Census) (found : Node × Nat) (nodes : List (Node × Nat)) :
    census.countAll (found :: nodes) = (census.count found.1 found.2).countAll nodes := rfl

/-- Every node adds one to the total. -/
theorem total_countAll (nodes : List (Node × Nat)) :
    (census.countAll nodes).total = census.total + nodes.length := by
  induction nodes generalizing census with
  | nil => rfl
  | cons found rest ih =>
    rw [countAll_cons, ih, List.length_cons]
    show census.total + 1 + rest.length = _
    omega

/-- Every malformed node adds one to the malformed ones. -/
theorem invalid_countAll (nodes : List (Node × Nat)) :
    (census.countAll nodes).invalid =
      census.invalid + nodes.countP fun found => !found.1.valid := by
  induction nodes generalizing census with
  | nil => rfl
  | cons found rest ih =>
    rw [countAll_cons, ih, List.countP_cons]
    show census.invalid + one (!found.1.valid) + _ = _
    rw [one]
    omega

/-- No node is deeper than the census says, and one is as deep, if there is any. -/
theorem depth_countAll (nodes : List (Node × Nat)) (census : Census) :
    census.depth ≤ (census.countAll nodes).depth ∧
      (∀ found ∈ nodes, found.2 ≤ (census.countAll nodes).depth) ∧
      ((census.countAll nodes).depth = census.depth ∨
        ∃ found ∈ nodes, (census.countAll nodes).depth = found.2) := by
  induction nodes generalizing census with
  | nil => exact ⟨Nat.le_refl _, List.forall_mem_nil _, Or.inl rfl⟩
  | cons found rest ih =>
    obtain ⟨hleast, hall, hsome⟩ := ih (census.count found.1 found.2)
    have hcounted : (census.count found.1 found.2).depth = max census.depth found.2 := rfl
    rw [hcounted] at hleast hsome
    rw [countAll_cons]
    refine ⟨by omega, List.forall_mem_cons.mpr ⟨by omega, hall⟩, ?_⟩
    rcases hsome with heq | ⟨deepest, hin, heq⟩
    · rcases Nat.le_total found.2 census.depth with hle | hle
      · exact Or.inl (heq.trans (Nat.max_eq_left hle))
      · exact Or.inr ⟨found, List.mem_cons_self, heq.trans (Nat.max_eq_right hle)⟩
    · exact Or.inr ⟨deepest, List.mem_cons_of_mem _ hin, heq⟩

/-- The numbers of a census agree with each other: every node is a branch or a leaf, and it has
one kind. -/
structure Balanced (census : Census) : Prop where
  sorts : census.total = census.branches + census.leaves
  kinds : census.total = (census.byKind.map Prod.snd).sum

/-- Counting a name once adds one to all numbers together, whether the name is new or not. -/
theorem sum_increment (name : String) (numbers : List (String × Nat)) :
    ((increment name numbers).map Prod.snd).sum = (numbers.map Prod.snd).sum + 1 := by
  induction numbers with
  | nil => rfl
  | cons first rest ih =>
    obtain ⟨known, n⟩ := first
    rw [increment]
    split
    · simp only [List.map_cons, List.sum_cons]
      omega
    · split
      · simp only [List.map_cons, List.sum_cons]
        omega
      · simp only [List.map_cons, List.sum_cons, ih]
        omega

/-- **One more node keeps a census balanced.** -/
theorem Balanced.count (h : census.Balanced) (node : Node) (depth : Nat) :
    (census.count node depth).Balanced where
  sorts := by
    show census.total + 1 = census.branches + one node.kind.isBranch +
      (census.leaves + one (!node.kind.isBranch))
    have hone : one node.kind.isBranch + one (!node.kind.isBranch) = 1 := by
      cases node.kind.isBranch <;> rfl
    have := h.sorts
    omega
  kinds := by
    show census.total + 1 = ((increment node.kind.name census.byKind).map Prod.snd).sum
    rw [sum_increment, h.kinds]

/-- So do several. -/
theorem Balanced.countAll (nodes : List (Node × Nat)) {census : Census} (h : census.Balanced) :
    (census.countAll nodes).Balanced := by
  induction nodes generalizing census with
  | nil => exact h
  | cons found rest ih => exact ih (h.count found.1 found.2)

/-- With nothing counted, all numbers are zero. -/
theorem balanced_empty : Balanced {} := ⟨rfl, rfl⟩

end Census

/-! ## 2. Walks

The walk of a census is the one downwards from the root, which is met first and passed over. -/

namespace Tree

variable {tree : Tree}

/-- The node with an id, and its depth. -/
def withDepth? (tree : Tree) (id : NodeId) : Option (Node × Nat) :=
  (tree.node? id).map fun node => (node, tree.depth id)

/-- **A census counts what a walk meets behind the root.** -/
theorem census_eq {ids : List NodeId} (hwalk : (tree.preorder root).toList = root :: ids)
    (hroot : root ∉ ids) :
    Census.ofTree tree = Census.countAll {} (ids.filterMap tree.withDepth?) := by
  -- over any list of ids, the root is passed over wherever it stands
  have hfold : ∀ (ids : List NodeId) (census : Census),
      ids.foldl (fun census id => (tree.node? id).elim census fun node =>
        if id = root then census else census.count node (tree.depth id)) census =
      census.countAll ((ids.filter (· ≠ root)).filterMap tree.withDepth?) := by
    intro ids
    induction ids with
    | nil => exact fun _ => rfl
    | cons id rest ih =>
      intro census
      rw [List.foldl_cons, ih]
      by_cases hid : id = root
      · rw [List.filter_cons_of_neg (by simp [hid])]
        cases tree.node? id with
        | none => rfl
        | some node => rw [Option.elim_some, if_pos hid]
      · rw [List.filter_cons_of_pos (by simp [hid]), List.filterMap_cons, withDepth?]
        cases tree.node? id with
        | none => rfl
        | some node =>
          rw [Option.elim_some, if_neg hid]
          rfl
  have hrest : (root :: ids).filter (· ≠ root) = ids := by
    rw [List.filter_cons_of_neg (by simp), List.filter_eq_self]
    intro id hid
    simpa using fun heq : id = root => hroot (heq ▸ hid)
  -- the definition, with its three cases brought into the form above
  have hturn : Census.ofTree tree = (tree.preorder root).toList.foldl (fun census id =>
      (tree.node? id).elim census fun node =>
        if id = root then census else census.count node (tree.depth id)) {} := by
    rw [Census.ofTree, ← Array.foldl_toList]
    congr 1
    funext census id
    cases tree.node? id <;> rfl
  rw [hturn, hwalk, hfold, hrest]

/-- The malformed nodes that a walk meets, if the root is not one of them. -/
theorem size_invalid {ids : List NodeId} (hwalk : (tree.preorder root).toList = root :: ids)
    {node : Node} (hnode : tree.node? root = some node) (hvalid : node.valid = true) :
    tree.invalid.size =
      (ids.filterMap tree.withDepth?).countP fun found => !found.1.valid := by
  have hcount : ∀ ids : List NodeId,
      (ids.filter fun id => (tree.node? id).any fun node => !node.valid).length =
        (ids.filterMap tree.withDepth?).countP fun found => !found.1.valid := by
    intro ids
    induction ids with
    | nil => rfl
    | cons id rest ih =>
      rw [List.filter_cons, List.filterMap_cons, withDepth?]
      cases tree.node? id with
      | none => exact ih
      | some found =>
        cases hfound : found.valid with
        | true => simp [hfound, ih]
        | false => simp [hfound, ih]
  rw [invalid, ← Array.length_toList, Array.toList_filter, hwalk, List.filter_cons_of_neg, hcount]
  simp [hnode, hvalid]

end Tree

/-! ## 3. A source and its census

The tree is ordered, so the walk meets each node once, and every node but the root stands below a
branch. -/

/-- The numbers of an outcome, the census of its tree and the tree itself agree, for a tree that
began as a root. -/
structure Outcome.Agrees (outcome : Outcome) (census : Census) : Prop where
  nodes : 1 + outcome.metrics.nodes = outcome.tree.size
  /-- The largest number of open branches is the depth of the deepest branch. -/
  depth : IsGreatest {depth | ∃ id branch, outcome.tree.kind? id = some (.branch branch) ∧
    outcome.tree.depth id = depth} outcome.metrics.depth
  /-- The deepest node is that branch, or right below a branch of its depth. -/
  deepest : census.depth = outcome.metrics.depth ∨ census.depth = outcome.metrics.depth + 1
  total : census.total = outcome.metrics.nodes
  sorts : census.total = census.branches + census.leaves
  kinds : census.total = (census.byKind.map Prod.snd).sum
  invalid : census.invalid = outcome.tree.invalid.size

namespace Lexer

variable {ids : List NodeId}

/-- The walk through the tree of a source begins at the root and meets every other node. -/
theorem exists_walk (lexer : Lexer) (source : Source) :
    ∃ ids : List NodeId,
      ((lexer.tokenize source).tree.preorder Tree.root).toList = Tree.root :: ids ∧
      Tree.root ∉ ids ∧ 1 + ids.length = (lexer.tokenize source).tree.size ∧
      ∀ id, id ∈ ids ↔ id < (lexer.tokenize source).tree.size ∧ id ≠ Tree.root := by
  obtain ⟨outline, h, hrange⟩ := lexer.tokenize_ordered source
  obtain ⟨-, hids, -⟩ := lexer.tokenize_grown source
  have hnodup : (Tree.root :: Item.ids (lexer.items source)).Nodup := by
    rw [hids]
    exact List.nodup_range
  have hroot := (List.nodup_cons.mp hnodup).1
  refine ⟨Item.ids (lexer.items source), ?_, hroot, ?_, fun id => ?_⟩
  · rw [hids, ← hrange, ← h.label]
    exact h.outlines.preorder_eq (Nat.le_of_eq h.length_eq)
  · have hlength := congrArg List.length hids
    rw [List.length_cons, List.length_range] at hlength
    omega
  · rw [← List.mem_range, ← hids, List.mem_cons]
    constructor
    · exact fun hin => ⟨Or.inr hin, fun hid => hroot (hid ▸ hin)⟩
    · exact fun hid => hid.1.resolve_left hid.2

/-- The deepest node of a source is the deepest branch, or right below a branch of its depth. -/
theorem depth_census (lexer : Lexer) (source : Source)
    (hin : ∀ id, id ∈ ids ↔ id < (lexer.tokenize source).tree.size ∧ id ≠ Tree.root) :
    (Census.countAll {} (ids.filterMap (lexer.tokenize source).tree.withDepth?)).depth =
        (lexer.tokenize source).metrics.depth ∨
      (Census.countAll {} (ids.filterMap (lexer.tokenize source).tree.withDepth?)).depth =
        (lexer.tokenize source).metrics.depth + 1 := by
  obtain ⟨outline, h, -⟩ := lexer.tokenize_ordered source
  obtain ⟨⟨id, branch, hkind, hdepth⟩, hupper⟩ := lexer.isGreatest_depth source
  have habove := fun id : NodeId => @exists_branch_above id lexer source
  generalize (lexer.tokenize source).tree = tree at *
  generalize (lexer.tokenize source).metrics.depth = peak at *
  obtain ⟨-, hall, hsome⟩ := Census.depth_countAll (ids.filterMap tree.withDepth?) {}
  generalize (Census.countAll {} (ids.filterMap tree.withDepth?)).depth = depth at *
  -- the deepest branch is counted, unless it is the root
  have hleast : peak ≤ depth := by
    by_cases hid : id = Tree.root
    · rw [← hdepth, hid, h.depth_root]
      exact Nat.zero_le _
    · obtain ⟨node, hnode, -⟩ := Option.map_eq_some_iff.mp hkind
      rw [← hdepth]
      refine hall (node, tree.depth id) (List.mem_filterMap.mpr ⟨id, ?_, ?_⟩)
      · exact (hin id).mpr ⟨Tree.lt_size_of_node? hnode, hid⟩
      · rw [Tree.withDepth?, hnode, Option.map_some]
  -- whatever is deepest stands right below a branch
  have hmost : depth ≤ peak + 1 := by
    rcases hsome with heq | ⟨found, hfound, heq⟩
    · rw [heq]
      exact Nat.zero_le _
    · obtain ⟨id, hid, hnode⟩ := List.mem_filterMap.mp hfound
      obtain ⟨node, -, rfl⟩ := Option.map_eq_some_iff.mp hnode
      obtain ⟨hlt, hne⟩ := (hin id).mp hid
      obtain ⟨parent, around, hparent, hkind⟩ := habove id hlt hne
      have hle := hupper ⟨parent, around, hkind, rfl⟩
      rw [heq, h.depth_child hparent]
      exact Nat.succ_le_succ hle
  omega

/-- **The numbers of a source agree with its tree.** -/
theorem tokenize_agrees (lexer : Lexer) (source : Source) :
    (lexer.tokenize source).Agrees (Census.ofTree (lexer.tokenize source).tree) := by
  obtain ⟨ids, hwalk, hroot, hlength, hin⟩ := lexer.exists_walk source
  obtain ⟨node, hnode, hvalid, -⟩ := lexer.exists_root_valid source
  have hsize : 1 + (lexer.tokenize source).metrics.nodes = (lexer.tokenize source).tree.size :=
    lexer.size_extend (Tree.new source.filename source.start) Tree.root .root source
  rw [Tree.census_eq hwalk hroot]
  have hbalanced := Census.balanced_empty.countAll
    (ids.filterMap (lexer.tokenize source).tree.withDepth?)
  refine ⟨hsize, lexer.isGreatest_depth source, lexer.depth_census source hin, ?_,
    hbalanced.sorts, hbalanced.kinds, ?_⟩
  · have hfound : (ids.filterMap (lexer.tokenize source).tree.withDepth?).length = ids.length := by
      refine List.filterMap_length_eq_length.mpr fun id hid => ?_
      obtain ⟨node, hnode⟩ := Tree.exists_node ((hin id).mp hid).1
      rw [Tree.withDepth?, hnode]
      rfl
    rw [Census.total_countAll, hfound]
    show 0 + ids.length = _
    omega
  · rw [Census.invalid_countAll, Tree.size_invalid hwalk hnode hvalid]
    exact Nat.zero_add _

/-- **The numbers of a call agree with the tree.**  A call that succeeds reports how many nodes it
added, to any tree; of a source, it also reports how deep the branches stand, and the census counts
what was added. -/
theorem numbers_agree (lexer : Lexer) :
    (∀ (tree : Tree) (id : NodeId) (source : Source) (outcome : Outcome),
      lexer.resume tree id source = .ok outcome →
        tree.size + outcome.metrics.nodes = outcome.tree.size) ∧
    ∀ source : Source,
      (lexer.tokenize source).Agrees (Census.ofTree (lexer.tokenize source).tree) := by
  refine ⟨fun tree id source outcome hresume => ?_, fun source => lexer.tokenize_agrees source⟩
  obtain ⟨origin, branch, -, -, hextend⟩ | ⟨leaf, -, hrefused⟩ | ⟨-, hunknown⟩ :=
    lexer.resume_cases tree id source
  · obtain rfl := Except.ok.inj (hextend.symm.trans hresume)
    exact lexer.size_extend tree id branch source
  · cases hrefused.symm.trans hresume
  · cases hunknown.symm.trans hresume

/-- A blank that is added to a root is one node. -/
theorem blank_added_to_root : ∃ outcome : Outcome,
    resume ⟨Dialect.standard, Fragments.empty⟩ (Tree.new none Position.origin) Tree.root
      { bytes := #[0x20] } = .ok outcome ∧
    (Tree.new none Position.origin).size + outcome.metrics.nodes = outcome.tree.size :=
  ⟨_, rfl, (numbers_agree ⟨Dialect.standard, Fragments.empty⟩).1
    (Tree.new none Position.origin) Tree.root { bytes := #[0x20] } _ rfl⟩

end Lexer
end StyleLex
