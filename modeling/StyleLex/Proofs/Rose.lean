/-
# Rose trees

A rose tree is a label with rose trees below it.  It is what an arena of nodes stands for: the
labels are node ids where only the shape counts, and kinds with their spans where a statement is
about what was read.

Two orders matter.  `preorder` has a label before everything below it, `postorder` after it.
`graft` puts more trees below the tree with a given label; in both orders it inserts what is new
in one place (`postorder_graft`, `preorder_graft_perm`), and that is how a tree grows when a
branch of it is lexed on.

Subtrees are listed with repetition of structure and not as a set, because the two orders are lists
and every fact about them is one about positions: that each label occurs once, that those of a
subtree stand together (`preorder_sublist`, `postorder_within`), that the last label of a postorder
is that of the last tree (`getLast?_postorderAll`).  From these the arena gets its own facts for
nothing: a node has one place, a branch comes after its last child, and children have larger ids
than their parent (`label_lt_of_preorder`).

All inductions are on the tree and on the list of trees below it at once, so lemmas come in mutual
pairs, the second one with `All` in its name.
-/
import Mathlib.Data.List.Nodup

namespace StyleLex

inductive Rose (α : Type) where
  | node (label : α) (below : List (Rose α))

namespace Rose

open scoped List

variable {α β : Type}

/-! ## 1. Labels and orders -/

def label : Rose α → α
  | node a _ => a

def children : Rose α → List (Rose α)
  | node _ below => below

@[simp] theorem label_node (a : α) (below : List (Rose α)) : (node a below).label = a := rfl

@[simp] theorem children_node (a : α) (below : List (Rose α)) :
    (node a below).children = below := rfl

mutual

/-- A tree and all trees inside it, the outer ones first. -/
def subtrees : Rose α → List (Rose α)
  | node a below => node a below :: subtreesAll below

def subtreesAll : List (Rose α) → List (Rose α)
  | [] => []
  | tree :: rest => subtrees tree ++ subtreesAll rest

end

/-- The labels, every one before those below it. -/
def preorder (tree : Rose α) : List α := tree.subtrees.map label

def preorderAll (trees : List (Rose α)) : List α := (subtreesAll trees).map label

mutual

/-- The labels, every one after those below it. -/
def postorder : Rose α → List α
  | node a below => postorderAll below ++ [a]

def postorderAll : List (Rose α) → List α
  | [] => []
  | tree :: rest => postorder tree ++ postorderAll rest

end

@[simp] theorem subtreesAll_nil : subtreesAll ([] : List (Rose α)) = [] := by
  simp [subtreesAll]

@[simp] theorem subtreesAll_cons (tree : Rose α) (rest : List (Rose α)) :
    subtreesAll (tree :: rest) = subtrees tree ++ subtreesAll rest := by
  simp [subtreesAll]

@[simp] theorem preorderAll_nil : preorderAll ([] : List (Rose α)) = [] := by
  simp [preorderAll]

@[simp] theorem preorderAll_cons (tree : Rose α) (rest : List (Rose α)) :
    preorderAll (tree :: rest) = preorder tree ++ preorderAll rest := by
  simp [preorderAll, preorder]

@[simp] theorem preorder_node (a : α) (below : List (Rose α)) :
    (node a below).preorder = a :: preorderAll below := by
  simp [preorder, preorderAll, subtrees]

@[simp] theorem postorder_node (a : α) (below : List (Rose α)) :
    (node a below).postorder = postorderAll below ++ [a] := by
  simp [postorder]

@[simp] theorem postorderAll_nil : postorderAll ([] : List (Rose α)) = [] := by
  simp [postorderAll]

@[simp] theorem postorderAll_cons (tree : Rose α) (rest : List (Rose α)) :
    postorderAll (tree :: rest) = postorder tree ++ postorderAll rest := by
  simp [postorderAll]

@[simp] theorem subtreesAll_append (a b : List (Rose α)) :
    subtreesAll (a ++ b) = subtreesAll a ++ subtreesAll b := by
  induction a with
  | nil => simp
  | cons tree rest ih => simp [ih]

@[simp] theorem preorderAll_append (a b : List (Rose α)) :
    preorderAll (a ++ b) = preorderAll a ++ preorderAll b := by
  simp [preorderAll]

@[simp] theorem postorderAll_append (a b : List (Rose α)) :
    postorderAll (a ++ b) = postorderAll a ++ postorderAll b := by
  induction a with
  | nil => simp
  | cons tree rest ih => simp [ih]

/-- A tree ends with its own label in postorder. -/
theorem postorder_eq (tree : Rose α) :
    tree.postorder = postorderAll tree.children ++ [tree.label] := by
  cases tree
  simp

/-! ## 2. Inside a tree

The relation "stands inside" is membership in `subtrees`.  It is reflexive and transitive, and
whoever stands inside a tree is the tree itself or right below something inside it; that is what an
argument by cases on "the root or a node with a parent" needs. -/

theorem mem_subtrees_self (tree : Rose α) : tree ∈ tree.subtrees := by
  cases tree
  simp [subtrees]

theorem mem_subtreesAll {sub : Rose α} {trees : List (Rose α)} :
    sub ∈ subtreesAll trees ↔ ∃ tree ∈ trees, sub ∈ tree.subtrees := by
  induction trees with
  | nil => simp
  | cons tree rest ih => simp [ih]

theorem mem_subtrees {sub tree : Rose α} :
    sub ∈ tree.subtrees ↔ sub = tree ∨ sub ∈ subtreesAll tree.children := by
  cases tree
  simp [subtrees]

/-- What holds of a tree and of everything below its children holds of everything in it. -/
theorem forall_mem_subtrees {P : Rose α → Prop} {tree : Rose α} :
    (∀ sub ∈ tree.subtrees, P sub) ↔
      P tree ∧ ∀ child ∈ tree.children, ∀ sub ∈ child.subtrees, P sub := by
  refine ⟨fun h => ⟨h _ (mem_subtrees_self _), fun child hchild sub hsub => h sub ?_⟩, ?_⟩
  · exact mem_subtrees.mpr (Or.inr (mem_subtreesAll.mpr ⟨child, hchild, hsub⟩))
  · rintro ⟨hself, hbelow⟩ sub hsub
    rcases mem_subtrees.mp hsub with rfl | hin
    · exact hself
    · obtain ⟨child, hchild, hin⟩ := mem_subtreesAll.mp hin
      exact hbelow child hchild sub hin

theorem mem_subtrees_of_mem_children {sub tree : Rose α} (h : sub ∈ tree.children) :
    sub ∈ tree.subtrees :=
  mem_subtrees.mpr (Or.inr (mem_subtreesAll.mpr ⟨sub, h, mem_subtrees_self sub⟩))

mutual

/-- Standing inside is transitive. -/
theorem mem_subtrees_trans {a b : Rose α} : ∀ {tree : Rose α},
    a ∈ b.subtrees → b ∈ tree.subtrees → a ∈ tree.subtrees
  | node c below, hab, hb => by
    rcases mem_subtrees.mp hb with rfl | hb
    · exact hab
    · exact mem_subtrees.mpr (Or.inr (mem_subtreesAll_trans hab hb))

theorem mem_subtreesAll_trans {a b : Rose α} : ∀ {trees : List (Rose α)},
    a ∈ b.subtrees → b ∈ subtreesAll trees → a ∈ subtreesAll trees
  | tree :: rest, hab, hb => by
    rw [subtreesAll_cons, List.mem_append] at hb ⊢
    exact hb.imp (mem_subtrees_trans hab) (mem_subtreesAll_trans hab)

end

mutual

/-- A tree inside another one is that one, or right below one inside it. -/
theorem eq_or_exists_parent {sub : Rose α} : ∀ {tree : Rose α}, sub ∈ tree.subtrees →
    sub = tree ∨ ∃ parent ∈ tree.subtrees, sub ∈ parent.children
  | node a below, h => by
    rcases mem_subtrees.mp h with rfl | h
    · exact Or.inl rfl
    · rcases mem_or_exists_parentAll h with hin | ⟨parent, hparent, hin⟩
      · exact Or.inr ⟨node a below, mem_subtrees_self _, hin⟩
      · exact Or.inr ⟨parent, mem_subtrees.mpr (Or.inr hparent), hin⟩

theorem mem_or_exists_parentAll {sub : Rose α} : ∀ {trees : List (Rose α)},
    sub ∈ subtreesAll trees → sub ∈ trees ∨ ∃ parent ∈ subtreesAll trees, sub ∈ parent.children
  | tree :: rest, h => by
    rw [subtreesAll_cons, List.mem_append] at h
    rcases h with h | h
    · rcases eq_or_exists_parent h with rfl | ⟨parent, hparent, hin⟩
      · exact Or.inl List.mem_cons_self
      · exact Or.inr ⟨parent, by simp [hparent], hin⟩
    · rcases mem_or_exists_parentAll h with hin | ⟨parent, hparent, hin⟩
      · exact Or.inl (List.mem_cons_of_mem tree hin)
      · exact Or.inr ⟨parent, by simp [hparent], hin⟩

end

theorem mem_preorder {a : α} {tree : Rose α} :
    a ∈ tree.preorder ↔ ∃ sub ∈ tree.subtrees, sub.label = a := by
  simp [preorder]

theorem mem_preorderAll {a : α} {trees : List (Rose α)} :
    a ∈ preorderAll trees ↔ ∃ sub ∈ subtreesAll trees, sub.label = a := by
  simp [preorderAll]

theorem label_mem_preorder (tree : Rose α) : tree.label ∈ tree.preorder :=
  mem_preorder.mpr ⟨tree, mem_subtrees_self tree, rfl⟩

/-- The labels of the trees in a list are among all labels of the list. -/
theorem label_mem_preorderAll {tree : Rose α} {trees : List (Rose α)} (h : tree ∈ trees) :
    tree.label ∈ preorderAll trees :=
  mem_preorderAll.mpr ⟨tree, mem_subtreesAll.mpr ⟨tree, h, mem_subtrees_self tree⟩, rfl⟩

/-- The labels of the trees themselves stand among all labels in the order of the trees. -/
theorem labels_sublist (trees : List (Rose α)) : (trees.map label).Sublist (preorderAll trees) := by
  induction trees with
  | nil => simp
  | cons tree rest ih =>
    obtain ⟨a, below⟩ := tree
    rw [List.map_cons, preorderAll_cons, preorder_node, List.cons_append]
    exact (ih.trans (List.sublist_append_right _ _)).cons_cons a

mutual

/-- Both orders have the same labels, each as often. -/
theorem postorder_perm : ∀ tree : Rose α, tree.postorder.Perm tree.preorder
  | node a below => by
    rw [postorder_node, preorder_node]
    exact (List.perm_append_singleton a _).trans ((postorderAll_perm below).cons a)

theorem postorderAll_perm : ∀ trees : List (Rose α), (postorderAll trees).Perm (preorderAll trees)
  | [] => by simp
  | tree :: rest => by
    rw [postorderAll_cons, preorderAll_cons]
    exact (postorder_perm tree).append (postorderAll_perm rest)

end

mutual

/-- The labels of a tree inside another one stand together. -/
theorem preorder_sublist {sub : Rose α} : ∀ {tree : Rose α}, sub ∈ tree.subtrees →
    sub.preorder.Sublist tree.preorder
  | node a below, h => by
    rcases mem_subtrees.mp h with rfl | h
    · exact List.Sublist.refl _
    · rw [preorder_node]
      exact (preorder_sublist_all h).cons a

theorem preorder_sublist_all {sub : Rose α} : ∀ {trees : List (Rose α)},
    sub ∈ subtreesAll trees → sub.preorder.Sublist (preorderAll trees)
  | tree :: rest, h => by
    rw [subtreesAll_cons, List.mem_append] at h
    rw [preorderAll_cons]
    rcases h with h | h
    · exact (preorder_sublist h).trans (List.sublist_append_left _ _)
    · exact (preorder_sublist_all h).trans (List.sublist_append_right _ _)

end

mutual

/-- The postorder of a subtree is a stretch of the whole postorder, with nothing of the rest in
between. -/
theorem postorder_within {sub : Rose α} : ∀ {tree : Rose α}, sub ∈ tree.subtrees →
    sub.postorder <:+: tree.postorder
  | node a below, h => by
    rcases mem_subtrees.mp h with rfl | h
    · exact List.infix_rfl
    · rw [postorder_node]
      exact (postorder_within_all h).trans (List.prefix_append _ _).isInfix

theorem postorder_within_all {sub : Rose α} : ∀ {trees : List (Rose α)},
    sub ∈ subtreesAll trees → sub.postorder <:+: postorderAll trees
  | tree :: rest, h => by
    rw [subtreesAll_cons, List.mem_append] at h
    rw [postorderAll_cons]
    rcases h with h | h
    · exact (postorder_within h).trans (List.prefix_append _ _).isInfix
    · exact (postorder_within_all h).trans (List.suffix_append _ _).isInfix

end

/-- The postorder of some trees ends with the label of the last one. -/
theorem getLast?_postorderAll (trees : List (Rose α)) :
    (postorderAll trees).getLast? = (trees.map label).getLast? := by
  rcases List.eq_nil_or_concat trees with rfl | ⟨front, last, rfl⟩
  · simp
  · rw [List.concat_eq_append, postorderAll_append, postorderAll_cons, postorderAll_nil,
      postorder_eq]
    simp

/-- Where the preorder increases, labels increase downwards. -/
theorem label_lt_of_preorder [LT α] {trees : List (Rose α)}
    (h : (preorderAll trees).Pairwise (· < ·)) {sub child : Rose α}
    (hsub : sub ∈ subtreesAll trees) (hchild : child ∈ sub.children) :
    sub.label < child.label := by
  obtain ⟨a, below⟩ := sub
  have hpairwise := h.sublist (preorder_sublist_all hsub)
  rw [preorder_node, List.pairwise_cons] at hpairwise
  exact hpairwise.1 _ (label_mem_preorderAll hchild)

/-! ## 3. Relabelling

An item of a scan carries more than an arena of nodes keeps, so the same tree is looked at with one
label and with another.  Relabelling commutes with everything above, which lets a statement about
ids be read off one about items. -/

mutual

def map (f : α → β) : Rose α → Rose β
  | node a below => node (f a) (mapAll f below)

def mapAll (f : α → β) : List (Rose α) → List (Rose β)
  | [] => []
  | tree :: rest => map f tree :: mapAll f rest

end

/-- The two ways to relabel a list of trees agree; proofs use `List.map`. -/
theorem mapAll_eq (f : α → β) : ∀ trees : List (Rose α), mapAll f trees = trees.map (map f)
  | [] => by simp [mapAll]
  | tree :: rest => by simp [mapAll, mapAll_eq f rest]

@[simp] theorem map_node (f : α → β) (a : α) (below : List (Rose α)) :
    (node a below).map f = node (f a) (below.map (map f)) := by
  simp [map, mapAll_eq]

@[simp] theorem label_map (f : α → β) (tree : Rose α) : (tree.map f).label = f tree.label := by
  cases tree
  simp

@[simp] theorem children_map (f : α → β) (tree : Rose α) :
    (tree.map f).children = tree.children.map (map f) := by
  cases tree
  simp

mutual

@[simp] theorem subtrees_map (f : α → β) : ∀ tree : Rose α,
    (tree.map f).subtrees = tree.subtrees.map (map f)
  | node a below => by
    rw [map_node, subtrees, subtrees, List.map_cons, map_node, subtreesAll_map f below]

@[simp] theorem subtreesAll_map (f : α → β) : ∀ trees : List (Rose α),
    subtreesAll (trees.map (map f)) = (subtreesAll trees).map (map f)
  | [] => by simp
  | tree :: rest => by
    rw [List.map_cons, subtreesAll_cons, subtreesAll_cons, List.map_append, subtrees_map f tree,
      subtreesAll_map f rest]

end

@[simp] theorem preorderAll_map (f : α → β) (trees : List (Rose α)) :
    preorderAll (trees.map (map f)) = (preorderAll trees).map f := by
  simp [preorderAll]

mutual

@[simp] theorem postorder_map (f : α → β) : ∀ tree : Rose α,
    (tree.map f).postorder = tree.postorder.map f
  | node a below => by
    rw [map_node, postorder_node, postorder_node, List.map_append, postorderAll_map f below]
    rfl

@[simp] theorem postorderAll_map (f : α → β) : ∀ trees : List (Rose α),
    postorderAll (trees.map (map f)) = (postorderAll trees).map f
  | [] => by simp
  | tree :: rest => by
    rw [List.map_cons, postorderAll_cons, postorderAll_cons, List.map_append,
      postorder_map f tree, postorderAll_map f rest]

end

/-! ## 4. Grafting

A call that resumes a branch adds trees below one node, after the children that are there.  The
postorder then has the new labels right before the label of that node, and all others where they
were; so the arena can realize a graft by splicing one stretch into its thread. -/

section Graft

variable [DecidableEq α]

mutual

/-- Puts `fresh` below the tree labelled `a`, after what is there. -/
def graft (a : α) (fresh : List (Rose α)) : Rose α → Rose α
  | node b below => node b (graftAll a fresh below ++ if b = a then fresh else [])

def graftAll (a : α) (fresh : List (Rose α)) : List (Rose α) → List (Rose α)
  | [] => []
  | tree :: rest => graft a fresh tree :: graftAll a fresh rest

end

variable {a : α} {fresh : List (Rose α)}

/-- As for `map`, proofs use `List.map`. -/
theorem graftAll_eq (a : α) (fresh : List (Rose α)) :
    ∀ trees : List (Rose α), graftAll a fresh trees = trees.map (graft a fresh)
  | [] => by simp [graftAll]
  | tree :: rest => by simp [graftAll, graftAll_eq a fresh rest]

@[simp] theorem graft_node (b : α) (below : List (Rose α)) :
    graft a fresh (node b below) =
      node b (below.map (graft a fresh) ++ if b = a then fresh else []) := by
  simp [graft, graftAll_eq]

@[simp] theorem label_graft (tree : Rose α) : (tree.graft a fresh).label = tree.label := by
  cases tree
  simp

mutual

/-- Nothing is grafted where the label does not occur. -/
theorem graft_of_not_mem : ∀ tree : Rose α, a ∉ tree.preorder → tree.graft a fresh = tree
  | node b below, h => by
    simp only [preorder_node, List.mem_cons, not_or] at h
    rw [graft_node, graftAll_of_not_mem below h.2, if_neg (Ne.symm h.1), List.append_nil]

theorem graftAll_of_not_mem : ∀ trees : List (Rose α), a ∉ preorderAll trees →
    trees.map (graft a fresh) = trees
  | [], _ => rfl
  | tree :: rest, h => by
    simp only [preorderAll_cons, List.mem_append, not_or] at h
    rw [List.map_cons, graft_of_not_mem tree h.1, graftAll_of_not_mem rest h.2]

end

mutual

/-- **Grafting inserts in one place of the postorder**, right before the label grafted on. -/
theorem postorder_graft : ∀ tree : Rose α, a ∈ tree.preorder → tree.preorder.Nodup →
    ∃ before after, tree.postorder = before ++ a :: after ∧
      ∀ fresh, (tree.graft a fresh).postorder = before ++ postorderAll fresh ++ a :: after
  | node b below, hmem, hnd => by
    -- either this is the tree grafted on, and its own label is the place; or the place is below,
    -- and what comes behind it there is followed by the own label
    simp only [preorder_node, List.nodup_cons] at hnd
    by_cases hb : b = a
    · subst hb
      refine ⟨postorderAll below, [], rfl, ?_⟩
      intro fresh
      rw [graft_node, postorder_node, postorderAll_append, graftAll_of_not_mem below hnd.1,
        if_pos rfl]
    · have hin : a ∈ preorderAll below := by
        simpa [Ne.symm hb] using hmem
      obtain ⟨before, after, hold, hnew⟩ := postorderAll_graft below hin hnd.2
      refine ⟨before, after ++ [b], ?_, ?_⟩
      · rw [postorder_node, hold]; simp
      · intro fresh
        rw [graft_node, postorder_node, postorderAll_append, hnew fresh, if_neg hb]; simp

theorem postorderAll_graft : ∀ trees : List (Rose α), a ∈ preorderAll trees →
    (preorderAll trees).Nodup →
    ∃ before after, postorderAll trees = before ++ a :: after ∧
      ∀ fresh, postorderAll (trees.map (graft a fresh)) =
        before ++ postorderAll fresh ++ a :: after
  | [], hmem, _ => by simp at hmem
  | tree :: rest, hmem, hnd => by
    rw [preorderAll_cons] at hmem hnd
    obtain ⟨hnd₁, hnd₂, hdis⟩ := List.nodup_append'.mp hnd
    by_cases htree : a ∈ tree.preorder
    · obtain ⟨before, after, hold, hnew⟩ := postorder_graft tree htree hnd₁
      refine ⟨before, after ++ postorderAll rest, ?_, ?_⟩
      · rw [postorderAll_cons, hold]; simp
      · intro fresh
        rw [List.map_cons, postorderAll_cons, hnew fresh,
          graftAll_of_not_mem rest (fun h => hdis htree h)]
        simp
    · have hrest : a ∈ preorderAll rest := by
        simpa [htree] using hmem
      obtain ⟨before, after, hold, hnew⟩ := postorderAll_graft rest hrest hnd₂
      refine ⟨tree.postorder ++ before, after, ?_, ?_⟩
      · rw [postorderAll_cons, hold]; simp
      · intro fresh
        rw [List.map_cons, postorderAll_cons, hnew fresh, graft_of_not_mem tree htree]
        simp

end

mutual

/-- Inside a grafted tree stand the old trees, grafted, and the fresh ones. -/
theorem mem_subtrees_graft {sub : Rose α} : ∀ {tree : Rose α},
    sub ∈ (tree.graft a fresh).subtrees →
    (∃ old ∈ tree.subtrees, sub = old.graft a fresh) ∨ sub ∈ subtreesAll fresh
  | node b below, h => by
    rcases mem_subtrees.mp h with rfl | h
    · exact Or.inl ⟨_, mem_subtrees_self _, rfl⟩
    · rw [graft_node, children_node, subtreesAll_append, List.mem_append] at h
      rcases h with h | h
      · rcases mem_subtreesAll_graft h with ⟨old, hold, rfl⟩ | hfresh
        · exact Or.inl ⟨old, mem_subtrees.mpr (Or.inr hold), rfl⟩
        · exact Or.inr hfresh
      · split at h
        · exact Or.inr h
        · simp at h

theorem mem_subtreesAll_graft {sub : Rose α} : ∀ {trees : List (Rose α)},
    sub ∈ subtreesAll (trees.map (graft a fresh)) →
    (∃ old ∈ subtreesAll trees, sub = old.graft a fresh) ∨ sub ∈ subtreesAll fresh
  | tree :: rest, h => by
    rw [List.map_cons, subtreesAll_cons, List.mem_append] at h
    rw [subtreesAll_cons]
    rcases h with h | h
    · rcases mem_subtrees_graft h with ⟨old, hold, rfl⟩ | hfresh
      · exact Or.inl ⟨old, List.mem_append_left _ hold, rfl⟩
      · exact Or.inr hfresh
    · rcases mem_subtreesAll_graft h with ⟨old, hold, rfl⟩ | hfresh
      · exact Or.inl ⟨old, List.mem_append_right _ hold, rfl⟩
      · exact Or.inr hfresh

end

/-- The children of a grafted tree are the old ones, grafted themselves, and behind them what is new
if this is the tree grafted on. -/
theorem children_graft (tree : Rose α) :
    (tree.graft a fresh).children =
      tree.children.map (graft a fresh) ++ if tree.label = a then fresh else [] := by
  cases tree
  rw [graft_node]
  rfl

/-- **Grafting adds the fresh labels and no others.** -/
theorem preorder_graft_perm {tree : Rose α} (hmem : a ∈ tree.preorder)
    (hnd : tree.preorder.Nodup) :
    (tree.graft a fresh).preorder.Perm (tree.preorder ++ preorderAll fresh) := by
  obtain ⟨before, after, hold, hnew⟩ := postorder_graft tree hmem hnd
  have hfresh : (postorderAll fresh ++ a :: after).Perm (a :: after ++ preorderAll fresh) :=
    List.perm_append_comm.trans ((postorderAll_perm fresh).append_left _)
  calc (tree.graft a fresh).preorder
      ~ before ++ (postorderAll fresh ++ a :: after) := by
        rw [← List.append_assoc, ← hnew fresh]
        exact (postorder_perm _).symm
    _ ~ before ++ (a :: after ++ preorderAll fresh) := hfresh.append_left before
    _ ~ tree.preorder ++ preorderAll fresh := by
        rw [← List.append_assoc, ← hold]
        exact (postorder_perm tree).append_right _

end Graft

end Rose
end StyleLex
