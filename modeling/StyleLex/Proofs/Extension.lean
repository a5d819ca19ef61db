/-
# What a call adds

A call scans a source, assembles the marks, and leaves a tree that has grown by the items of its
draft (`Lexer.extend_realizes`, `Lexer.extend_ordered`).  For the call that makes a tree, the items
are all that there is below the root (`Lexer.tokenize_grown`).

This module joins two developments.  One follows the marks of any scan through an assembly
(`Realizes`), given that no mark closes the branch that the scan began in; the other one says of the
scan of a lexer that its marks are such (`Lexer.scan_admits`).  From here on the result of a call is
described by items and no assembly is mentioned again.

A tree that is made and a tree that is added to are the same case: making one is adding to the root
of a tree of nothing else.
-/
import StyleLex.Proofs.Scan.Drafting
import StyleLex.Proofs.Tree.Finishing
import StyleLex.Proofs.Tree.Grafting

namespace StyleLex

open Rose

namespace Lexer

variable {tree : Tree} {outline : Rose NodeId} {p : NodeId} {origin : Node}

/-- What resuming a node does: a branch is added to, a leaf or a node that is not there is
refused. -/
theorem resume_cases (lexer : Lexer) (tree : Tree) (id : NodeId) (source : Source) :
    (∃ origin branch, tree.body? id = some origin ∧ origin.kind = .branch branch ∧
      lexer.resume tree id source = .ok (lexer.extend tree id branch source)) ∨
    (∃ leaf, tree.kind? id = some (.leaf leaf) ∧
      lexer.resume tree id source = .error (.notABranch id leaf.name)) ∨
    (tree.kind? id = none ∧ lexer.resume tree id source = .error (.unknownNode id)) := by
  unfold resume branchToResume
  rw [Tree.kind?_eq]
  cases tree.body? id with
  | none => exact Or.inr (Or.inr ⟨rfl, rfl⟩)
  | some origin =>
    obtain ⟨kind, span, valid⟩ := origin
    cases kind with
    | leaf leaf => exact Or.inr (Or.inl ⟨leaf, rfl, rfl⟩)
    | branch branch => exact Or.inl ⟨_, branch, rfl, rfl, rfl⟩

/-- The marks of a call are assembled as they are drafted. -/
theorem extend_realizes (lexer : Lexer) (h : tree.Ordered outline)
    (horigin : tree.body? p = some origin) (branch : Branch) (source : Source) :
    ∃ site : Site, site.given = tree ∧ site.base = p ∧ Tree.Ordered.IsSite outline site ∧
      Realizes source.bytes site
        ((Assembly.into tree p).takeAll source.bytes (lexer.scan branch source).marks.reverse)
        ((Draft.into tree p origin).takeAll (lexer.scan branch source).marks.reverse) ∧
      ((Draft.into tree p origin).takeAll (lexer.scan branch source).marks.reverse).outer =
        [] := by
  obtain ⟨site, rfl, rfl, hsite⟩ := h.exists_site (Tree.lt_size_of_body? horigin)
  have hstart : (Draft.into site.given site.base origin).outer = [] := rfl
  obtain ⟨hadmits, houter⟩ := lexer.scan_admits branch source hstart
  exact ⟨site, rfl, rfl, hsite,
    Realizes.takeAll hsite.sound _ (Realizes.start horigin hsite.thread hsite.tail) hadmits,
    houter⟩

/-- **A call grafts what it read onto the branch that it names.** -/
theorem extend_ordered (lexer : Lexer) (h : tree.Ordered outline)
    (horigin : tree.body? p = some origin) (branch : Branch) (source : Source) :
    (lexer.extend tree p branch source).tree.Ordered (outline.graft p
      ((lexer.draft (Draft.into tree p origin) branch source).frame.done.map
        (Rose.map Label.id))) := by
  obtain ⟨site, rfl, rfl, hsite, hrealizes, houter⟩ :=
    lexer.extend_realizes h horigin branch source
  refine h.grow (Tree.lt_size_of_body? horigin) ?_ (hrealizes.finish hsite.sound houter _ _)
  rw [hsite.grafted, postorderAll_map]
  rfl

end Lexer

/-- A tree of nothing but a root is ordered. -/
theorem Tree.ordered_new (filename : Option String) (start : Position) :
    (Tree.new filename start).Ordered (.node root []) where
  label := rfl
  ids := List.Perm.refl _
  outlines := by
    intro sub hsub
    rcases mem_subtrees.mp hsub with rfl | hin
    · exact ⟨rfl, fun child hchild => by cases hchild⟩
    · simp at hin
  increasing := by
    intro sub hsub child hchild
    rcases mem_subtrees.mp hsub with rfl | hin
    · cases hchild
    · simp at hin
  orphan := rfl
  thread := ⟨rfl, rfl, trivial⟩

namespace Lexer

/-- The node with which a tree begins. -/
def rootOf (source : Source) : Node :=
  { kind := .branch .root, span := Span.point source.start }

/-- A new tree has its root and no other node. -/
theorem body?_new (source : Source) :
    (Tree.new source.filename source.start).body? Tree.root = some (rootOf source) := rfl

/-- The items of a source. -/
def items (lexer : Lexer) (source : Source) : List Item :=
  (lexer.draft (Draft.into (Tree.new source.filename source.start) Tree.root (rootOf source))
    .root source).frame.done

/-- The tree of a source is assembled in a new root. -/
theorem tokenize_eq (lexer : Lexer) (source : Source)
    (hroot : (lexer.scan .root source).frame.branch = .root) :
    (lexer.tokenize source).tree = (Assembly.finish source.bytes
      ((Assembly.into (Tree.new source.filename source.start) Tree.root).takeAll source.bytes
        (lexer.scan .root source).marks.reverse)
      .root (lexer.scan .root source).position).tree := by
  rw [tokenize, extend, hroot]

/-- **The tree of a source is its items, below a root.** -/
theorem tokenize_grown (lexer : Lexer) (source : Source) :
    (∀ item ∈ lexer.items source,
      (lexer.tokenize source).tree.Holds source.bytes (some Tree.root) item) ∧
    Tree.root :: Item.ids (lexer.items source) = List.range (lexer.tokenize source).tree.size ∧
    ((lexer.scan .root source).frame.branch = .root →
      (lexer.tokenize source).tree.body? Tree.root =
        some { kind := .branch .root
               span := ⟨source.start, (lexer.scan .root source).position⟩
               children := ((lexer.items source).map (·.label.id)).toArray }) := by
  have horigin := body?_new source
  obtain ⟨site, hgiven, hbase, ⟨hsound, -⟩, hrealizes, houter⟩ :=
    lexer.extend_realizes (Tree.ordered_new source.filename source.start) horigin .root source
  have hgrown : Grown source.bytes site (lexer.tokenize source).tree (lexer.items source) :=
    hrealizes.finish hsound houter _ _
  -- the items are held below the root; the numbers from one on are theirs; and the root is settled
  -- as a branch that was added to, having had no children before
  refine ⟨?_, ?_, ?_⟩
  · rw [← hbase]
    exact hgrown.held
  · have hsize : site.given.size = 1 := by
      rw [hgiven]
      rfl
    have hids := hgrown.ids
    have hgrew := hgrown.size
    rw [hsize] at hids hgrew
    rw [hids, List.range_eq_range', ← Nat.sub_add_cancel hgrew, List.range'_succ]
    rfl
  · intro hroot
    obtain ⟨-, -, -, hbegan⟩ := hrealizes.outermost houter
    rw [hgiven, hbase, horigin, Option.some.injEq] at hbegan
    have hown : site.base ∉ site.given.children site.base := by
      rw [hgiven, hbase]
      exact Array.not_mem_empty Tree.root
    have hfinish := hrealizes.finish_base hsound hown houter (hbegan ▸ rfl) (.refl .root)
      (lexer.scan .root source).position
    rw [hbase] at hfinish
    rw [lexer.tokenize_eq source hroot, hfinish, Draft.Frame.node, Draft.origin_frame_settle,
      ← hbegan]
    simp [rootOf, Span.point, items, draft, Node.finish]

/-- **The tree of a source is ordered**, and its nodes are numbered downwards from the root on. -/
theorem tokenize_ordered (lexer : Lexer) (source : Source) :
    ∃ outline, (lexer.tokenize source).tree.Ordered outline ∧
      outline.preorder = List.range (lexer.tokenize source).tree.size := by
  have hnew := Tree.ordered_new source.filename source.start
  refine ⟨_, lexer.extend_ordered hnew (body?_new source) .root source, ?_⟩
  rw [graft_node, List.map_nil, List.nil_append, if_pos rfl, preorder_node, preorderAll_map]
  exact (lexer.tokenize_grown source).2.1

end Lexer
end StyleLex
