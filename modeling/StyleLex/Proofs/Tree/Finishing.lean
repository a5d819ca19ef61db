/-
# The end of an assembly

When an assembly ends, the branch that it added to ends where the scan did.  A name has its value
made anew of the texts of all its children, and a hash is settled; any other branch stays what it
is (`Realizes.finish_base`).

The branch that a call adds to is treated unlike the branches inside it.  Its kind and its flag are
those from before, whatever the scan found, except for a hash: more of it was read, so its color is
settled again, and with it whether it is malformed.  And its value is made of all of its children,
those from before included, for the text of a name is the text of all that is below it.

`Node.finish` says this in one definition, node by node; `Assembly.finish` does it in three steps on
a tree, and the two are shown to agree.
-/
import StyleLex.Proofs.Scan.Ending
import StyleLex.Proofs.Tree.Growth

namespace StyleLex

/-! ## 1. The branch that was added to -/

/-- The node of a branch that was added to, in the end.  `final` is what the scan has made of the
branch, and `value` the value of a name. -/
def Node.finish (final : Branch) (value : String) (stop : Position) (node : Node) : Node :=
  let ended := { node with span := { node.span with stop := stop } }
  match node.kind, final with
  | .branch (.identifier _), _ => { ended with kind := .branch (.identifier value) }
  | .branch (.hash _), .hash hash =>
    { ended with
      kind := .branch (.hash { hash.settle with value := value })
      valid := hash.settle.isValid }
  | _, _ => ended

/-- The node as the scan has left it: a hash is settled. -/
def Node.mark (final : Branch) (node : Node) : Node :=
  match final with
  | .hash hash => node.become (.hash hash.settle) hash.settle.isValid
  | _ => node

/-- Settling a hash touches no link. -/
theorem Node.body_mark (final : Branch) (node : Node) :
    (node.mark final).body = node.body.mark final := by
  cases final <;> rfl

/-- Nor any child. -/
theorem Node.children_mark (final : Branch) (node : Node) :
    (node.mark final).children = node.children := by
  cases final <;> rfl

/-- A branch stays a name if it is one. -/
theorem Node.exists_kind_mark {node : Node} {began final : Branch}
    (hkind : node.kind = .branch began) (halike : began.Alike final) :
    ∃ branch, (node.mark final).kind = .branch branch ∧ branch.isName = began.isName := by
  cases halike with
  | hash before after => exact ⟨_, rfl, rfl⟩
  | refl =>
    cases began with
    | hash hash => exact ⟨_, rfl, rfl⟩
    | _ => exact ⟨_, hkind, rfl⟩

/-- To end a branch is to mark it, to give it its value, and to set its end. -/
theorem Node.finish_eq {node : Node} {began final branch : Branch}
    (hkind : node.kind = .branch began) (halike : began.Alike final)
    (hmarked : (node.mark final).kind = .branch branch) (value : String) (stop : Position) :
    node.finish final value stop =
      { node.mark final with
        kind := .branch (Tree.withValue value branch)
        span := ⟨(node.mark final).span.start, stop⟩ } := by
  obtain ⟨kind, span, valid⟩ := node
  obtain rfl : kind = .branch began := hkind
  cases halike with
  | hash before after =>
    cases hmarked
    rfl
  | refl => cases began <;> (cases hmarked; rfl)

/-- A node gets its value from its children if its branch is a name. -/
theorem Tree.isName_eq {tree : Tree} {id : NodeId} {branch : Branch}
    (hkind : tree.kind? id = some (.branch branch)) : tree.isName id = branch.isName := by
  rw [isName, hkind]
  cases branch <;> rfl

/-- An assembly ends in three steps: the branch is marked, evaluated, and ends. -/
theorem Assembly.finish_eq (source : Array UInt8) (assembly : Assembly) (final : Branch)
    (stop : Position) :
    (assembly.finish source final stop).tree =
      (((assembly.settle stop).tree.modify (assembly.settle stop).branch (Node.mark final)).evaluate
        source (assembly.settle stop).branch).modify (assembly.settle stop).branch fun node =>
          { node with span := { node.span with stop := stop } } := by
  cases final with
  | hash hash => rfl
  | _ =>
    rw [show Node.mark _ = fun node => node from rfl, Tree.modify_self]
    rfl

/-! ## 2. Texts of the children

Between the steps the texts of the children stay what they are, although the tree changes: a child
may keep its text, and the branch itself is none of its children. -/

/-- The joined text is made of the texts of the children, and of nothing else. -/
theorem Tree.joinedText_of_text? {tree tree' : Tree} {source : Array UInt8} {id : NodeId}
    (hchildren : tree'.children id = tree.children id)
    (htext : ∀ child ∈ tree.children id, tree'.text? source child = tree.text? source child) :
    tree'.joinedText source id = tree.joinedText source id := by
  rw [joinedText, joinedText, hchildren, ← Array.foldl_toList, ← Array.foldl_toList]
  refine List.foldl_ext _ _ _ fun text child hchild => ?_
  rw [htext child (Array.mem_toList_iff.mp hchild)]

namespace Refreshed

variable {source : Array UInt8} {tree tree' : Tree} {id : NodeId}

/-- A node that is refreshed keeps its place. -/
theorem exists_body? (h : Refreshed source tree id tree') {j : NodeId} {node : Node}
    (hnode : tree.body? j = some node) : ∃ node', tree'.body? j = some node' ∧
      node'.parent = node.parent ∧ node'.children = node.children := by
  by_cases hj : j = id
  · subst hj
    exact h.self node hnode
  · obtain ⟨kept, hkept, hkeeps⟩ := h.kept j hj node hnode
    refine ⟨kept, hkept, ?_⟩
    rcases hkeeps with rfl | rfl <;> exact ⟨rfl, rfl⟩

/-- So its parent is the same. -/
theorem parent?_eq (h : Refreshed source tree id tree') {j : NodeId} (hj : j < tree.size) :
    tree'.parent? j = tree.parent? j := by
  obtain ⟨node, hnode⟩ := Tree.exists_node hj
  obtain ⟨node', hnode', hparent, -⟩ := h.exists_body? (Tree.body?_of_node? hnode)
  rw [Tree.parent?_eq, Tree.parent?_eq, hnode', Tree.body?_of_node? hnode]
  exact hparent

/-- And so are its children. -/
theorem children_eq (h : Refreshed source tree id tree') {j : NodeId} (hj : j < tree.size) :
    tree'.children j = tree.children j := by
  obtain ⟨node, hnode⟩ := Tree.exists_node hj
  obtain ⟨node', hnode', -, hchildren⟩ := h.exists_body? (Tree.body?_of_node? hnode)
  rw [Tree.children_eq, Tree.children_eq, hnode', Tree.body?_of_node? hnode]
  exact hchildren

/-- Refreshing a node moves no text but its own. -/
theorem text?_eq (h : Refreshed source tree id tree') {j : NodeId} (hne : j ≠ id) :
    tree'.text? source j = tree.text? source j := by
  rw [Tree.text?_eq, Tree.text?_eq]
  cases hbody : tree.body? j with
  | some node =>
    obtain ⟨kept, hkept, hkeeps⟩ := h.kept j hne node hbody
    rw [hkept, Option.bind_some, Option.bind_some, hkeeps.text?_eq]
  | none =>
    cases hbody' : tree'.body? j with
    | none => rfl
    | some node' =>
      obtain ⟨node, hnode⟩ := Tree.exists_node (h.size ▸ Tree.lt_size_of_body? hbody')
      simp [Tree.body?_of_node? hnode] at hbody

/-- The texts of the children are those from before. -/
theorem joinedText_eq (h : Refreshed source tree id tree') {node : Node}
    (hnode : tree.body? id = some node) (hown : id ∉ tree.children id) :
    tree'.joinedText source id = tree.joinedText source id := by
  refine Tree.joinedText_of_text? (h.children_eq (Tree.lt_size_of_body? hnode))
    fun child hchild => h.text?_eq ?_
  rintro rfl
  exact hown hchild

end Refreshed

/-- Where a node ends is no matter of the texts below it. -/
theorem Tree.joinedText_stop (tree : Tree) (source : Array UInt8) {id : NodeId}
    (hown : id ∉ tree.children id) (stop : Position) :
    (tree.modify id fun node => { node with span := { node.span with stop := stop } }).joinedText
      source id = tree.joinedText source id := by
  refine joinedText_of_text? ?_ fun child hchild => ?_
  · rw [children_eq, children_eq, body?_stop, if_pos rfl]
    cases tree.body? id <;> rfl
  · have hne : id ≠ child := fun heq => hown (heq ▸ hchild)
    rw [text?_eq, text?_eq, body?_stop, if_neg hne]

/-! ## 3. What becomes of it -/

namespace Realizes

variable {source : Array UInt8} {site : Site} {assembly : Assembly} {draft : Draft}

/-- The innermost branch is none of its own children. -/
theorem frame_notMem (h : Realizes source site assembly draft) (hsite : site.Sound)
    (hown : site.base ∉ site.given.children site.base) (houter : draft.outer = []) :
    site.base ∉ assembly.tree.children site.base := by
  obtain ⟨hbase, hbranch, -, horigin⟩ := h.outermost houter
  have hchildren := h.children_branch
  rw [hbranch] at hchildren
  rw [hchildren]
  intro hin
  rcases Array.mem_append.mp hin with hin | hin
  · rw [Tree.children_eq, horigin] at hown
    exact hown hin
  · obtain ⟨item, hitem, hid⟩ := List.mem_map.mp (List.mem_toArray.mp hin)
    exact (h.apart hsite).done _ List.mem_cons_self _ List.mem_cons_self
      (hbase ▸ hid ▸ Item.id_mem_ids hitem)

/-- **The branch that was added to is settled.** -/
theorem finish_base (h : Realizes source site assembly draft) (hsite : site.Sound)
    (hown : site.base ∉ site.given.children site.base) (houter : draft.outer = [])
    {began final : Branch} (hkind : draft.frame.origin.kind = .branch began)
    (halike : began.Alike final) (stop : Position) :
    (assembly.finish source final stop).tree.body? site.base =
      some ((draft.settle stop).frame.node.finish final
        ((assembly.finish source final stop).tree.joinedText source site.base) stop) := by
  have hs := h.settle hsite stop
  have hclear : (draft.settle stop).outer = [] := by rw [Draft.outer_settle, houter]
  obtain ⟨-, hbranch, hself, -⟩ := hs.outermost hclear
  have hnone := hs.frame_notMem hsite hown hclear
  have hsettled : (draft.settle stop).frame.node.kind = .branch began := by
    rw [Draft.Frame.node, Draft.origin_frame_settle, hkind]
  generalize (draft.settle stop).frame.node = node at hself hsettled ⊢
  have hmarked : ((assembly.settle stop).tree.modify site.base (Node.mark final)).body? site.base =
      some (node.mark final) := by
    rw [Tree.body?_modify _ _ _ (Node.body_mark final), if_pos rfl, hself, Option.map_some]
  have hown' : site.base ∉
      ((assembly.settle stop).tree.modify site.base (Node.mark final)).children site.base := by
    rw [Tree.children_eq, hself] at hnone
    rw [Tree.children_eq, hmarked, Option.map_some, Node.children_mark]
    exact hnone
  obtain ⟨branch, hbranchkind, -⟩ := Node.exists_kind_mark hsettled halike
  rw [assembly.finish_eq source final stop, hbranch]
  generalize (assembly.settle stop).tree.modify site.base (Node.mark final) = marked
    at hmarked hown' ⊢
  have hrefreshed := refreshed_evaluate source marked site.base
  have hchildren := hrefreshed.children_eq (Tree.lt_size_of_body? hmarked)
  rw [Tree.joinedText_stop _ source (hchildren ▸ hown') stop,
    hrefreshed.joinedText_eq hmarked hown', Tree.body?_stop, if_pos rfl,
    Tree.body?_evaluate_self hmarked hbranchkind hown', Option.map_some]
  exact congrArg some (Node.finish_eq hsettled halike hbranchkind _ stop).symm

end Realizes
end StyleLex
