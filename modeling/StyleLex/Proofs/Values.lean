/-
# Values of names

Identifiers and hashes carry the text of their children as their value.  The value is made when a
name closes, and made anew when a call has added to one; no name stands right below a name, so a
value that changes is part of no other value.  After every call each name has the value that it
would get if it were evaluated (`Lexer.extend_valued`): evaluating a name says nothing new.

That no name is part of another value is what makes this a local matter.  If a name stood below a
name, adding to the inner one would change a text that the outer one has read, and the outer one
would have to be made anew as well, and so on upwards.  As it is, a value is made of the texts of
leaves, and these do not change once they have an end.
-/
import StyleLex.Proofs.Added
import StyleLex.Proofs.Scan.Below

namespace StyleLex

/-! ## 1. Trees whose names have their values

Setting a value is idempotent, and does nothing to a branch that is no name.  So "has its value" can
be written as an equation for all branches alike. -/

namespace Tree

/-- What is no name has no value to be set. -/
theorem withValue_of_not_isName {branch : Branch} (h : branch.isName = false) (value : String) :
    withValue value branch = branch := by
  cases branch with
  | identifier => cases h
  | hash => cases h
  | _ => rfl

/-- The value that was set last counts. -/
@[simp] theorem withValue_withValue (value before : String) (branch : Branch) :
    withValue value (withValue before branch) = withValue value branch := by
  cases branch <;> rfl

@[simp] theorem isName_withValue (value : String) (branch : Branch) :
    (withValue value branch).isName = branch.isName := by
  cases branch <;> rfl

variable {tree : Tree} {source : Array UInt8} {id : NodeId}

/-- Whether a node is a name is part of its kind. -/
theorem isName_of_kind? {kind : Kind} (h : tree.kind? id = some kind) :
    tree.isName id = kind.isName := by
  rw [isName, h]
  cases kind with
  | branch branch => cases branch <;> rfl
  | leaf leaf => rfl

/-- A node that is a name is a branch that is one. -/
theorem exists_of_isName (h : tree.isName id = true) :
    ∃ branch, tree.kind? id = some (.branch branch) ∧ branch.isName = true := by
  cases hkind : tree.kind? id with
  | none =>
    rw [isName, hkind] at h
    cases h
  | some kind =>
    rw [isName_of_kind? hkind] at h
    cases kind with
    | branch branch => exact ⟨branch, rfl, h⟩
    | leaf leaf => cases h

/-- A branch that is no name has no text. -/
theorem text?_of_not_isName {branch : Branch} (hkind : tree.kind? id = some (.branch branch))
    (h : branch.isName = false) : tree.text? source id = none := by
  rw [kind?_eq] at hkind
  obtain ⟨node, hnode, hbranch⟩ := Option.map_eq_some_iff.mp hkind
  rw [text?_eq, hnode, Option.bind_some, Node.text?, hbranch]
  cases branch with
  | identifier => cases h
  | hash => cases h
  | _ => rfl

/-- Every name has the text of its children as its value, and no name stands right below one. -/
structure Valued (source : Array UInt8) (tree : Tree) : Prop where
  value : ∀ id branch, tree.kind? id = some (.branch branch) →
    withValue (tree.joinedText source id) branch = branch
  apart : ∀ id, tree.isName id = true → ∀ child ∈ tree.children id, tree.isName child = false

/-- A new tree has no names. -/
theorem valued_new (filename : Option String) (start : Position) (source : Array UInt8) :
    (Tree.new filename start).Valued source := by
  refine ⟨fun id branch hkind => ?_, fun id hname => ?_⟩
  · cases id with
    | zero =>
      cases hkind
      rfl
    | succ id => cases hkind
  · cases id with
    | zero => cases hname
    | succ id => cases hname

end Tree

/-! ## 2. What a call adds to

A node after a call is one that was there, the branch that was added to, or the node of an item, and
the reason why its value is right is another one for each. -/

/-- A branch that was added to has its value, and it is a name if it was one. -/
theorem Node.kind_finish {node : Node} {began final : Branch} (hkind : node.kind = .branch began)
    (halike : began.Alike final) (value : String) (stop : Position) :
    ∃ branch, (node.finish final value stop).kind = .branch branch ∧
      branch.isName = began.isName ∧ Tree.withValue value branch = branch := by
  obtain ⟨kind, span, valid⟩ := node
  obtain rfl : kind = .branch began := hkind
  cases halike with
  | hash before after => exact ⟨_, rfl, rfl, rfl⟩
  | refl => cases began <;> exact ⟨_, rfl, rfl, rfl⟩

namespace Added

variable {source : Array UInt8} {p : NodeId} {final : Scan.State} {items : List Item}
  {tree tree' : Tree} {j : NodeId} {branch : Branch}

/-- The branch that was added to is a name if it was, and has its value. -/
theorem kind?_target (h : Added source p final items tree tree') :
    ∃ began settled, tree.kind? p = some (.branch began) ∧
      tree'.kind? p = some (.branch settled) ∧ settled.isName = began.isName ∧
      Tree.withValue (tree'.joinedText source p) settled = settled := by
  obtain ⟨origin, began, horigin, hkind, halike, hfinal⟩ := h.target
  have hkind' : ({ origin with
      children := origin.children ++ (items.map (·.label.id)).toArray } : Node).kind =
        .branch began := hkind
  obtain ⟨settled, hsettled, hname, hvalue⟩ :=
    Node.kind_finish hkind' halike (tree'.joinedText source p) final.position
  refine ⟨began, settled, ?_, ?_, hname, hvalue⟩
  · rw [Tree.kind?_eq, horigin, Option.map_some, hkind]
  · rw [Tree.kind?_eq, hfinal, Option.map_some, hsettled]

/-- What was there is a name if it was one. -/
theorem isName_old (h : Added source p final items tree tree') (hj : j < tree.size) :
    tree'.isName j = tree.isName j := by
  by_cases hne : j = p
  · subst hne
    obtain ⟨began, settled, hbegan, hsettled, hname, -⟩ := h.kind?_target
    rw [Tree.isName_of_kind? hbegan, Tree.isName_of_kind? hsettled]
    exact hname
  · rw [Tree.isName, Tree.isName, h.kind?_kept hj hne]

/-- What was there and is no name has the text that it had. -/
theorem text?_old (h : Added source p final items tree tree') (hj : j < tree.size)
    (hname : tree.isName j = false) : tree'.text? source j = tree.text? source j := by
  by_cases hne : j = p
  · subst hne
    obtain ⟨began, settled, hbegan, hsettled, hsame, -⟩ := h.kind?_target
    rw [Tree.isName_of_kind? hbegan] at hname
    rw [Tree.text?_of_not_isName hbegan hname,
      Tree.text?_of_not_isName hsettled (hsame.trans hname)]
  · exact h.text?_kept hj hne

/-- A new node that shows an item is a name if the item is one. -/
theorem isName_item {parent : Option NodeId} {item : Item}
    (h : tree'.Holds source parent item) :
    tree'.isName item.label.id = item.label.kind.isName := by
  obtain ⟨node, hnode, hshows⟩ := h.shows
  have hkind : tree'.kind? item.label.id = some (item.kind source) := by
    rw [Tree.kind?, hnode, Option.map_some, hshows.kind]
  rw [Tree.isName_of_kind? hkind]
  obtain ⟨⟨id, kind, valid, span⟩, below⟩ := item
  cases kind with
  | branch found => exact Tree.isName_withValue _ found
  | leaf leaf => rfl

/-- **All names have their values** after a call: a name that was there is made of the same texts,
the branch that was added to is made anew, and a new one has been made of its children. -/
theorem value (h : Added source p final items tree tree') (hclosed : tree.Closed)
    (hvalued : tree.Valued source) (hkind : tree'.kind? j = some (.branch branch)) :
    Tree.withValue (tree'.joinedText source j) branch = branch := by
  by_cases hold : j < tree.size
  · by_cases hne : j = p
    · -- the branch that was added to has just been made anew
      subst hne
      obtain ⟨began, settled, -, hsettled, -, hvalue⟩ := h.kind?_target
      rw [hkind, Option.some.injEq, Kind.branch.injEq] at hsettled
      rw [hsettled]
      exact hvalue
    · cases hname : branch.isName with
      | false => exact Tree.withValue_of_not_isName hname _
      | true =>
        rw [h.kind?_kept hold hne] at hkind
        have hisname : tree.isName j = true := (Tree.isName_of_kind? hkind).trans hname
        -- the children are as they were, and no names, so their texts are as they were
        have hjoined : tree'.joinedText source j = tree.joinedText source j :=
          Tree.joinedText_of_text? (h.children_kept hold hne) fun child hchild =>
            h.text?_old (hclosed.children_lt hchild) (hvalued.apart j hisname child hchild)
        rw [hjoined]
        exact hvalued.value j branch hkind
  · rw [Tree.kind?] at hkind
    obtain ⟨node, hnode, hbranch⟩ := Option.map_eq_some_iff.mp hkind
    -- a new node has the value that the texts of its item make
    obtain ⟨sub, -, hid, hshows, hheld⟩ := h.exists_item hnode (Nat.le_of_not_lt hold)
    have hchildren : (tree'.children j).toList = sub.children.map (·.label.id) := by
      rw [Tree.children, hnode, Option.map_some, Option.getD_some, hshows.children]
    rw [Tree.joinedText_eq hchildren hheld]
    obtain ⟨⟨id, kind, valid, span⟩, below⟩ := sub
    have hitem : Item.kind source (.node ⟨id, kind, valid, span⟩ below) = .branch branch :=
      hshows.kind.symm.trans hbranch
    cases kind with
    | leaf leaf => cases hitem
    | branch found =>
      cases hitem
      exact Tree.withValue_withValue _ _ found

/-- **No name stands right below a name** after a call. -/
theorem apart (h : Added source p final items tree tree') (hclosed : tree.Closed)
    (hvalued : tree.Valued source) (hplain : ∀ item ∈ items, item.Plain)
    (hbears : tree.isName p = true → ∀ item ∈ items, item.label.kind.isName = false)
    (hname : tree'.isName j = true) {child : NodeId} (hchild : child ∈ tree'.children j) :
    tree'.isName child = false := by
  have hstays : child ∈ tree.children j → tree.isName j = true → tree'.isName child = false := by
    intro hin hisname
    rw [h.isName_old (hclosed.children_lt hin)]
    exact hvalued.apart j hisname child hin
  by_cases hold : j < tree.size
  · have hisname : tree.isName j = true := (h.isName_old hold).symm.trans hname
    by_cases hne : j = p
    · subst hne
      rw [h.children_target] at hchild
      rcases Array.mem_append.mp hchild with hin | hin
      · exact hstays hin hisname
      · obtain ⟨item, hitem, rfl⟩ := List.mem_map.mp (List.mem_toArray.mp hin)
        rw [isName_item (h.held item hitem)]
        exact hbears hisname item hitem
    · rw [h.children_kept hold hne] at hchild
      exact hstays hchild hisname
  · obtain ⟨found, hkind, -⟩ := Tree.exists_of_isName hname
    rw [Tree.kind?] at hkind
    obtain ⟨node, hnode, -⟩ := Option.map_eq_some_iff.mp hkind
    obtain ⟨sub, hsub, rfl, hshows, hheld⟩ := h.exists_item hnode (Nat.le_of_not_lt hold)
    obtain ⟨top, htop, hin⟩ := Rose.mem_subtreesAll.mp hsub
    obtain ⟨parent, hholds⟩ := (h.held top htop).of_mem hin
    rw [isName_item hholds] at hname
    rw [← Array.mem_toList_iff, hholds.children_label] at hchild
    obtain ⟨item, hitem, rfl⟩ := List.mem_map.mp hchild
    rw [isName_item (hheld item hitem)]
    exact (hplain top htop sub hin).2 hname item hitem

end Added

/-! ## 3. Calls

That an item stands where it may is known of the scan, which opens no name in a name. -/

/-- **After a call every name has its value.** -/
theorem Lexer.extend_valued (lexer : Lexer) {tree : Tree} {outline : Rose NodeId} {p : NodeId}
    {origin : Node} {branch : Branch} (h : tree.Ordered outline)
    (hnames : tree.NamesRemember []) (horigin : tree.body? p = some origin)
    (hkind : origin.kind = .branch branch) {source : Source}
    (hvalued : tree.Valued source.bytes) :
    (lexer.extend tree p branch source).tree.Valued source.bytes := by
  have hadded := lexer.extend_added h hnames horigin hkind source
  have hbears : ∀ item ∈ (lexer.draft (Draft.into tree p origin) branch source).frame.done,
      branch.Bears item := lexer.draft_plain branch source rfl rfl rfl
  refine ⟨fun id found => hadded.value h.closed hvalued, fun id hname child => ?_⟩
  refine hadded.apart h.closed hvalued (fun item hitem => (hbears item hitem).1) ?_ hname
  intro hisname item hitem
  have hbranch : tree.kind? p = some (.branch branch) := by
    rw [Tree.kind?_eq, horigin, Option.map_some, hkind]
  exact (hbears item hitem).2 ((Tree.isName_of_kind? hbranch).symm.trans hisname)

end StyleLex
