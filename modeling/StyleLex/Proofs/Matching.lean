/-
# Brackets that match

Where a dialect defines no forms, the tree of a word of brackets is what a machine makes of it that
has nothing but a stack (`Lexer.brackets_matched`): its groups are the brackets that the machine
closes, in the order in which it does so, its unexpected leaves are made of the strays, and no node
is invalid if and only if the word is balanced.

The items of the tree note what the machine notes; so it is enough to read off them what the nodes
say (`Item.Notes.groups`, `Item.Notes.stray_iff`, `Item.Notes.clean_iff`).

The machine reads from left to right and writes a log; the tree is nested.  What they have in common
is the order in which groups are closed, and that is also the order of the thread.  So the groups
are compared in that order, each with its bracket, its place, the place of the group around it, and
its flag.
-/
import StyleLex.Proofs.Dialects
import StyleLex.Proofs.Scan.Matching
import StyleLex.Proofs.Schema
import StyleLex.Proofs.Session
import StyleLex.Proofs.Tiling

namespace StyleLex

open StyleLex.Bracket

/-! ## 1. Groups of a tree

A group is described by numbers and not by identifiers, since the machine has none: where it begins
and ends, and where the group around it begins. -/

namespace Tree

/-- Where a node begins that is a group. -/
def groupStart? (tree : Tree) (id : NodeId) : Option Nat :=
  (tree.node? id).bind fun node =>
    match node.kind with
    | .branch (.group _) => some node.span.start.byte
    | _ => none

/-- The bracket of a node that is a group. -/
def match? (tree : Tree) (id : NodeId) : Option Match :=
  (tree.node? id).bind fun node =>
    match node.kind with
    | .branch (.group bracket) =>
      some ⟨bracket, node.span.start.byte, node.span.stop.byte, node.parent.bind tree.groupStart?,
        node.valid⟩
    | _ => none

/-- The tree is what the machine makes of a word of brackets. -/
structure Bracketed (tree : Tree) (word : List UInt8) : Prop where
  /-- The walk along the thread meets every node once. -/
  produced : tree.production.toList.Perm (List.range tree.size)
  /-- The groups on it are the brackets of the word. -/
  groups : tree.production.toList.filterMap tree.match? = matching word
  /-- Unexpected leaves are made of strays. -/
  strays : ∀ place, place ∈ strays word ↔ ∃ id node, tree.node? id = some node ∧
    node.kind = .leaf .unexpected ∧ node.span.start.byte ≤ place ∧ place < node.span.stop.byte
  /-- The word is balanced if there is no invalid node. -/
  balanced : (∀ id node, tree.node? id = some node → node.valid = true) ↔ Balanced word

variable {tree : Tree} {bytes : Array UInt8} {parent id : NodeId} {valid : Bool} {span : Span}
  {below : List Item}

/-- A leaf is no group. -/
theorem match?_leaf {leaf : Leaf}
    (h : tree.Holds bytes (some parent) (.node ⟨id, .leaf leaf, valid, span⟩ below)) :
    tree.match? id = none := by
  obtain ⟨node, hnode, hshows⟩ := h.shows
  have hkind : node.kind = .leaf leaf := hshows.kind
  rw [match?, show tree.node? id = some node from hnode, Option.bind_some, hkind]

/-- A group is the bracket that its item says. -/
theorem match?_group {bracket : Bracket}
    (h : tree.Holds bytes (some parent)
      (.node ⟨id, .branch (.group bracket), valid, span⟩ below)) :
    tree.match? id =
        some ⟨bracket, span.start.byte, span.stop.byte, tree.groupStart? parent, valid⟩ ∧
      tree.groupStart? id = some span.start.byte := by
  obtain ⟨node, hnode, hshows⟩ := h.shows
  have hnode : tree.node? id = some node := hnode
  have hkind : node.kind = .branch (.group bracket) := hshows.kind
  have hspan : node.span = span := hshows.span
  have hvalid : node.valid = valid := hshows.valid
  have hparent : node.parent = some parent := by
    have hparent : (tree.node? id).bind (·.parent) = some parent := h.parent?_label
    rwa [hnode] at hparent
  refine ⟨?_, ?_⟩
  · rw [match?, hnode, Option.bind_some, hkind, hspan, hvalid, hparent]
    rfl
  · rw [groupStart?, hnode, Option.bind_some, hkind, hspan]

end Tree

/-! ## 2. What items note

`Item.Notes` relates items to a log, and was kept by the scan; here three things are read off it,
each by induction on its constructors. -/

namespace Item.Notes

variable {around : Option Nat} {items : List Item} {log : List Verdict}

/-- The strays are the bytes of unexpected leaves. -/
theorem stray_iff (h : Item.Notes around items log) (place : Nat) :
    Verdict.stray place ∈ log ↔ ∃ sub ∈ Rose.subtreesAll items,
      sub.label.kind = .leaf .unexpected ∧ sub.label.span.start.byte ≤ place ∧
        place < sub.label.span.stop.byte := by
  induction h with
  | nil => simp
  | @unexpected around front log id span before proper ih =>
    have hplace : Verdict.stray place ∈ (List.range' span.start.byte span.length).map .stray ↔
        span.start.byte ≤ place ∧ place < span.stop.byte := by
      have hlength : span.start.byte + span.length = span.stop.byte :=
        Nat.add_sub_of_le (Nat.le_of_lt proper)
      simp [List.mem_range'_1, hlength]
    rw [List.mem_append, ih, hplace]
    simp [Rose.subtrees, or_and_right, exists_or]
  | @group around front below log inner id bracket valid span before inside ihbefore ihinside =>
    rw [List.mem_append, List.mem_append, ihbefore, ihinside]
    simp [Rose.subtrees, or_and_right, exists_or]

/-- Nothing is amiss if no item is invalid. -/
theorem clean_iff (h : Item.Notes around items log) :
    (∀ verdict ∈ log, verdict.clean = true) ↔
      ∀ sub ∈ Rose.subtreesAll items, sub.label.valid = true := by
  induction h with
  | nil => simp
  | @unexpected around front log id span before proper ih =>
    -- an unexpected run is malformed, and so its first stray is in the log
    refine iff_of_false (fun h => ?_) fun h => ?_
    · have hstray : Verdict.stray span.start.byte ∈
          (List.range' span.start.byte span.length).map .stray :=
        List.mem_map_of_mem (List.mem_range'_1.mpr ⟨Nat.le_refl _, by
          have : 0 < span.length := Nat.sub_pos_of_lt proper
          omega⟩)
      cases h _ (List.mem_append_right _ hstray)
    · have hin : (.node ⟨id, .leaf .unexpected, false, span⟩ [] : Item) ∈
          Rose.subtreesAll (front ++ [.node ⟨id, .leaf .unexpected, false, span⟩ []]) :=
        Rose.mem_subtreesAll.mpr
          ⟨_, List.mem_append_right _ (List.mem_singleton_self _), Rose.mem_subtrees_self _⟩
      cases h _ hin
  | @group around front below log inner id bracket valid span before inside ihbefore ihinside =>
    simp only [List.forall_mem_append, ihbefore, ihinside, List.forall_mem_singleton,
      Rose.subtreesAll_append, Rose.subtreesAll_cons, Rose.subtreesAll_nil, List.append_nil,
      Rose.subtrees, List.forall_mem_cons]
    exact and_congr_right fun _ => And.comm

variable {tree : Tree} {bytes : Array UInt8}

/-- **The groups that the items are, are the brackets that they note**, in the order of the
thread. -/
theorem groups (h : Item.Notes around items log) : ∀ parent : NodeId,
    (∀ item ∈ items, tree.Holds bytes (some parent) item) → tree.groupStart? parent = around →
    (Item.linked items).filterMap tree.match? = log.filterMap Verdict.match? := by
  induction h with
  | nil => exact fun _ _ _ => rfl
  | @unexpected around front log id span before proper ih =>
    intro parent hheld haround
    have hfront := ih parent (fun item hitem => hheld item (List.mem_append_left _ hitem)) haround
    have hnone := Tree.match?_leaf (hheld _ (List.mem_append_right _ (List.mem_singleton_self _)))
    have hstrays : ((List.range' span.start.byte span.length).map Verdict.stray).filterMap
        Verdict.match? = [] := by
      rw [List.filterMap_map, List.filterMap_eq_nil_iff]
      exact fun _ _ => rfl
    rw [Item.linked_append, List.filterMap_append, List.filterMap_append, hstrays, hfront,
      Item.linked_singleton, Rose.children_node, Item.linked_nil, List.nil_append,
      Rose.label_node, List.filterMap_cons_none hnone]
    rfl
  | @group around front below log inner id bracket valid span before inside ihbefore ihinside =>
    -- first the groups before this one, then those inside it, and then the group itself
    intro parent hheld haround
    have hgroup := hheld _ (List.mem_append_right _ (List.mem_singleton_self _))
    have hfront :=
      ihbefore parent (fun item hitem => hheld item (List.mem_append_left _ hitem)) haround
    obtain ⟨hmatch, hstart⟩ := Tree.match?_group hgroup
    have hbelow := ihinside id (Tree.holds_iff.mp hgroup).2 hstart
    rw [Item.linked_append, List.filterMap_append, List.filterMap_append, hfront,
      Item.linked_singleton, Rose.children_node, List.filterMap_append, hbelow,
      List.filterMap_append, Rose.label_node, List.filterMap_cons_some hmatch, haround]
    rfl

end Item.Notes

/-! ## 3. Trees of words

Every node but the root shows an item, so what holds of items holds of nodes. -/

namespace Shown

variable {dialect : Dialect} {bytes : Array UInt8} {tree : Tree} {items : List Item}

/-- There is an unexpected leaf where an item is one. -/
theorem unexpected_iff (h : Shown dialect bytes tree items) (place : Nat) :
    (∃ id node, tree.node? id = some node ∧ node.kind = .leaf .unexpected ∧
        node.span.start.byte ≤ place ∧ place < node.span.stop.byte) ↔
      ∃ sub ∈ Rose.subtreesAll items, sub.label.kind = .leaf .unexpected ∧
        sub.label.span.start.byte ≤ place ∧ place < sub.label.span.stop.byte := by
  constructor
  · rintro ⟨id, node, hnode, hkind, hplace⟩
    have hne : id ≠ Tree.root := by
      rintro rfl
      obtain ⟨root, hroot, hrootkind, -⟩ := h.root
      rw [hnode, Option.some.injEq] at hroot
      rw [← hroot, hkind] at hrootkind
      cases hrootkind
    obtain ⟨item, hitem, -, hshows, -⟩ := h.exists_item hnode hne
    refine ⟨item, hitem, ?_, hshows.span ▸ hplace⟩
    have hshown := hshows.kind.symm.trans hkind
    rw [Item.kind_eq_valued] at hshown
    cases hlabel : item.label.kind with
    | leaf leaf => rwa [hlabel] at hshown
    | branch branch =>
      rw [hlabel] at hshown
      cases hshown
  · rintro ⟨item, hitem, hkind, hplace⟩
    obtain ⟨node, hnode, hshows, -⟩ := h.exists_node hitem
    refine ⟨_, node, hnode, ?_, hshows.span ▸ hplace⟩
    rw [hshows.kind, Item.kind_eq_valued, hkind]
    rfl

/-- No node is invalid if no item is. -/
theorem valid_iff_items (h : Shown dialect bytes tree items) :
    (∀ id node, tree.node? id = some node → node.valid = true) ↔
      ∀ sub ∈ Rose.subtreesAll items, sub.label.valid = true := by
  constructor
  · intro hvalid sub hsub
    obtain ⟨node, hnode, hshows, -⟩ := h.exists_node hsub
    exact hshows.valid.symm.trans (hvalid _ node hnode)
  · intro hvalid id node hnode
    by_cases hne : id = Tree.root
    · obtain ⟨root, hroot, -, hrootvalid, -⟩ := h.root
      rw [hne, hroot, Option.some.injEq] at hnode
      exact hnode ▸ hrootvalid
    · obtain ⟨item, hitem, -, hshows, -⟩ := h.exists_item hnode hne
      exact hshows.valid.trans (hvalid item hitem)

end Shown

namespace Lexer

/-- The thread of a source has the root, and then its items. -/
theorem production_tokenizeBytes (lexer : Lexer) (bytes : Array UInt8) :
    (lexer.tokenizeBytes bytes).tree.production.toList =
      Tree.root :: Item.linked (lexer.items { bytes := bytes }) := by
  have hordered := lexer.extend_ordered (Tree.ordered_new none Position.origin)
    (body?_new { bytes := bytes }) .root { bytes := bytes }
  refine hordered.production_eq.trans ?_
  rw [Rose.graft_node, List.map_nil, List.nil_append, if_pos rfl, Rose.children_node,
    Rose.postorderAll_map]
  rfl

/-- **Without forms, the tree of a word of brackets is what the machine makes of it.** -/
theorem brackets_matched {dialect : Dialect} {lexer : Lexer}
    (hlexer : Lexer.ofDialect dialect = .ok lexer) (hquasi : dialect.quasiDefinitions = [])
    (hannotations : dialect.annotationDefinitions = []) {bytes : Array UInt8}
    (hbytes : ∀ b ∈ bytes.toList, ∃ bracket : Bracket, b = bracket.opener ∨ b = bracket.closer) :
    (lexer.tokenizeBytes bytes).tree.Bracketed bytes.toList := by
  have hempty : lexer.fragments = Fragments.empty := by
    have hfragments := fragments_of_ofDialect hlexer
    rw [Fragments.ofDialect, hquasi, hannotations] at hfragments
    exact (Except.ok.inj hfragments).symm
  have hnotes := items_note hempty hbytes
  have hshown := lexer.tokenizeBytes_shown bytes
  have hproduction := lexer.production_tokenizeBytes bytes
  obtain ⟨root, hroot, hrootkind, -⟩ := hshown.root
  refine ⟨(session_consistent lexer { bytes := bytes } []).1.produced, ?_, fun place => ?_, ?_⟩
  · have hnone : (lexer.tokenizeBytes bytes).tree.match? Tree.root = none := by
      rw [Tree.match?, hroot, Option.bind_some, hrootkind]
    have hstart : (lexer.tokenizeBytes bytes).tree.groupStart? Tree.root = none := by
      rw [Tree.groupStart?, hroot, Option.bind_some, hrootkind]
    rw [hproduction, List.filterMap_cons_none hnone]
    exact hnotes.groups Tree.root hshown.held hstart
  · rw [hshown.unexpected_iff, ← hnotes.stray_iff, mem_strays]
  · rw [hshown.valid_iff_items, ← hnotes.clean_iff, balanced_iff]

/-- A parenthesis that a bracket crosses, and a brace that closes nothing: `([)]}`. -/
theorem crossed_brackets_matched :
    ∃ lexer, Lexer.ofDialect Dialect.standard = .ok lexer ∧
      (∀ b ∈ [0x28, 0x5B, 0x29, 0x5D, 0x7D],
        ∃ bracket : Bracket, b = bracket.opener ∨ b = bracket.closer) ∧
      (lexer.tokenizeBytes #[0x28, 0x5B, 0x29, 0x5D, 0x7D]).tree.Bracketed
        [0x28, 0x5B, 0x29, 0x5D, 0x7D] := by
  have hword : ∀ b ∈ [0x28, 0x5B, 0x29, 0x5D, 0x7D],
      ∃ bracket : Bracket, b = bracket.opener ∨ b = bracket.closer := by
    simp only [List.forall_mem_cons]
    exact ⟨⟨.round, Or.inl rfl⟩, ⟨.square, Or.inl rfl⟩, ⟨.round, Or.inr rfl⟩,
      ⟨.square, Or.inr rfl⟩, ⟨.curly, Or.inr rfl⟩, List.forall_mem_nil _⟩
  obtain ⟨lexer, hlexer⟩ : ∃ lexer, Lexer.ofDialect Dialect.standard = .ok lexer := ⟨_, rfl⟩
  exact ⟨lexer, hlexer, hword, brackets_matched hlexer rfl rfl hword⟩

end Lexer
end StyleLex
