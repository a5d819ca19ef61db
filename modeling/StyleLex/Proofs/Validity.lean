/-
# What the flag of a node means

A scan sets the flags of nodes in many places: where a string breaks off, where the input ends,
where a hash is settled, where an escape or an unexpected byte is read.  Seen from the finished
tree they mean one thing (`Tree.Sound`): a node is valid if nothing of it is missing.  The proof
is about the ways in which a branch can end (`Ends`), for the flag of a branch is set there.

What is missing is found in the source, at the place where the tree says that it should be: behind
the last child of a branch (`Tree.closing`).  So the flag carries no information that is not in the
source already, and a consumer may take it as a summary.  Three kinds of nodes are judged by
something else.  A fragment is closed by the group in it and not by bytes of its own; a hash is
judged by what was written in it; an escape and an unexpected byte are leaves, and are judged when
they are read.

A fragment that ends with the source is malformed even if its group is not.  The group has to be
followed by something for the scan to return to the fragment and close it, and at the end of the
input every branch that is open is closed as it stands.
-/
import StyleLex.Proofs.Tiling

namespace StyleLex

/-! ## 1. Well-formed nodes

`Tree.Sound` does not look at flags, but for those of the group of a fragment, which stands further
down in the tree. -/

namespace Tree

/-- The bytes of a branch behind its content. -/
def closing (tree : Tree) (bytes : Array UInt8) (node : Node) (branch : Branch) : List UInt8 :=
  (bytes.extract (tree.contentEnd node branch) node.span.stop.byte).toList

/-- Is the last child of a node a valid group? -/
def EndsInGroup (tree : Tree) (node : Node) : Prop :=
  ∃ last child bracket, node.children.back? = some last ∧ tree.node? last = some child ∧
    child.kind = .branch (.group bracket) ∧ child.valid = true

/-- Is a node well formed?  A delimited branch needs its own closer, a fragment a group and
something behind it, a hash a name or a color, and an escape with a brace the other brace. -/
def Sound (tree : Tree) (bytes : Array UInt8) (node : Node) : Prop :=
  match node.kind with
  | .branch (.group bracket) => tree.closing bytes node (.group bracket) = [bracket.closer]
  | .branch (.quoted quote) => tree.closing bytes node (.quoted quote) = [quote.byte]
  | .branch .url => tree.closing bytes node .url = [Byte.rightParenthesis]
  | .branch (.comment .block) =>
    tree.closing bytes node (.comment .block) = [Byte.asterisk, Byte.slash]
  | .branch (.quasi _) | .branch (Branch.annotation _ _) =>
    tree.EndsInGroup node ∧ node.span.stop.byte < bytes.size
  | .branch (.hash hash) => hash.isName = true ∨ hash.color = .valid
  | .branch .root | .branch (.identifier _) | .branch (.comment .line) => True
  | .leaf (.escape _) =>
    ¬ ([Byte.backslash, 0x75, Byte.leftBrace].IsPrefix (node.span.slice bytes) ∧
      (node.span.slice bytes).getLast? ≠ some Byte.rightBrace)
  | .leaf .unexpected => False
  | .leaf _ => True

end Tree

/-! ## 2. What the end of a branch says

`Ends` lists the ways in which a branch ends, with the flag that each of them sets and the bytes
that each of them takes.  One lemma for each kind of branch sorts these ways by their flags. -/

namespace Ends

variable {dialect : Dialect} {branch : Branch} {last : Option Kind} {rest : List UInt8}
  {valid : Bool} {n : Nat}

/-- **A branch with a closer is valid if it ends with it.** -/
theorem valid_iff_closer (h : Ends dialect branch last rest valid n) {closer : List UInt8}
    (hcloser : branch.closer? = some closer) : valid = true ↔ rest.take n = closer := by
  cases h with
  | closer own ahead =>
    rw [own, Option.some.injEq] at hcloser
    subst hcloser
    exact iff_of_true rfl (List.prefix_iff_eq_take.mp ahead).symm
  | @broken quote _ _ _ plain ahead =>
    -- a string that is broken off takes the line break, which is not its quote
    refine iff_of_false Bool.false_ne_true ?_
    intro htake
    obtain rfl : [quote.byte] = closer := Option.some.inj hcloser
    cases rest with
    | nil => cases ahead
    | cons b rest =>
      have hpos := (Escape.newlineLength?_pos ahead).1
      obtain ⟨m, rfl⟩ := Nat.exists_eq_succ_of_ne_zero (Nat.pos_iff_ne_zero.mp hpos)
      rw [List.take_succ_cons] at htake
      have hnewline := Escape.isNewline_of_newlineLength? ahead
      rw [(List.cons.inj htake).1] at hnewline
      cases quote <;> revert hnewline <;> decide
  | line => cases hcloser
  | identifier => cases hcloser
  | hash => cases hcloser
  | fragment hfragment =>
    rw [Branch.closer?_of_isFragment hfragment] at hcloser
    cases hcloser
  | unterminated =>
    -- at the end of the input nothing is taken, and a closer is not empty
    refine iff_of_false Bool.false_ne_true ?_
    rintro rfl
    exact Nat.lt_irrefl 0 (Branch.closer?_pos hcloser)
  | lineAtEnd => cases hcloser
  | rootAtEnd => cases hcloser

/-- A line comment is valid however it ends, and so is an identifier. -/
theorem valid_of_line (h : Ends dialect (.comment .line) last rest valid n) : valid = true := by
  cases h with
  | closer own => cases own
  | line => rfl
  | fragment hfragment => cases hfragment
  | unterminated hopen => simp [Branch.closer?, Branch.isFragment] at hopen
  | lineAtEnd => rfl

/-- A name ends where it stops, and nothing is missing then. -/
theorem valid_of_identifier {value : String}
    (h : Ends dialect (.identifier value) last rest valid n) : valid = true := by
  cases h with
  | closer own => cases own
  | identifier => rfl
  | fragment hfragment => cases hfragment
  | unterminated hopen => simp [Branch.closer?, Branch.isFragment] at hopen

/-- A hash is valid as a name or as a color. -/
theorem valid_iff_hash {hash : Hash} (h : Ends dialect (.hash hash) last rest valid n) :
    valid = true ↔ hash.isName = true ∨ hash.color = .valid := by
  cases h with
  | closer own => cases own
  | hash => simp [Hash.isValid]
  | fragment hfragment => cases hfragment
  | unterminated hopen => simp [Branch.closer?, Branch.isFragment] at hopen

/-- A group that ends before the input does is valid. -/
theorem valid_of_group {bracket : Bracket} (h : Ends dialect (.group bracket) last rest valid n)
    (ahead : rest ≠ []) : valid = true := by
  cases h with
  | closer => rfl
  | fragment hfragment => cases hfragment
  | unterminated => exact absurd rfl ahead

end Ends

/-! ## 3. What the flag of a node says

The flag of a node is that of its item, so what has been said about the ends of branches carries
over once the content of the node is known to end where that of the item does. -/

namespace Shown

variable {dialect : Dialect} {bytes : Array UInt8} {tree : Tree} {items : List Item}

/-- A leaf is valid if its bytes are sound. -/
theorem leaf_valid_iff {node : Node} {leaf : Leaf} (hkind : node.kind = .leaf leaf) :
    leaf.Sound (node.span.slice bytes) ↔ tree.Sound bytes node := by
  rw [Tree.Sound, hkind]
  cases leaf <;> exact Iff.rfl

/-- A group shows an item that is a group. -/
theorem kind_of_group {item : Item} {node : Node} {bracket : Bracket}
    (hshows : Tree.Shows bytes item node) :
    node.kind = .branch (.group bracket) ↔ item.label.kind = .branch (.group bracket) := by
  rw [hshows.kind]
  obtain ⟨⟨id, kind, valid, span⟩, below⟩ := item
  rw [Item.kind, Rose.label_node]
  cases kind with
  | leaf leaf => constructor <;> intro h <;> cases h
  | branch branch =>
    cases branch with
    | group found => exact Iff.rfl
    | _ => constructor <;> intro h <;> cases h

/-- A group is valid if the input goes on behind it. -/
theorem group_valid (h : Shown dialect bytes tree items) {id : NodeId} {node : Node}
    {bracket : Bracket} (hnode : tree.node? id = some node)
    (hkind : node.kind = .branch (.group bracket)) (hstop : node.span.stop.byte < bytes.size) :
    node.valid = true := by
  have hne : id ≠ Tree.root := by
    rintro rfl
    obtain ⟨root, hroot, hrootkind, -⟩ := h.root
    rw [hnode, Option.some.injEq] at hroot
    rw [hroot, hrootkind] at hkind
    cases hkind
  obtain ⟨item, -, -, hshows, hsits, -⟩ := h.exists_item hnode hne
  have hitem := (kind_of_group hshows).mp hkind
  rw [hshows.span] at hstop
  rw [hshows.valid]
  cases hsits with
  | leaf => cases hitem
  | @branch id branch valid span below inner proper inside named abut closing ends =>
    obtain rfl : branch = .group bracket := by
      cases hitem
      rfl
    refine ends.valid_of_group ?_
    intro hnil
    have hlength := List.drop_eq_nil_iff.mp hnil
    rw [Array.length_toList] at hlength
    have hlt : span.stop.byte < bytes.size := hstop
    omega

/-- A fragment is valid if a valid group stands last in it and the input goes on behind it. -/
theorem fragment_valid_iff (h : Shown dialect bytes tree items) {node : Node} {branch : Branch}
    {valid : Bool} {below : List Item} {inner n : Nat} {parent : Option NodeId}
    (hfragment : branch.isFragment = true)
    (hchildren : node.children = (below.map (·.label.id)).toArray)
    (hholds : ∀ child ∈ below, tree.Holds bytes parent child)
    (habut : inner = (below.getLast?.map (·.label.span.stop.byte)).getD inner)
    (hstop : node.span.stop.byte = inner + n)
    (hends : Ends dialect branch (below.getLast?.map (·.label.kind)) (bytes.toList.drop inner)
      valid n) :
    valid = true ↔ tree.EndsInGroup node ∧ node.span.stop.byte < bytes.size := by
  obtain ⟨rfl, hvalid, -⟩ := hends.of_fragment hfragment
  have hahead : bytes.toList.drop inner ≠ [] ↔ node.span.stop.byte < bytes.size := by
    rw [hstop, Nat.add_zero, ne_eq, List.drop_eq_nil_iff, Array.length_toList, Nat.not_le]
  rw [hvalid, hahead]
  have hback : node.children.back? = below.getLast?.map (·.label.id) := by
    rw [hchildren, List.back?_toArray, List.getLast?_map]
  constructor
  · rintro ⟨hlt, bracket, hgroup⟩
    obtain ⟨last, hlast, hkind⟩ := Option.map_eq_some_iff.mp hgroup
    obtain ⟨child, hchild, hshows⟩ := (hholds last (List.mem_of_getLast? hlast)).shows
    have hchildkind := (kind_of_group hshows).mpr hkind
    rw [hlast, Option.map_some, Option.getD_some] at habut
    refine ⟨⟨last.label.id, child, bracket, ?_, hchild, hchildkind, ?_⟩, hlt⟩
    · rw [hback, hlast]
      rfl
    · refine h.group_valid hchild hchildkind ?_
      rw [hshows.span, ← habut]
      omega
  · rintro ⟨⟨id, child, bracket, hlastid, hchild, hkind, -⟩, hlt⟩
    rw [hback] at hlastid
    obtain ⟨last, hlast, rfl⟩ := Option.map_eq_some_iff.mp hlastid
    obtain ⟨found, hfound, hshows⟩ := (hholds last (List.mem_of_getLast? hlast)).shows
    rw [hchild, Option.some.injEq] at hfound
    subst hfound
    refine ⟨hlt, bracket, ?_⟩
    rw [hlast, Option.map_some, (kind_of_group hshows).mp hkind]

/-- **A node is valid if nothing of it is missing.** -/
theorem valid_iff (h : Shown dialect bytes tree items) {id : NodeId} {node : Node}
    (hnode : tree.node? id = some node) : node.valid = true ↔ tree.Sound bytes node := by
  by_cases hid : id = Tree.root
  · subst hid
    obtain ⟨root, hroot, hkind, hvalid, -⟩ := h.root
    rw [hnode, Option.some.injEq] at hroot
    subst hroot
    rw [Tree.Sound, hkind, hvalid]
    exact iff_of_true rfl trivial
  · obtain ⟨item, -, -, hshows, hsits, hholds⟩ := h.exists_item hnode hid
    have hkind := hshows.kind
    have hspan := hshows.span
    have hchildren := hshows.children
    rw [hshows.valid]
    cases hsits with
    | @leaf id leaf valid span proper inside sound =>
      refine Iff.trans ?_ (leaf_valid_iff hkind)
      rw [hspan, Span.slice_eq]
      exact sound
    | @branch id branch valid span below inner proper inside named abut closing ends =>
      -- the delimited branches, all alike: what is behind the content is what the end took
      have hclosing : ∀ value closer, branch.closer? = some closer →
          (valid = true ↔ tree.closing bytes node (Tree.withValue value branch) = closer) := by
        intro value closer hcloser
        have hcontent : inner = Item.contentEnd span.start.byte branch below := abut.eq_end
        have hend : tree.contentEnd node (Tree.withValue value branch) = inner := by
          rw [Tree.contentEnd_eq hchildren hholds, Item.contentEnd_withValue, hspan, hcontent]
          rfl
        rw [ends.valid_iff_closer hcloser, Tree.closing, hend, hspan, Array.toList_extract,
          List.extract_eq_take_drop]
        rfl
      -- the fragments, which have no closer
      have hfragment : branch.isFragment = true →
          (valid = true ↔ tree.EndsInGroup node ∧ node.span.stop.byte < bytes.size) := by
        intro hfragment
        refine h.fragment_valid_iff hfragment hchildren hholds ?_ ?_ ends
        · have hend := abut.eq_end
          rw [Rose.children_node]
          cases hlast : below.getLast? with
          | none => rfl
          | some last =>
            rw [hlast] at hend
            exact hend
        · rw [hspan]
          exact (Nat.add_sub_cancel' closing).symm
      rw [Item.kind] at hkind
      rw [Tree.Sound, hkind]
      cases branch with
      | root => exact absurd rfl named
      | group bracket => exact hclosing "" _ rfl
      | quoted quote => exact hclosing "" _ rfl
      | url => exact hclosing "" _ rfl
      | comment form =>
        cases form with
        | block => exact hclosing "" _ rfl
        | line => exact iff_of_true ends.valid_of_line trivial
      | quasi form => exact hfragment rfl
      | annotation form placement => exact hfragment rfl
      | identifier value => exact iff_of_true ends.valid_of_identifier trivial
      | hash hash => exact ends.valid_iff_hash

end Shown

/-- **The flag of a node says whether the node is well formed.** -/
theorem Lexer.tokenizeBytes_valid_iff (lexer : Lexer) (bytes : Array UInt8) {id : NodeId}
    {node : Node} (hnode : (lexer.tokenizeBytes bytes).tree.node? id = some node) :
    node.valid = true ↔ (lexer.tokenizeBytes bytes).tree.Sound bytes node :=
  (lexer.tokenizeBytes_shown bytes).valid_iff hnode

/-- A parenthesis that nothing closes is not well formed. -/
theorem open_parenthesis_not_sound :
    ∃ node, (Lexer.tokenizeBytes ⟨Dialect.standard, Fragments.empty⟩ #[0x28]).tree.node? 1 =
        some node ∧
      ¬ (Lexer.tokenizeBytes ⟨Dialect.standard, Fragments.empty⟩ #[0x28]).tree.Sound
        #[0x28] node := by
  have hthere : ((Lexer.tokenizeBytes ⟨Dialect.standard, Fragments.empty⟩
      #[0x28]).tree.node? 1).isSome = true := by decide
  have hflag : ((Lexer.tokenizeBytes ⟨Dialect.standard, Fragments.empty⟩
      #[0x28]).tree.node? 1).any (·.valid) = false := by decide
  obtain ⟨node, hnode⟩ := Option.isSome_iff_exists.mp hthere
  refine ⟨node, hnode, ?_⟩
  intro hsound
  have hvalid := (Lexer.tokenizeBytes_valid_iff _ _ hnode).mpr hsound
  rw [hnode, Option.any_some, hvalid] at hflag
  cases hflag

end StyleLex
