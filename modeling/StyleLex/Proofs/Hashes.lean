/-
# Hashes are classified by their texts

Every hash in the tree of a source says what its text says: it is a name if one begins behind its
sign, and a color if its text is three, four, six or eight hexadecimal digits, written as they are
or as escapes (`Lexer.hashes_classified`).  The scan knows this of the items that it reads
(`Lexer.draft_hashed`); here it is carried to the nodes, where the text is the value of the hash.

The text of a hash is taken after escapes are resolved, so `#f\66 f` has three digits.  This is why
the statement is about the value and not about the bytes of the node.  Only whether a name begins
behind the sign is a matter of bytes, as it is decided before anything is read.
-/
import StyleLex.Proofs.Depths
import StyleLex.Proofs.Scan.Hashing

namespace StyleLex

/-- A value is no part of what a hash is classified by. -/
theorem Hash.Classified.valued {source : Array UInt8} {place : Nat} {text : String} {valid : Bool}
    {hash : Hash} (h : hash.Classified source place text valid) (value : String) :
    ({ hash with value := value } : Hash).Classified source place text valid :=
  ⟨⟨h.sign, h.isName⟩, h.checked, h.color, h.digits, h.dropped, h.valid⟩

/-- **Every hash of a source is classified by its value**, which is the text of its children. -/
theorem Lexer.hashes_classified (lexer : Lexer) (source : Source) {id : NodeId} {node : Node}
    {hash : Hash} (hnode : (lexer.tokenize source).tree.node? id = some node)
    (hkind : node.kind = .branch (.hash hash)) :
    hash.value = (lexer.tokenize source).tree.joinedText source.bytes id ∧
      hash.Classified source.bytes node.span.start.byte hash.value node.valid := by
  obtain ⟨hheld, hids, -⟩ := lexer.tokenize_grown source
  have hne : id ≠ Tree.root := by
    rintro rfl
    have hroot := lexer.kind?_root source
    rw [Tree.kind?, hnode, Option.map_some, hkind] at hroot
    cases hroot
  obtain ⟨item, hitem, -, hshows, hbelow⟩ := Tree.exists_item hheld hids hnode hne
  have hchildren : ((lexer.tokenize source).tree.children id).toList =
      item.children.map (·.label.id) := by
    rw [Tree.children, hnode, Option.map_some, Option.getD_some, hshows.children]
  rw [Tree.joinedText_eq hchildren hbelow, hshows.span, hshows.valid]
  obtain ⟨top, htop, hin⟩ := Rose.mem_subtreesAll.mp hitem
  have hclassified := lexer.draft_hashed source rfl rfl rfl top htop item hin
  have hvalued := hshows.kind.symm.trans hkind
  obtain ⟨⟨own, kind, valid, span⟩, below⟩ := item
  cases kind with
  | leaf leaf => cases hvalued
  | branch branch =>
    cases branch with
    | hash found =>
      cases hvalued
      exact ⟨rfl, (hclassified found rfl).valued _⟩
    | _ => cases hvalued

/-- A digit may be written as an escape: `#f\66 f` is a color. -/
theorem escaped_digit_classified :
    ∃ (node : Node) (hash : Hash),
      (Lexer.tokenizeBytes ⟨Dialect.standard, Fragments.empty⟩
        #[0x23, 0x66, 0x5C, 0x36, 0x36, 0x20, 0x66]).tree.node? 1 = some node ∧
      node.kind = .branch (.hash hash) ∧ hash.color = .valid ∧ hash.value = "fff" ∧
      hash.Classified #[0x23, 0x66, 0x5C, 0x36, 0x36, 0x20, 0x66] node.span.start.byte
        hash.value node.valid := by
  have hkind : (Lexer.tokenizeBytes ⟨Dialect.standard, Fragments.empty⟩
      #[0x23, 0x66, 0x5C, 0x36, 0x36, 0x20, 0x66]).tree.kind? 1 =
        some (.branch (.hash ⟨true, .valid, #[0x66, 0x66, 0x66], "fff"⟩)) := by decide +kernel
  obtain ⟨node, hnode, hbranch⟩ := Option.map_eq_some_iff.mp hkind
  exact ⟨node, _, hnode, hbranch, rfl, rfl, (Lexer.hashes_classified
    ⟨Dialect.standard, Fragments.empty⟩
    { bytes := #[0x23, 0x66, 0x5C, 0x36, 0x36, 0x20, 0x66] } hnode hbranch).2⟩

end StyleLex
