/-
# Only what can start nothing is unexpected

In a root and in a group the last reader takes what no other one does, as unexpected.  What is left
to it are the bytes that can start nothing there: some controls, a backtick that opens no string, a
closing bracket of another pair (`Branch.isStray_iff`).

Conversely nothing else that stands in a root or in a group begins with such a byte, for every leaf
and every branch begins with a byte of some other class (`Item.Known.exists_head`).  So the
unexpected leaves of a source are its strays, and no others (`Lexer.tokenizeBytes_straysApart`).

The two directions are proved in different ways.  That an unexpected leaf has only such bytes is an
invariant of the scan: the last reader takes a byte when all others have declined.  That nothing
else begins with one is a fact about each reader: it says what a leaf or a branch begins with.
Together they say that the reader which comes last is not needed for anything else, and that no
reader before it takes what it should leave.
-/
import StyleLex.Proofs.Children
import StyleLex.Proofs.Scan.Leading

namespace StyleLex

/-! ## 1. Strays

Bytes are sorted by class, and a class is checked byte by byte.  The closing bracket of the branch
itself is the one exception, since it closes the branch. -/

/-- The controls that are no blanks. -/
def Byte.BareControl (b : UInt8) : Prop :=
  b < 0x20 ∧ b ≠ tab ∧ b ≠ lineFeed ∧ b ≠ formFeed ∧ b ≠ carriageReturn ∨ b = delete

/-- The bytes that no reader of a root begins with, by name. -/
theorem Byte.isOdd_iff (b : UInt8) :
    isOdd b = true ↔ BareControl b ∨ b = backtick ∨ isCloser b = true := by
  grind [isOdd, BareControl, isControl, isBlank, isWhitespace, isNewline, isCloser]

namespace Branch

/-- The bytes that can start nothing in a root or in a group. -/
def StartsNothing (dialect : Dialect) (branch : Branch) (b : UInt8) : Prop :=
  Byte.BareControl b ∨ b = Byte.backtick ∧ dialect.extendedStrings = false ∨
    Byte.isCloser b = true ∧ branch.closer? ≠ some [b]

variable {dialect : Dialect} {branch : Branch} {b : UInt8}

/-- What closes a root or a group is a closing bracket. -/
theorem IsOuter.isCloser (h : branch.IsOuter) (hown : branch.closer? = some [b]) :
    Byte.isCloser b = true := by
  rcases h with rfl | ⟨bracket, rfl⟩
  · cases hown
  · obtain rfl : bracket.closer = b := List.singleton_inj.mp (Option.some.inj hown)
    cases bracket <;> rfl

/-- Roots and groups are told from other branches whatever their value. -/
theorem isOuter_of_withValue {value : String} (h : (Tree.withValue value branch).IsOuter) :
    branch.IsOuter := by
  cases branch with
  | root => exact Or.inl rfl
  | group bracket => exact Or.inr ⟨bracket, rfl⟩
  | _ => rcases h with h | ⟨bracket, h⟩ <;> cases h

/-- They have none. -/
theorem IsOuter.withValue_eq (h : branch.IsOuter) (value : String) :
    Tree.withValue value branch = branch := by
  rcases h with rfl | ⟨bracket, rfl⟩ <;> rfl

/-- **What is left in a root or in a group can start nothing there.** -/
theorem isStray_iff (houter : branch.IsOuter) :
    branch.isStray dialect b = true ↔ branch.StartsNothing dialect b := by
  simp only [isStray, StartsNothing, Bool.and_eq_true, Bool.or_eq_true, bne_iff_ne, ne_eq,
    Bool.not_eq_true', Byte.isOdd_iff]
  -- controls and the backtick close nothing, and no control is the backtick
  have hcontrol : Byte.BareControl b → Byte.isCloser b = false ∧ b ≠ Byte.backtick := by
    grind [Byte.BareControl, Byte.isCloser]
  have hbacktick : Byte.isCloser Byte.backtick = false := rfl
  have hown := houter.isCloser (b := b)
  grind

end Branch

/-! ## 2. Items

Raw text is never below a root or a group, so of the leaves only the unexpected ones are taken by a
last reader. -/

namespace Item.Known

variable {dialect : Dialect} {input : List UInt8} {around : Branch} {item : Item}

/-- An unexpected leaf stands in a root or in a group. -/
theorem isOuter_of_unexpected (h : Item.Known dialect input around item)
    (hkind : item.label.kind = .leaf .unexpected) : around.IsOuter :=
  Branch.isOuter_of_holds (hkind ▸ h.held)

/-- **An unexpected leaf has only strays.** -/
theorem strays (h : Item.Known dialect input around item)
    (hkind : item.label.kind = .leaf .unexpected) :
    ∀ b ∈ (input.drop item.label.span.start.byte).take
        (item.label.span.stop.byte - item.label.span.start.byte),
      around.StartsNothing dialect b := by
  intro b hb
  have houter := h.isOuter_of_unexpected hkind
  obtain ⟨i, hstart, hstop, hahead⟩ := exists_of_mem_slice hb
  have hleft := h.left (by rw [hkind]; rfl) i hstart hstop
  rw [← Branch.isStray_iff houter]
  rcases houter with rfl | ⟨bracket, rfl⟩
  · exact hleft b hahead
  · exact hleft b hahead

/-- **Whatever else stands in a root or in a group does not begin with one.** -/
theorem exists_head (h : Item.Known dialect input around item) (houter : around.IsOuter)
    (hkind : item.label.kind ≠ .leaf .unexpected) :
    ∃ b, (input.drop item.label.span.start.byte).head? = some b ∧
      ¬ around.StartsNothing dialect b := by
  suffices hodd : ∃ b, (input.drop item.label.span.start.byte).head? = some b ∧
      (Byte.isOdd b = false ∨ b = Byte.backtick ∧ dialect.extendedStrings = true) by
    obtain ⟨b, hb, hodd⟩ := hodd
    refine ⟨b, hb, fun hnothing => ?_⟩
    rw [← Branch.isStray_iff houter, Branch.isStray] at hnothing
    rcases hodd with hodd | ⟨rfl, henabled⟩
    · simp [hodd] at hnothing
    · simp [henabled] at hnothing
  -- a branch begins with a byte of its opener, and a leaf with one of its class
  cases hlabel : item.label.kind with
  | branch branch => exact Branch.Begins.head_not_odd (h.begun branch hlabel)
  | leaf leaf =>
    have hheld := h.held
    rw [hlabel] at hheld hkind
    have hgrows : (Kind.leaf leaf).grows = false := by
      cases leaf with
      | raw => rcases houter with rfl | ⟨bracket, rfl⟩ <;> cases hheld
      | unexpected => exact absurd rfl hkind
      | _ => rfl
    obtain ⟨n, htakes, -⟩ := h.spoken.leaf leaf hlabel
    obtain ⟨b, hb, hleads⟩ := htakes.exists_head hgrows
    exact ⟨b, hb, Or.inl (Byte.of_leads hleads).2⟩

end Item.Known

/-! ## 3. The tree of a source

From items to nodes, in both directions. -/

/-- Unexpected leaves stand in roots and groups, and have only bytes that can start nothing there.
Nothing else in a root or in a group begins with such a byte. -/
structure Tree.StraysApart (tree : Tree) (dialect : Dialect) (bytes : Array UInt8) : Prop where
  unexpected : ∀ id node, tree.node? id = some node → node.kind = .leaf .unexpected →
    ∃ parent above around, tree.parent? id = some parent ∧ tree.node? parent = some above ∧
      above.kind = .branch around ∧ id ∈ above.children ∧ around.IsOuter ∧
      ∀ b ∈ node.span.slice bytes, around.StartsNothing dialect b
  others : ∀ id node around, tree.node? id = some node → node.kind = .branch around →
    around.IsOuter → ∀ child ∈ node.children, ∀ found, tree.node? child = some found →
      found.kind ≠ .leaf .unexpected →
      ∃ b, (found.span.slice bytes).head? = some b ∧ ¬ around.StartsNothing dialect b

namespace Lexer

variable {lexer : Lexer} {bytes : Array UInt8} {id : NodeId} {node : Node}

/-- An unexpected leaf stands in a root or in a group, and has only strays. -/
theorem unexpected_strays (hmade : lexer.fragments.Made)
    (hnode : (lexer.tokenizeBytes bytes).tree.node? id = some node)
    (hkind : node.kind = .leaf .unexpected) :
    ∃ parent above around, (lexer.tokenizeBytes bytes).tree.parent? id = some parent ∧
      (lexer.tokenizeBytes bytes).tree.node? parent = some above ∧
      above.kind = .branch around ∧ id ∈ above.children ∧ around.IsOuter ∧
      ∀ b ∈ node.span.slice bytes, around.StartsNothing lexer.dialect b := by
  have hne : id ≠ Tree.root := by
    rintro rfl
    obtain ⟨root, hroot, hbranch, -⟩ := (lexer.tokenizeBytes_shown bytes).root
    obtain rfl : node = root := Option.some.inj (hnode.symm.trans hroot)
    rw [hkind] at hbranch
    cases hbranch
  obtain ⟨parent, above, branch, hparent, habove, hbranch, hchild⟩ :=
    lexer.exists_parent hnode hne
  obtain ⟨around, value, item, rfl, hshows, hknown⟩ :=
    lexer.exists_known hmade habove hbranch hchild hnode
  have hlabel := hshows.label_leaf hkind
  have houter := hknown.isOuter_of_unexpected hlabel
  have hstrays := hknown.strays hlabel
  rw [← hshows.span] at hstrays
  rw [houter.withValue_eq] at hbranch
  refine ⟨parent, above, around, hparent, habove, hbranch, hchild, houter, ?_⟩
  rw [Span.slice_eq]
  exact hstrays

/-- Whatever else stands there begins with something else. -/
theorem others_start (hmade : lexer.fragments.Made) {around : Branch}
    (hnode : (lexer.tokenizeBytes bytes).tree.node? id = some node)
    (hkind : node.kind = .branch around) (houter : around.IsOuter) {child : NodeId}
    (hchild : child ∈ node.children) {found : Node}
    (hfound : (lexer.tokenizeBytes bytes).tree.node? child = some found)
    (hother : found.kind ≠ .leaf .unexpected) :
    ∃ b, (found.span.slice bytes).head? = some b ∧ ¬ around.StartsNothing lexer.dialect b := by
  obtain ⟨own, value, item, rfl, hshows, hknown⟩ :=
    lexer.exists_known hmade hnode hkind hchild hfound
  have hinner := Branch.isOuter_of_withValue houter
  rw [hinner.withValue_eq]
  have hlabel : item.label.kind ≠ .leaf .unexpected := by
    intro hleaf
    refine hother (hshows.kind.trans ?_)
    rw [Item.kind_eq_valued, hleaf]
    rfl
  obtain ⟨b, hb, hnot⟩ := hknown.exists_head hinner hlabel
  refine ⟨b, ?_, hnot⟩
  have hproper := hknown.sits.proper
  rw [Span.slice_eq, hshows.span, List.head?_take, if_neg, hb]
  rw [Span.length]
  omega

/-- **The unexpected bytes of a source are those that can start nothing.** -/
theorem tokenizeBytes_straysApart {dialect : Dialect} {lexer : Lexer}
    (hlexer : Lexer.ofDialect dialect = .ok lexer) (bytes : Array UInt8) :
    (lexer.tokenizeBytes bytes).tree.StraysApart dialect bytes := by
  obtain rfl : lexer.dialect = dialect := Lexer.dialect_of_ofDialect hlexer
  have hmade := Lexer.ofDialect_made hlexer
  exact ⟨fun _ _ hnode hkind => unexpected_strays hmade hnode hkind,
    fun _ _ _ hnode hkind houter _ hchild _ hfound hother =>
      others_start hmade hnode hkind houter hchild hfound hother⟩

/-- A control and two brackets that close nothing: `(` and `\x01`, `]`, then `)` and `]`. -/
theorem stray_brackets_straysApart :
    ∃ lexer, Lexer.ofDialect Dialect.standard = .ok lexer ∧
      (lexer.tokenizeBytes #[0x28, 0x01, 0x5D, 0x29, 0x5D]).tree.StraysApart Dialect.standard
        #[0x28, 0x01, 0x5D, 0x29, 0x5D] ∧
      (lexer.tokenizeBytes #[0x28, 0x01, 0x5D, 0x29, 0x5D]).tree.kind? 2 =
        some (.leaf .unexpected) ∧
      (lexer.tokenizeBytes #[0x28, 0x01, 0x5D, 0x29, 0x5D]).tree.kind? 3 =
        some (.leaf .unexpected) := by
  refine ⟨_, rfl, tokenizeBytes_straysApart rfl _, ?_, ?_⟩ <;> decide +kernel

end Lexer
end StyleLex
