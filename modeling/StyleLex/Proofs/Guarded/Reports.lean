/-
# Diagnostics, guarded

A diagnostic quotes a line, which is a piece of the source from one line start to the next, less the
line break at its end.  The offsets in a line index ascend and none of them lies behind the source
(`Ascends`), so both pieces are there; and columns are counted from one, so there is a column
before each to measure the indent with.

Which nodes are diagnosed is read off the tree, and needs the node above each of them; a closed tree
has it.
-/
import StyleLex.Proofs.Guarded.Walks
import StyleLex.Proofs.LineIndex

namespace StyleLex

namespace Guarded

/-! ## 1. Lines

A line index is made of a source once and for all; that it ascends is a property of how it is made
(`LineIndex.ofSource_ascends`), and is all that is used of it here. -/

/-- A line without its break: the bytes up to the last that is none. -/
def dropBreak (line : List UInt8) : Guarded (List UInt8) :=
  slice line 0 (line.reverse.dropWhile Byte.isNewline).length

/-- The bytes of a line, without its break. -/
def lineBytes? (index : LineIndex) (number : Nat) : Guarded (Option (List UInt8)) :=
  match number with
  | 0 => pure none
  | i + 1 =>
    match index.starts[i]? with
    | none => pure none
    | some start => do
      let line ← slice index.source.toList start ((index.starts[i + 1]?).getD index.source.size)
      let kept ← dropBreak line
      pure (some kept)

/-- What is left of a line is no longer than the line. -/
theorem dropBreak_eq (line : List UInt8) : dropBreak line = .ok (LineIndex.dropBreak line) := by
  have hsuffix := List.dropWhile_suffix Byte.isNewline (l := line.reverse)
  rw [dropBreak, slice_eq (Nat.zero_le _) (by simpa using hsuffix.length_le), List.drop_zero,
    Nat.sub_zero, LineIndex.dropBreak]
  refine congrArg Except.ok ?_
  have hprefix := List.reverse_prefix.mpr hsuffix
  rw [List.reverse_reverse] at hprefix
  rw [List.prefix_iff_eq_take.mp hprefix, List.length_reverse]

/-- **A line is a piece of the source.** -/
theorem lineBytes?_eq {index : LineIndex} (h : Ascends index.source.size index.starts)
    (number : Nat) : lineBytes? index number = .ok (index.lineBytes? number) := by
  cases number with
  | zero => rfl
  | succ i =>
    unfold lineBytes? LineIndex.lineBytes?
    simp only
    cases hstart : index.starts[i]? with
    | none => rfl
    | some start =>
      have hbound : start ≤ index.source.size := h.bounded start (Array.mem_of_getElem? hstart)
      -- the line ends where the next one begins, or with the source
      have hstop : start ≤ (index.starts[i + 1]?).getD index.source.size ∧
          (index.starts[i + 1]?).getD index.source.size ≤ index.source.toList.length := by
        rw [Array.length_toList]
        cases hnext : index.starts[i + 1]? with
        | none => exact ⟨hbound, Nat.le_refl _⟩
        | some next =>
          refine ⟨?_, h.bounded next (Array.mem_of_getElem? hnext)⟩
          rw [← Array.getElem?_toList] at hstart hnext
          obtain ⟨hi, rfl⟩ := List.getElem?_eq_some_iff.mp hstart
          obtain ⟨hi', rfl⟩ := List.getElem?_eq_some_iff.mp hnext
          exact Nat.le_of_lt
            (List.pairwise_iff_getElem.mp h.sorted i (i + 1) hi hi' (Nat.lt_succ_self i))
      simp only
      rw [slice_eq hstop.1 hstop.2, ok_bind, dropBreak_eq, Array.toList_extract,
        List.extract_eq_take_drop]
      rfl

/-! ## 2. Diagnostics

The number of a line and the columns in it come from the span of a node, which may be of another
source.  So the line may be missing, and then nothing is quoted. -/

/-- How much of a line is underlined. -/
def underlineWidth (span : Span) (line : String) : Guarded Nat :=
  if span.start.line = span.stop.line then
    pure (max 1 (span.stop.column - span.start.column))
  else do
    let indent ← minus span.start.column 1
    pure (max 1 (line.length - indent))

/-- What is said of one malformed node, with the line that it begins on. -/
def diagnostic (index : LineIndex) (filename : String) (span : Span) (message : String) :
    Guarded Diagnostic := do
  let found ← lineBytes? index span.start.lineNumber
  match found with
  | none =>
    pure { message := message, filename := filename, position := span.start, excerpt := none }
  | some bytes => do
    let line := Utf8.decode bytes
    let width ← underlineWidth span line
    let indent ← minus span.start.column 1
    pure
      { message := message
        filename := filename
        position := span.start
        excerpt := some
          { number := span.start.lineNumber, line := line, indent := indent, width := width } }

/-- Is the node above a node well-formed, if there is one? -/
def isOutermost (tree : Tree) (id : NodeId) : Guarded Bool := do
  let node ← fetch tree id
  match node.parent with
  | some parent => do
    let above ← fetch tree parent
    pure above.valid
  | none => pure true

/-- Is a node malformed? -/
def isInvalid (tree : Tree) (id : NodeId) : Guarded Bool := do
  let node ← fetch tree id
  pure (!node.valid)

/-- One diagnostic for each malformed construct of a tree. -/
def diagnostics (tree : Tree) (source : Array UInt8) (filename : String) :
    Guarded (List Diagnostic) := do
  let ids ← preorder tree Tree.root
  let invalid ← select (isInvalid tree) ids.toList
  let outermost ← select (isOutermost tree) invalid
  let nodes ← outermost.mapM (fetch tree)
  nodes.mapM fun node =>
    diagnostic (LineIndex.ofSource source) filename node.span ("malformed " ++ node.kind.name)

variable {tree : Tree} {outline : Rose NodeId}

/-- A column can be counted from zero instead of from one. -/
theorem minus_column (position : Position) :
    minus position.column 1 = .ok position.relative.codepoint :=
  if_pos (Nat.le_add_left 1 _)

/-- The width of what is underlined has no breach. -/
theorem underlineWidth_eq (span : Span) (line : String) :
    underlineWidth span line = .ok (Diagnostic.underlineWidth span line) := by
  unfold underlineWidth Diagnostic.underlineWidth
  split
  · rfl
  · rw [minus_column]
    rfl

/-- So a diagnostic can be made. -/
theorem diagnostic_eq {index : LineIndex} (h : Ascends index.source.size index.starts)
    (filename : String) (span : Span) (message : String) :
    diagnostic index filename span message =
      .ok (Diagnostic.ofSpan index filename span message) := by
  rw [diagnostic, lineBytes?_eq h, ok_bind, Diagnostic.ofSpan, LineIndex.line?]
  cases index.lineBytes? span.start.lineNumber with
  | none => rfl
  | some bytes =>
    simp only [underlineWidth_eq, minus_column, ok_bind]
    rfl

/-- Of a node that is there one can ask whether it is malformed. -/
theorem isInvalid_eq {id : NodeId} (hid : id < tree.size) :
    isInvalid tree id = .ok ((tree.node? id).any fun node => !node.valid) := by
  obtain ⟨node, hnode⟩ := Tree.exists_node hid
  rw [isInvalid, fetch_eq hnode, hnode]
  rfl

/-- In a closed tree one can ask it of the node above, too. -/
theorem isOutermost_eq (h : tree.Closed) {id : NodeId} (hid : id < tree.size) :
    isOutermost tree id = .ok (Report.isOutermost tree id) := by
  obtain ⟨node, hnode⟩ := Tree.exists_node hid
  have hparent : tree.parent? id = node.parent := by rw [Tree.parent?, hnode, Option.bind_some]
  rw [isOutermost, fetch_eq hnode, ok_bind, Report.isOutermost, hparent]
  cases habove : node.parent with
  | none => rfl
  | some parent =>
    obtain ⟨above, hfound⟩ := Tree.exists_node ((h id node hnode).parent parent habove)
    simp only [fetch_eq hfound, hfound]
    rfl

/-- **The diagnostics of an ordered tree can be made.** -/
theorem diagnostics_eq (h : tree.Ordered outline) (report : Report) (htree : report.tree = tree) :
    diagnostics tree report.source report.path = .ok report.diagnostics := by
  subst htree
  have hnode : ∀ id ∈ (report.tree.preorder Tree.root).toList, id < report.tree.size :=
    fun id hid => lt_of_mem_preorder h (Array.mem_toList_iff.mp hid)
  have hinvalid := select_eq fun id hid => isInvalid_eq (hnode id hid)
  -- the malformed nodes are some of all nodes, and those among them that are outermost are some of
  -- these
  have houtermost : select (isOutermost report.tree)
      ((report.tree.preorder Tree.root).toList.filter fun id =>
        (report.tree.node? id).any fun node => !node.valid) = .ok report.invalidRoots.toList := by
    rw [select_eq fun id hid => isOutermost_eq h.closed (hnode id (List.mem_of_mem_filter hid)),
      Report.invalidRoots, Tree.invalid, Array.toList_filter, Array.toList_filter]
  have hroots : ∀ id ∈ report.invalidRoots.toList, id < report.tree.size := by
    intro id hid
    rw [Report.invalidRoots, Tree.invalid, Array.toList_filter, Array.toList_filter] at hid
    exact hnode id (List.mem_of_mem_filter (List.mem_of_mem_filter hid))
  rw [diagnostics, preorder_eq h h.root_lt, ok_bind, hinvalid, ok_bind, houtermost, ok_bind,
    fetchAll_eq hroots, ok_bind]
  exact mapM_eq fun node _ =>
    diagnostic_eq (LineIndex.ofSource_ascends report.source) report.path node.span _

end Guarded
end StyleLex
