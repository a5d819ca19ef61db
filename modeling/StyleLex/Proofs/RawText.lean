/-
# Raw text holds nothing that ends its branch

Raw text is what the last reader of a branch takes, so none of its bytes begins anything that a
reader before it takes (`Branch.admits_raw`).  In particular nothing begins there that ends the
branch.  Hence a string, an address and a comment end with the first of their terminators that
stands in none of their escapes and branches (`Tree.EndsFirst`).

A marker of two bytes may begin in raw text and end behind it.  Therefore what is known of raw text
is said of the bytes ahead at each of its places, not of its bytes alone.

That a terminator may begin in an escape or in a branch inside is meant: an escaped quote does
not end its string, and an interpolation may hold anything.  So `EndsFirst` is about terminators
that are not sheltered in this way.  A terminator could also begin in a blank of an address, but
a blank holds no closing bracket.
-/
import StyleLex.Proofs.Children

namespace StyleLex

/-! ## 1. What raw text may hold

For each branch that has raw text, the readers that come before the last one are listed, and with
each the bytes that it would have taken. -/

/-- What breaks a line begins with a byte that does. -/
theorem Escape.head_of_newlineLength? {ahead : List UInt8} {n : Nat}
    (h : newlineLength? ahead = some n) : ∃ b, ahead.head? = some b ∧ Byte.isNewline b = true := by
  cases ahead with
  | nil => cases h
  | cons b tail => exact ⟨b, rfl, isNewline_of_newlineLength? h⟩

namespace Branch

/-- The bytes that raw text in a branch may have.  Roots, groups and fragments have none. -/
def AdmitsRaw (dialect : Dialect) (branch : Branch) (slice : List UInt8) : Prop :=
  match branch with
  | quoted quote => quote.byte ∉ slice ∧ Byte.backslash ∉ slice ∧
      (dialect.extendedStrings = false → ∀ b ∈ slice, Byte.isNewline b = false)
  | url => Byte.rightParenthesis ∉ slice ∧ Byte.backslash ∉ slice ∧
      (∀ b ∈ slice, Byte.isBlank b = false ∧ Byte.isQuote b = false) ∧
        (dialect.extendedStrings = true → Byte.backtick ∉ slice)
  | comment .block => ¬ [Byte.asterisk, Byte.slash] <:+: slice ∧
      (dialect.extendedComments = true → ¬ [Byte.slash, Byte.asterisk] <:+: slice)
  | comment .line => ∀ b ∈ slice, Byte.isNewline b = false
  | identifier _ | hash _ => ∀ b ∈ slice, Byte.isName b = true
  | _ => False

variable {dialect : Dialect} {branch : Branch} {input ahead : List UInt8} {start stop n : Nat}

/-- What is admitted does not depend on the value of a branch. -/
theorem admitsRaw_withValue (value : String) (slice : List UInt8) :
    (Tree.withValue value branch).AdmitsRaw dialect slice ↔ branch.AdmitsRaw dialect slice := by
  cases branch <;> rfl

/-- **Raw text has bytes that its branch admits**, if they were left to it, or are name bytes. -/
theorem admits_raw {nesting : Bool} (hheld : branch.holds nesting (.leaf .raw) = true)
    (hleft : ∀ i, start ≤ i → i < stop → branch.Leaves dialect (input.drop i))
    (hname : branch.isName = true →
      ∀ b ∈ (input.drop start).take (stop - start), Byte.isName b = true) :
    branch.AdmitsRaw dialect ((input.drop start).take (stop - start)) := by
  -- one case for each branch that has raw text in it
  cases branch with
  | root => cases hheld
  | group bracket => cases hheld
  | quasi form => cases hheld
  | annotation form placement => cases hheld
  | quoted quote =>
    have hbyte : ∀ b ∈ (input.drop start).take (stop - start), b ≠ quote.byte ∧
        b ≠ Byte.backslash ∧ (dialect.extendedStrings = false → Byte.isNewline b = false) := by
      intro b hb
      obtain ⟨i, hstart, hstop, hahead⟩ := exists_of_mem_slice hb
      exact hleft i hstart hstop b hahead
    exact ⟨fun h => (hbyte _ h).1 rfl, fun h => (hbyte _ h).2.1 rfl,
      fun hplain b hb => (hbyte b hb).2.2 hplain⟩
  | url =>
    have hbyte : ∀ b ∈ (input.drop start).take (stop - start), b ≠ Byte.rightParenthesis ∧
        b ≠ Byte.backslash ∧ Byte.isBlank b = false ∧ Byte.isQuote b = false ∧
          (dialect.extendedStrings = true → b ≠ Byte.backtick) := by
      intro b hb
      obtain ⟨i, hstart, hstop, hahead⟩ := exists_of_mem_slice hb
      exact hleft i hstart hstop b hahead
    refine ⟨fun h => (hbyte _ h).1 rfl, fun h => (hbyte _ h).2.1 rfl, fun b hb => ?_,
      fun henabled h => (hbyte _ h).2.2.2.2 henabled rfl⟩
    obtain ⟨-, -, hblank, hquote, -⟩ := hbyte b hb
    exact ⟨hblank, hquote⟩
  | comment form =>
    cases form with
    | block =>
      refine ⟨fun h => ?_, fun henabled h => ?_⟩
      · obtain ⟨i, hstart, hstop, hahead⟩ := exists_of_infix_slice (by simp) h
        exact (hleft i hstart hstop).1 hahead
      · obtain ⟨i, hstart, hstop, hahead⟩ := exists_of_infix_slice (by simp) h
        exact (hleft i hstart hstop).2 henabled hahead
    | line =>
      intro b hb
      obtain ⟨i, hstart, hstop, hahead⟩ := exists_of_mem_slice hb
      exact hleft i hstart hstop b hahead
  | identifier value => exact hname rfl
  | hash hash => exact hname rfl

/-! ## 2. Terminators

A terminator is what the program looks for when it closes a branch.  It is a function of the branch
and of the bytes ahead, and does not know what has been read. -/

/-- The length of what ends the text of a branch, if that is ahead. -/
def terminator? (dialect : Dialect) (branch : Branch) (ahead : List UInt8) : Option Nat :=
  match branch with
  | quoted quote =>
    if ahead.head? = some quote.byte then some 1
    else if dialect.extendedStrings then none
    else Escape.newlineLength? ahead
  | url => if ahead.head? = some Byte.rightParenthesis then some 1 else none
  | comment .block => if [Byte.asterisk, Byte.slash] <+: ahead then some 2 else none
  | comment .line => Escape.newlineLength? ahead
  | _ => none

/-- What ends a branch does not depend on its value. -/
theorem terminator?_withValue (value : String) :
    (Tree.withValue value branch).terminator? dialect ahead = branch.terminator? dialect ahead := by
  cases branch <;> rfl

/-- **What ends a branch is not left to its last reader.** -/
theorem not_leaves_of_terminator? (h : branch.terminator? dialect ahead = some n) :
    ¬ branch.Leaves dialect ahead := by
  intro hleaves
  -- what ends the branch would have been taken by its closing reader
  cases branch with
  | quoted quote =>
    rw [terminator?] at h
    split at h
    · rename_i hquote
      exact (hleaves _ hquote).1 rfl
    · split at h
      · cases h
      · rename_i hplain
        obtain ⟨b, hb, hnewline⟩ := Escape.head_of_newlineLength? h
        rw [(hleaves b hb).2.2 (Bool.eq_false_iff.mpr hplain)] at hnewline
        cases hnewline
  | url =>
    rw [terminator?] at h
    split at h
    · rename_i hclose
      exact (hleaves _ hclose).1 rfl
    · cases h
  | comment form =>
    cases form with
    | block =>
      rw [terminator?] at h
      split at h
      · rename_i hclose
        exact hleaves.1 hclose
      · cases h
    | line =>
      obtain ⟨b, hb, hnewline⟩ := Escape.head_of_newlineLength? h
      rw [hleaves b hb] at hnewline
      cases hnewline
  | _ => cases h

/-- What closes a branch is a terminator of its text. -/
theorem Tail.terminator? (h : branch.Tail dialect ahead n) (htext : branch.isText = true) :
    branch.terminator? dialect ahead = some n ∨ ahead = [] ∧ n = 0 := by
  cases h with
  | none bare =>
    rcases bare with rfl | hnarrow
    · cases htext
    · cases branch with
      | quoted | url => cases hnarrow
      | comment form => cases form <;> cases hnarrow
      | _ => cases htext
  | atEnd done => exact Or.inr ⟨done, rfl⟩
  | closer own front =>
    refine Or.inl ?_
    cases branch with
    | quoted quote =>
      obtain rfl := Option.some.inj own
      obtain ⟨tail, rfl⟩ := front
      exact if_pos rfl
    | url =>
      obtain rfl := Option.some.inj own
      obtain ⟨tail, rfl⟩ := front
      rfl
    | comment form =>
      cases form with
      | block =>
        obtain rfl := Option.some.inj own
        exact if_pos front
      | line => cases own
    | _ => cases htext
  | lineBreak bound newline =>
    refine Or.inl ?_
    rcases bound with rfl | ⟨⟨quote, rfl⟩, hplain⟩
    · exact newline
    · obtain ⟨b, hb, hnewline⟩ := Escape.head_of_newlineLength? newline
      have hquote : ahead.head? ≠ some quote.byte := by
        rw [hb]
        rintro ⟨⟩
        cases quote <;> cases hnewline
      rw [Branch.terminator?, if_neg hquote, hplain]
      exact newline

end Branch

/-- Escapes and branches: what stands in them ends nothing around them. -/
def Kind.shelters : Kind → Bool
  | .leaf (.escape _) | .branch _ => true
  | _ => false

/-- A leaf in the text of a branch is raw, an escape, or, in an address, a blank. -/
theorem Branch.leaf_of_isText {branch : Branch} {nesting : Bool} {leaf : Leaf}
    (htext : branch.isText = true) (hheld : branch.holds nesting (.leaf leaf) = true) :
    (Kind.leaf leaf).shelters = true ∨ leaf = .raw ∨ leaf = .blank ∧ branch = .url := by
  cases branch with
  | quoted quote =>
    cases leaf <;> first | exact Or.inl rfl | exact Or.inr (Or.inl rfl) | cases hheld
  | url =>
    cases leaf <;> first | exact Or.inl rfl | exact Or.inr (Or.inl rfl) |
      exact Or.inr (Or.inr ⟨rfl, rfl⟩) | cases hheld
  | comment form =>
    cases form <;> cases leaf <;> first | exact Or.inr (Or.inl rfl) | cases hheld
  | _ => cases htext

namespace Item

/-- Where items stand side by side, every place is in one of them. -/
theorem Abut.exists_covering : ∀ {a b : Nat} {items : List Item}, Abut a items b →
    ∀ i, a ≤ i → i < b →
    ∃ item ∈ items, item.label.span.start.byte ≤ i ∧ i < item.label.span.stop.byte
  | a, b, [], h, i, ha, hb => by
    obtain rfl : a = b := h
    omega
  | a, b, item :: rest, ⟨hstart, habut⟩, i, ha, hb => by
    by_cases hi : i < item.label.span.stop.byte
    · exact ⟨item, List.mem_cons_self, by omega, hi⟩
    · obtain ⟨found, hfound, hcovers⟩ := habut.exists_covering i (by omega) hb
      exact ⟨found, List.mem_cons_of_mem _ hfound, hcovers⟩

variable {dialect : Dialect} {input : List UInt8} {around : Branch} {item : Item}

/-- **What holds a terminator of the text around it shelters it.** -/
theorem Known.shelters (h : Item.Known dialect input around item) (htext : around.isText = true)
    {i n : Nat} (hstart : item.label.span.start.byte ≤ i) (hstop : i < item.label.span.stop.byte)
    (hends : around.terminator? dialect (input.drop i) = some n) :
    item.label.kind.shelters = true := by
  cases hkind : item.label.kind with
  | branch inner => rfl
  | leaf leaf =>
    have hheld := h.held
    rw [hkind] at hheld
    rcases Branch.leaf_of_isText htext hheld with hshelters | rfl | ⟨rfl, rfl⟩
    · exact hshelters
    · have hleft := h.left (by rw [hkind]; rfl) i hstart hstop
      exact absurd hleft (Branch.not_leaves_of_terminator? hends)
    · -- a blank holds no bracket
      obtain ⟨m, htakes, hend⟩ := h.spoken.leaf .blank hkind
      cases htakes with
      | blank =>
        obtain ⟨k, rfl⟩ := Nat.exists_eq_add_of_le hstart
        obtain ⟨b, hb, hblank⟩ := exists_head_of_lt_takeWhile (k := k) (p := Byte.isBlank)
          (l := input.drop item.label.span.start.byte) (by omega)
        rw [List.drop_drop] at hb
        rw [Branch.terminator?, hb] at hends
        split at hends
        · rename_i hclose
          rw [Option.some.inj hclose] at hblank
          cases hblank
        · cases hends

/-- What is known of raw text makes it admissible. -/
theorem Known.admits_raw (h : Item.Known dialect input around item)
    (hraw : item.label.kind = .leaf .raw) :
    around.AdmitsRaw dialect ((input.drop item.label.span.start.byte).take
      (item.label.span.stop.byte - item.label.span.start.byte)) := by
  refine Branch.admits_raw (hraw ▸ h.held) (h.left (by rw [hraw]; rfl)) fun hname b hb => ?_
  have hrun := h.run hname hraw
  rw [hrun, Nat.add_sub_cancel_left] at hb
  refine List.mem_takeWhile_imp (l := input.drop item.label.span.start.byte) ?_
  rw [List.prefix_iff_eq_take.mp (List.takeWhile_prefix Byte.isName)]
  exact hb

end Item

/-! ## 3. The tree of a source

Between the opener and what closes a branch its children stand side by side, so a terminator in
there begins in one of them. -/

/-- A branch ends first where its text is terminated: it ends with a terminator, or with the source,
and any terminator before that begins in an escape or in a branch inside it. -/
structure Tree.EndsFirst (tree : Tree) (dialect : Dialect) (bytes : Array UInt8) (node : Node)
    (branch : Branch) : Prop where
  /-- The content and what closes it, in order. -/
  within : node.span.start.byte + branch.openerLength ≤ tree.contentEnd node branch ∧
    tree.contentEnd node branch ≤ node.span.stop.byte
  terminated :
    branch.terminator? dialect (bytes.toList.drop (tree.contentEnd node branch)) =
        some (node.span.stop.byte - tree.contentEnd node branch) ∨
      tree.contentEnd node branch = bytes.size ∧ node.span.stop.byte = bytes.size
  first : ∀ i, node.span.start.byte + branch.openerLength ≤ i → i < tree.contentEnd node branch →
    (branch.terminator? dialect (bytes.toList.drop i)).isSome = true →
    ∃ child ∈ node.children, ∃ found, tree.node? child = some found ∧
      found.kind.shelters = true ∧ found.span.start.byte ≤ i ∧ i < found.span.stop.byte

/-- Raw text in a tree has bytes that the branch around it admits, and strings, addresses and
comments end first where they are terminated. -/
structure Tree.KeepsRaw (tree : Tree) (dialect : Dialect) (bytes : Array UInt8) : Prop where
  raw : ∀ id node branch, tree.node? id = some node → node.kind = .branch branch →
    ∀ child ∈ node.children, ∀ found, tree.node? child = some found → found.kind = .leaf .raw →
      branch.AdmitsRaw dialect (found.span.slice bytes)
  ends : ∀ id node branch, tree.node? id = some node → node.kind = .branch branch →
    branch.isText = true → tree.EndsFirst dialect bytes node branch

namespace Lexer

variable {lexer : Lexer} {bytes : Array UInt8} {id : NodeId} {node : Node} {branch : Branch}

/-- The raw text of a branch in the tree. -/
theorem raw_admitted (hmade : lexer.fragments.Made)
    (hnode : (lexer.tokenizeBytes bytes).tree.node? id = some node)
    (hkind : node.kind = .branch branch) {child : NodeId} (hchild : child ∈ node.children)
    {found : Node} (hfound : (lexer.tokenizeBytes bytes).tree.node? child = some found)
    (hraw : found.kind = .leaf .raw) :
    branch.AdmitsRaw lexer.dialect (found.span.slice bytes) := by
  obtain ⟨around, value, item, rfl, hshows, hknown⟩ :=
    lexer.exists_known hmade hnode hkind hchild hfound
  rw [Branch.admitsRaw_withValue, Span.slice_eq, hshows.span]
  exact hknown.admits_raw (hshows.label_leaf hraw)

/-- The text of a branch ends within the source. -/
theorem inside_of_isText (lexer : Lexer)
    (hnode : (lexer.tokenizeBytes bytes).tree.node? id = some node)
    (hkind : node.kind = .branch branch) (htext : branch.isText = true) :
    node.span.stop.byte ≤ bytes.size := by
  have hshown := lexer.tokenizeBytes_shown bytes
  have hne : id ≠ Tree.root := by
    rintro rfl
    obtain ⟨root, hroot, hrootkind, -⟩ := hshown.root
    obtain rfl : node = root := Option.some.inj (hnode.symm.trans hroot)
    obtain rfl : branch = .root := Kind.branch.inj (hkind.symm.trans hrootkind)
    cases htext
  obtain ⟨item, -, -, hshows, hsits, -⟩ := hshown.exists_item hnode hne
  rw [hshows.span, ← Array.length_toList]
  exact hsits.inside

/-- **Strings, addresses and comments end first where they are terminated.** -/
theorem ends_first (hmade : lexer.fragments.Made)
    (hnode : (lexer.tokenizeBytes bytes).tree.node? id = some node)
    (hkind : node.kind = .branch branch) (htext : branch.isText = true) :
    (lexer.tokenizeBytes bytes).tree.EndsFirst lexer.dialect bytes node branch := by
  have htiled := lexer.tokenizeBytes_tiled bytes
  obtain ⟨-, hle, htail⟩ := htiled.branches id node branch hnode hkind
  obtain ⟨around, value, below, rfl, hchildren, habut, hheld, hknown⟩ :=
    lexer.exists_children hmade hnode hkind
  refine ⟨⟨habut.le fun item hitem => (hknown.each item hitem).sits, hle⟩, ?_, ?_⟩
  · refine (htail.terminator? htext).imp_right fun ⟨hdone, hnothing⟩ => ?_
    have hsize := List.drop_eq_nil_iff.mp hdone
    have hinside := lexer.inside_of_isText hnode hkind htext
    rw [Array.length_toList] at hsize
    omega
  · -- a terminator before the end begins in a child, and that child shelters it
    intro i hstart hstop hends
    obtain ⟨n, hn⟩ := Option.isSome_iff_exists.mp hends
    rw [Branch.terminator?_withValue] at hn
    rw [Branch.isText_withValue] at htext
    obtain ⟨item, hitem, hfrom, hto⟩ := habut.exists_covering i hstart hstop
    obtain ⟨found, hfound, hshows⟩ := (hheld item hitem).shows
    refine ⟨item.label.id, ?_, found, hfound, ?_, ?_⟩
    · rw [hchildren, List.mem_toArray]
      exact List.mem_map_of_mem hitem
    · rw [hshows.kind, Item.kind_eq_valued]
      have hshelters := (hknown.each item hitem).shelters htext hfrom hto hn
      cases hlabel : item.label.kind with
      | leaf leaf =>
        rw [hlabel] at hshelters
        exact hshelters
      | branch inner => rfl
    · rw [hshows.span]
      exact ⟨hfrom, hto⟩

/-- **No raw text holds what ends the branch around it.**  So strings, addresses and comments end
with their first terminator that stands in no escape and in no branch inside them. -/
theorem tokenizeBytes_keepsRaw {dialect : Dialect} {lexer : Lexer}
    (hlexer : Lexer.ofDialect dialect = .ok lexer) (bytes : Array UInt8) :
    (lexer.tokenizeBytes bytes).tree.KeepsRaw dialect bytes := by
  obtain rfl : lexer.dialect = dialect := Lexer.dialect_of_ofDialect hlexer
  have hmade := Lexer.ofDialect_made hlexer
  exact ⟨fun _ _ _ hnode hkind _ hchild _ hfound hraw =>
      raw_admitted hmade hnode hkind hchild hfound hraw,
    fun _ _ _ hnode hkind htext => ends_first hmade hnode hkind htext⟩

/-- A string with an escaped quote: `"a\"b"`. -/
theorem escaped_quote_keepsRaw :
    ∃ lexer, Lexer.ofDialect Dialect.standard = .ok lexer ∧
      (lexer.tokenizeBytes #[0x22, 0x61, 0x5C, 0x22, 0x62, 0x22]).tree.KeepsRaw Dialect.standard
        #[0x22, 0x61, 0x5C, 0x22, 0x62, 0x22] ∧
      (lexer.tokenizeBytes #[0x22, 0x61, 0x5C, 0x22, 0x62, 0x22]).tree.kind? 1 =
        some (.branch (.quoted .double)) ∧
      (lexer.tokenizeBytes #[0x22, 0x61, 0x5C, 0x22, 0x62, 0x22]).tree.kind? 4 =
        some (.leaf .raw) := by
  refine ⟨_, rfl, tokenizeBytes_keepsRaw rfl _, ?_, ?_⟩ <;> decide +kernel

end Lexer
end StyleLex
