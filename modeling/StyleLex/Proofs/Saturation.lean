/-
# Escapes in braces stop at a bound

Where extended escapes are switched on, a source of escapes in braces is one identifier with these
escapes for its children, whatever their digits (`Lexer.braced_escapes_read`).  Each one holds the
number that it spells, or the largest code point that is kept if the number is larger; and its text
is the character of the number itself.

The number that is kept and the character that is shown are different things, and are bounded for
different reasons.  The number is bounded so that it fits a machine word; the character is U+FFFD
for every number that is no scalar value, and that is the case far below the bound.  So the bound on
the number cannot be seen in a text.
-/
import StyleLex.Proofs.Scan.Opening
import StyleLex.Proofs.Sole
import StyleLex.Proofs.Spelling
import StyleLex.Proofs.Token.Braced

namespace StyleLex

/-! ## 1. The leaves of an identifier

An identifier in braces is a row of escapes, and the invariant compares two rows: the leaves so far,
and the numbers that were spelled. -/

/-- The item is a closed escape of a number, which is kept at the bound. -/
structure Item.Escapes (item : Item) (number : Nat) : Prop where
  kind : item.label.kind = .leaf (.escape ⟨some (min number Escape.largest)⟩)
  valid : item.label.valid = true

/-- Its text is the character of the number. -/
theorem Item.Escapes.text {bytes : Array UInt8} {item : Item} {number : Nat}
    (h : item.Escapes number) : item.text bytes = (Escape.character number).toString := by
  obtain ⟨label, below⟩ := item
  rw [Item.text, show label.kind = _ from h.kind]
  exact congrArg Char.toString (Escape.charOf_capped number)

/-- The texts of some escapes are their characters. -/
theorem Item.textAll_escapes (bytes : Array UInt8) {items : List Item} {numbers : List Nat}
    (h : List.Forall₂ Item.Escapes items numbers) :
    textAll bytes items = String.ofList (numbers.map Escape.character) := by
  induction h with
  | nil => rfl
  | @cons item number items numbers hfirst _ ih =>
    rw [textAll, hfirst.text, ih, List.map_cons, ← List.singleton_append, String.ofList_append]
    rfl

/-- The escapes so far and those that are spelled ahead are the escapes of all numbers. -/
def Escape.Gathered (numbers : List Nat) (children : List Item) (rest : List UInt8) : Prop :=
  ∃ front back, numbers = front ++ back ∧ List.Forall₂ Item.Escapes children front ∧
    Escape.Braced back rest

namespace Scan

variable {scope : Scope}

/-- **Every turn takes one escape.** -/
theorem collects_braced (hextended : scope.dialect.extendedEscapes = true) (numbers : List Nat) :
    Collects scope (Escape.Gathered numbers) := by
  rintro state children hbranch ahead ⟨front, back, rfl, hchildren, hback⟩
  cases back with
  | nil =>
    generalize hrest : state.rest = rest at hback
    cases hback
    exact absurd hrest ahead
  | cons number further =>
    obtain ⟨n, hread, hmore⟩ := hback.next hextended
    refine ⟨.escape ⟨some (min number Escape.largest)⟩, true, n, ?_, fun id span => ?_⟩
    · rw [readNext_identifier_escape hbranch hread, view_escaped, ← hbranch]
      rfl
    · refine ⟨front ++ [number], further, List.append_cons _ _ _, ?_, hmore⟩
      exact List.rel_append hchildren (.cons ⟨rfl, rfl⟩ .nil)

/-- Escapes in braces open an identifier. -/
theorem readNext_of_braced (hmade : scope.fragments.Made) {numbers : List Nat}
    (hne : numbers ≠ []) {state : State} (hroot : state.frame.branch = .root)
    (hbraced : Escape.Braced numbers state.rest) :
    readNext scope state = state.openBranch (.identifier "") := by
  generalize hrest : state.rest = rest at hbraced
  cases hbraced with
  | nil => exact absurd rfl hne
  | cons written filled spells more =>
    refine readNext_identifier hmade hroot hrest (by decide) ?_ ?_ ?_
    · rw [Bool.eq_false_iff]
      intro hurl
      obtain ⟨tail, hdrop⟩ := name_of_beginsUrl hurl
      rw [hrest, List.takeWhile_cons_of_neg (by decide)] at hdrop
      cases hdrop
    · rw [hrest]
      rfl
    · rw [hrest]
      rfl

end Scan

/-! ## 2. Whole sources

The node is the identifier, and its children are the leaves; each is found by its place in the row.
-/

namespace Lexer

/-- **Escapes in braces make one identifier, whatever numbers they spell.**  It spans the source,
its children are the escapes, each one valid, with its number kept at the bound and the character
of the number for its text, and its value is these characters. -/
theorem braced_escapes_read {dialect : Dialect} {lexer : Lexer}
    (hlexer : Lexer.ofDialect dialect = .ok lexer) (hextended : dialect.extendedEscapes = true)
    {numbers : List Nat} (hne : numbers ≠ []) {bytes : Array UInt8}
    (hbraced : Escape.Braced numbers bytes.toList) :
    ∃ (id : NodeId) (node : Node),
      (lexer.tokenizeBytes bytes).tree.children Tree.root = #[id] ∧
      (lexer.tokenizeBytes bytes).tree.node? id = some node ∧
      node.kind = .branch (.identifier (String.ofList (numbers.map Escape.character))) ∧
      node.valid = true ∧ node.span.start.byte = 0 ∧ node.span.stop.byte = bytes.size ∧
      List.Forall₂
        (fun child number => ∃ leaf : Node,
          (lexer.tokenizeBytes bytes).tree.node? child = some leaf ∧
          leaf.kind = .leaf (.escape ⟨some (min number (2 ^ 32 - 1))⟩) ∧ leaf.valid = true ∧
          leaf.text? bytes = some (Escape.character number).toString)
        node.children.toList numbers := by
  have hmade := Lexer.ofDialect_made hlexer
  rw [← Lexer.dialect_of_ofDialect hlexer] at hextended
  have hbytes : bytes.toList ≠ [] := by
    intro hnil
    rw [hnil] at hbraced
    cases hbraced
    exact hne rfl
  obtain ⟨item, hitems, hkind, hvalid, front, back, hnumbers, hchildren, hback⟩ :=
    items_of_identifier (P := Escape.Gathered numbers) hbytes ⟨[], numbers, rfl, .nil, hbraced⟩
      (fun state hroot hrest => Scan.readNext_of_braced hmade hne hroot (hrest ▸ hbraced))
      (Scan.collects_braced hextended numbers)
  obtain rfl : numbers = front := by
    cases hback
    rw [hnumbers, List.append_nil]
  obtain ⟨node, hsole, hnode, hshows, hstart, hstop, hheld⟩ := sole_shown hitems
  refine ⟨item.label.id, node, hsole, hnode, ?_, hshows.valid.trans hvalid, hstart, hstop, ?_⟩
  · rw [hshows.kind, ← Item.textAll_escapes bytes hchildren]
    obtain ⟨label, below⟩ := item
    rw [Item.kind, show label.kind = _ from hkind]
    rfl
  · rw [hshows.children, List.toList_toArray, List.forall₂_map_left_iff]
    refine ((List.forall₂_and_left _ _).mpr ⟨hheld, hchildren⟩).imp fun child number hchild => ?_
    obtain ⟨hholds, hescapes⟩ := hchild
    obtain ⟨leaf, hleaf, hshown⟩ := hholds.shows
    have hleafkind : leaf.kind = .leaf (.escape ⟨some (min number Escape.largest)⟩) := by
      obtain ⟨label, below⟩ := child
      rw [hshown.kind, Item.kind, show label.kind = _ from hescapes.kind]
    refine ⟨leaf, hleaf, hleafkind, hshown.valid.trans hescapes.valid, ?_⟩
    rw [Node.text?, hleafkind, ← Escape.charOf_capped]
    rfl

/-- A number with zeros in front, and one above the bound: `\u{0048}\u{100000041}`. -/
theorem capped_escapes_read :
    Escape.Braced [0x48, 0x100000041] [0x5C, 0x75, 0x7B, 0x30, 0x30, 0x34, 0x38, 0x7D,
        0x5C, 0x75, 0x7B, 0x31, 0x30, 0x30, 0x30, 0x30, 0x30, 0x30, 0x34, 0x31, 0x7D] ∧
      ∃ (id : NodeId) (node : Node),
        (tokenizeBytes ⟨Dialect.extended, Fragments.empty⟩ #[0x5C, 0x75, 0x7B, 0x30, 0x30, 0x34,
          0x38, 0x7D, 0x5C, 0x75, 0x7B, 0x31, 0x30, 0x30, 0x30, 0x30, 0x30, 0x30, 0x34, 0x31,
          0x7D]).tree.node? id = some node ∧
        node.kind = .branch (.identifier "H\uFFFD") ∧ node.span.stop.byte = 21 := by
  have hdigit : ∀ v : Fin 10, Byte.Denotes 16 (0x30 + UInt8.ofNat v) (UInt8.ofNat v) := by
    unfold Byte.Denotes
    decide
  have hsmall : Numeral.Digits 16 [0x30, 0x30, 0x34, 0x38] [0, 0, 4, 8] :=
    .cons (hdigit 0) (.cons (hdigit 0) (.cons (hdigit 4) (.cons (hdigit 8) .nil)))
  have hlarge : Numeral.Digits 16 [0x31, 0x30, 0x30, 0x30, 0x30, 0x30, 0x30, 0x34, 0x31]
      [1, 0, 0, 0, 0, 0, 0, 4, 1] :=
    .cons (hdigit 1) (.cons (hdigit 0) (.cons (hdigit 0) (.cons (hdigit 0) (.cons (hdigit 0)
      (.cons (hdigit 0) (.cons (hdigit 0) (.cons (hdigit 4) (.cons (hdigit 1) .nil))))))))
  have hbraced : Escape.Braced [0x48, 0x100000041] (#[0x5C, 0x75, 0x7B, 0x30, 0x30, 0x34, 0x38,
      0x7D, 0x5C, 0x75, 0x7B, 0x31, 0x30, 0x30, 0x30, 0x30, 0x30, 0x30, 0x34, 0x31,
      0x7D] : Array UInt8).toList :=
    .cons hsmall (List.cons_ne_nil _ _) (by decide)
      (.cons hlarge (List.cons_ne_nil _ _) (by decide) .nil)
  have hlexer : Lexer.ofDialect Dialect.extended = .ok ⟨Dialect.extended, Fragments.empty⟩ := by rfl
  obtain ⟨id, node, -, hnode, hkind, -, -, hstop, -⟩ :=
    braced_escapes_read hlexer rfl (List.cons_ne_nil _ _) hbraced
  exact ⟨hbraced, id, node, hnode, hkind, hstop⟩

end Lexer
end StyleLex
