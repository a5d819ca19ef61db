/-
# Numerals that are written out are read back

The text of a numeral, by itself, is one leaf, and the leaf holds the numeral: its base, its signs
and the digits of its parts (`Lexer.literal_read`).  The reader of numerals takes all of it
(`Numeral.Literal.read?_eq`), and in the root only the reader of blanks comes before.

The theorem is the converse of `Lexer.numerals_written` for sources that are a numeral and nothing
else.  Together they say that the text of a numeral determines it, and that the lexer agrees with
the grammar on which texts these are.
-/
import StyleLex.Proofs.Scan.Opening
import StyleLex.Proofs.Sole
import StyleLex.Proofs.Token.Literal

namespace StyleLex

/-- What is read as a numeral does not begin with a blank. -/
theorem Numeral.not_isBlank {extended : Bool} {b : UInt8} {tail : List UInt8}
    (h : (read? extended (b :: tail)).isSome = true) : Byte.isBlank b = false := by
  rw [Bool.eq_false_iff]
  intro hblank
  have hall : ∀ b : BitVec 8, Byte.isBlank ⟨b⟩ = true → Byte.isSign ⟨b⟩ = false ∧
      (⟨b⟩ : UInt8) ≠ Byte.dot ∧ Byte.isDecimal ⟨b⟩ = false := by
    decide +kernel
  obtain ⟨hsign, hdot, hdigit⟩ := hall b.toBitVec hblank
  rw [read?_of_lead extended tail hsign hdot hdigit] at h
  cases h

/-- **A numeral ahead is taken**, in the root. -/
theorem Scan.readNext_numeral {scope : Scope} {state : State} {numeral : Numeral} {n : Nat}
    (hroot : state.frame.branch = .root)
    (hread : Numeral.read? scope.dialect.extendedNumbers state.rest = some (numeral, n)) :
    readNext scope state = state.takeLeaf scope (.numeric numeral) n := by
  have hcontext : state.context = .root := congrArg Branch.context hroot
  have hblank : readBlank scope state = none := by
    cases hrest : state.rest with
    | nil =>
      rw [hrest, Numeral.read?_nil] at hread
      cases hread
    | cons b tail =>
      have hb : Byte.isBlank b = false := Numeral.not_isBlank (by rw [← hrest, hread]; rfl)
      rw [readBlank, hrest, List.takeWhile_cons_of_neg (by rw [hb]; decide)]
  refine readNext_of_second (by rw [hcontext, readersOf]) hblank ?_
  rw [readNumeral, hread]
  rfl

namespace Lexer

/-- **A numeral is read back from the text that writes it out.**  The root has one child, which
spans the source and is the numeral. -/
theorem literal_read (lexer : Lexer) {bytes : Array UInt8} {numeral : Numeral}
    (hliteral : Numeral.Literal lexer.dialect.extendedNumbers bytes.toList numeral) :
    ∃ (id : NodeId) (node : Node),
      (lexer.tokenizeBytes bytes).tree.children Tree.root = #[id] ∧
      (lexer.tokenizeBytes bytes).tree.node? id = some node ∧
      node.kind = .leaf (.numeric numeral) ∧ node.valid = true ∧
      node.span.start.byte = 0 ∧ node.span.stop.byte = bytes.size := by
  have hread := hliteral.read?_eq
  have hne : bytes.toList ≠ [] := by
    intro hnil
    rw [hnil, Numeral.read?_nil] at hread
    cases hread
  have hturn : Scan.readNext (lexer.scope { bytes := bytes }) (initial .root { bytes := bytes }) =
      (initial .root { bytes := bytes }).takeLeaf (lexer.scope { bytes := bytes })
        (.numeric numeral) bytes.toList.length := by
    refine Scan.readNext_numeral rfl ?_
    rw [show (initial .root { bytes := bytes }).rest = _ from Source.range_all bytes]
    exact hread
  obtain ⟨item, hitems, hkind, hvalid⟩ := items_of_leaf hne (Nat.le_refl _) hturn
  obtain ⟨node, hchildren, hnode, hshows, hstart, hstop, -⟩ := sole_shown hitems
  refine ⟨item.label.id, node, hchildren, hnode, ?_, hshows.valid.trans hvalid, hstart, hstop⟩
  rw [hshows.kind]
  obtain ⟨label, below⟩ := item
  rw [Item.kind, show label.kind = _ from hkind]

/-- A number with all its parts, and with a separator: `+1_2.05E-3`. -/
theorem signed_literal_read :
    Numeral.Literal true [0x2B, 0x31, 0x5F, 0x32, 0x2E, 0x30, 0x35, 0x45, 0x2D, 0x33]
        ⟨10, false, true, [1, 2], [0, 5], [3]⟩ ∧
      ∃ (id : NodeId) (node : Node),
        (tokenizeBytes ⟨Dialect.extended, Fragments.empty⟩
          #[0x2B, 0x31, 0x5F, 0x32, 0x2E, 0x30, 0x35, 0x45, 0x2D, 0x33]).tree.children Tree.root =
            #[id] ∧
        (tokenizeBytes ⟨Dialect.extended, Fragments.empty⟩
          #[0x2B, 0x31, 0x5F, 0x32, 0x2E, 0x30, 0x35, 0x45, 0x2D, 0x33]).tree.node? id =
            some node ∧
        node.kind = .leaf (.numeric ⟨10, false, true, [1, 2], [0, 5], [3]⟩) ∧
        node.valid = true ∧ node.span.start.byte = 0 ∧ node.span.stop.byte = 10 := by
  have hdigit : ∀ v : Fin 10, Byte.Denotes 10 (0x30 + UInt8.ofNat v) (UInt8.ofNat v) := by
    unfold Byte.Denotes
    decide
  have hwhole : Numeral.Run 10 true [0x31, 0x5F, 0x32] [1, 2] :=
    .separator (hdigit 1) rfl (.digit (hdigit 2) .nil) (List.cons_ne_nil _ _)
  have hbelow : Numeral.Point true [0x2E, 0x30, 0x35] [0, 5] :=
    .present (.digit (hdigit 0) (.digit (hdigit 5) .nil)) (List.cons_ne_nil _ _)
  have hpower : Numeral.Power true [0x45, 0x2D, 0x33] true [3] :=
    .present (Or.inr rfl) .minus (.digit (hdigit 3) .nil) (List.cons_ne_nil _ _)
  have hliteral : Numeral.Literal true
      [0x2B, 0x31, 0x5F, 0x32, 0x2E, 0x30, 0x35, 0x45, 0x2D, 0x33] _ :=
    .decimal .plus hwhole hbelow hpower (Or.inl (List.cons_ne_nil _ _))
  exact ⟨hliteral, literal_read ⟨Dialect.extended, Fragments.empty⟩ hliteral⟩

end Lexer
end StyleLex
