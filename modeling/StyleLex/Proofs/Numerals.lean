/-
# Numerals are written as they say

Every numeral in the tree of a source says what stands in the source at its place: its parts hold
the values of its digits, in order, and its text has the form of a number in its base
(`Numeral.Written`).  The reader takes no other text (`Numeral.read?_written`), and a leaf covers
the bytes that it is read of (`Lexer.leaf_takes`).

The statement says how the text of a numeral is made up and which digits go where; it does not say
which number the numeral stands for, since that is a matter of arithmetic on its parts.  Separators
are in the text and in no part.
-/
import StyleLex.Proofs.Scan.Taking
import StyleLex.Proofs.Token.Written

namespace StyleLex
namespace Lexer

/-- **Every numeral of a source is spelled by its text.** -/
theorem numerals_written (lexer : Lexer) {bytes : Array UInt8} {id : NodeId} {node : Node}
    {numeral : Numeral} (hnode : (lexer.tokenizeBytes bytes).tree.node? id = some node)
    (hkind : node.kind = .leaf (.numeric numeral)) :
    numeral.Written lexer.dialect.extendedNumbers (node.span.slice bytes) := by
  obtain ⟨n, htakes, -, hslice⟩ := lexer.leaf_takes hnode hkind
  rw [hslice]
  cases htakes with
  | numeric read => exact Numeral.read?_written read

/-- All parts of a number, with a separator: `-1_2.5E-03`. -/
theorem separated_numeral_written :
    ∃ node : Node,
      (tokenizeBytes ⟨Dialect.extended, Fragments.empty⟩
        #[0x2D, 0x31, 0x5F, 0x32, 0x2E, 0x35, 0x45, 0x2D, 0x30, 0x33]).tree.node? 1 = some node ∧
      node.kind = .leaf (.numeric ⟨10, true, true, [1, 2], [5], [0, 3]⟩) ∧
      Numeral.Written true
        (node.span.slice #[0x2D, 0x31, 0x5F, 0x32, 0x2E, 0x35, 0x45, 0x2D, 0x30, 0x33])
        ⟨10, true, true, [1, 2], [5], [0, 3]⟩ := by
  have hkind : (tokenizeBytes ⟨Dialect.extended, Fragments.empty⟩
      #[0x2D, 0x31, 0x5F, 0x32, 0x2E, 0x35, 0x45, 0x2D, 0x30, 0x33]).tree.kind? 1 =
        some (.leaf (.numeric ⟨10, true, true, [1, 2], [5], [0, 3]⟩)) := by decide +kernel
  obtain ⟨node, hnode, hleaf⟩ := Option.map_eq_some_iff.mp hkind
  exact ⟨node, hnode, hleaf,
    numerals_written ⟨Dialect.extended, Fragments.empty⟩ hnode hleaf⟩

end Lexer
end StyleLex
