/-
# What a literal escape covers

A literal escape stands for the code point after its backslash.  How many bytes it covers is read
off the first of them alone: the backslash, that byte, and then as many bytes as it announces,
whatever they are, or those up to the end of the input (`Lexer.literal_escape_covers`).

In a text these are the continuation bytes of one character (`Utf8.Sequence`), so the escape holds
no further ASCII byte.  In other bytes it may: a quote behind a byte that announces one more belongs
to the escape, and the string goes on behind it (`Lexer.literal_escape_takes_quote`).

Whether the input is text is not checked by the lexer, which reads bytes.  So bytes that are no text
are inputs as well, and for these an escape may take a byte that belongs to no character at all: the
length is announced by the first byte and taken on trust.
-/
import StyleLex.Proofs.Scan.Taking
import StyleLex.Proofs.Token.Encoded

namespace StyleLex

/-! ## 1. Literal escapes

In UTF-8 a byte that announces more is followed by as many continuation bytes, and a text is a row
of such sequences; so wherever a text is cut in front of an ASCII byte, sequences begin. -/

namespace Escape

/-- A backslash, one byte, and continuation bytes. -/
def Contained (slice : List UInt8) : Prop :=
  ∃ b more, slice = Byte.backslash :: b :: more ∧ ∀ c ∈ more, Utf8.isContinuation c = true

/-- **In a text, the bytes that follow a backslash begin a character.** -/
theorem contained_of_text {text : String} {front further : List UInt8} {b : UInt8}
    (h : Utf8.encode text = front ++ Byte.backslash :: b :: further) :
    Contained (Byte.backslash :: b :: further.take (Utf8.sequenceLength b - 1)) := by
  rw [Utf8.encode_eq_flatMap] at h
  obtain ⟨chars, hchars⟩ := Utf8.exists_behind_ascii (by decide) _ _ _ h
  cases chars with
  | nil => cases hchars
  | cons c chars =>
    obtain ⟨lead, more, hbytes, hsequence⟩ := Utf8.encodeChar_eq c
    rw [List.flatMap_cons, hbytes] at hchars
    obtain ⟨rfl, rfl⟩ := List.cons.inj hchars
    refine ⟨b, more, ?_, hsequence.continues⟩
    rw [hsequence.announced, Nat.add_sub_cancel]
    exact congrArg _ (congrArg _ List.take_left)

end Escape

/-- The node is a literal escape: it stands for a code point, and behind its backslash no extended
and no hexadecimal escape is read. -/
structure Node.IsLiteralEscape (dialect : Dialect) (bytes : Array UInt8) (node : Node) : Prop where
  kind : ∃ codepoint, node.kind = .leaf (.escape ⟨some codepoint⟩)
  notExtended : dialect.extendedEscapes = true →
    Escape.readExtended? (bytes.toList.drop (node.span.start.byte + 1)) = none
  notStandard : dialect.standardEscapes = true →
    Escape.readStandard? (bytes.toList.drop (node.span.start.byte + 1)) = none

namespace Lexer

/-! ## 2. What one covers

Which of the three sorts an escape is of cannot be seen in its leaf, which holds a code point only.
So it is read off the source: the other two readers decline. -/

/-- **A literal escape covers its backslash, one byte that ends no line, and the bytes that this
one announces**, unless the input ends before.  In a text these are continuation bytes. -/
theorem literal_escape_covers (lexer : Lexer) {bytes : Array UInt8} {id : NodeId} {node : Node}
    (hnode : (lexer.tokenizeBytes bytes).tree.node? id = some node)
    (hliteral : node.IsLiteralEscape lexer.dialect bytes) :
    ∃ b more, node.span.slice bytes = Byte.backslash :: b :: more ∧ Byte.isNewline b = false ∧
      node.kind = .leaf (.escape ⟨some (Utf8.scalarAt (b :: more))⟩) ∧
      (more.length + 1 = Utf8.sequenceLength b ∨
        more.length + 1 < Utf8.sequenceLength b ∧ node.span.stop.byte = bytes.size) ∧
      ∀ text, bytes.toList = Utf8.encode text → Escape.Contained (node.span.slice bytes) := by
  obtain ⟨codepoint, hkind⟩ := hliteral.kind
  obtain ⟨n, htakes, hstop, hslice⟩ := lexer.leaf_takes hnode hkind
  have hextended := hliteral.notExtended
  have hstandard := hliteral.notStandard
  rw [← List.tail_drop] at hextended hstandard
  generalize hrest : bytes.toList.drop node.span.start.byte = rest at *
  generalize hleaf : Leaf.escape ⟨some codepoint⟩ = leaf at htakes
  cases htakes with
  | @escape reading read =>
    -- the leaf was read as an escape, and only the literal reader is left
    have hbegins : Escape.begins rest = true := by
      rw [← Escape.isSome_read? lexer.dialect, read]
      rfl
    obtain ⟨b, further, rfl, hnewline⟩ := Escape.begins_iff.mp hbegins
    rw [List.tail_cons] at hextended hstandard
    rw [Escape.read?_of_literal hextended hstandard, Escape.readLiteral?, hnewline,
      if_neg Bool.false_ne_true, Option.some.injEq] at read
    subst read
    have hpositive := Escape.sequenceLength_pos b
    obtain ⟨k, hk⟩ : ∃ k, Utf8.sequenceLength b = k + 1 := ⟨_, (Nat.sub_add_cancel hpositive).symm⟩
    -- what it covers is all that is announced, or what is left
    have hcovered : node.span.slice bytes = Byte.backslash :: b :: further.take k := by
      rw [hslice, hk]
      rfl
    refine ⟨b, further.take k, hcovered, hnewline, ?_, ?_, fun text htext => ?_⟩
    · rw [hkind, hleaf, Utf8.scalarAt_take b further (Nat.le_of_eq hk)]
    · have hlength := congrArg List.length hrest
      rw [List.length_drop, Array.length_toList, List.length_cons, List.length_cons] at hlength
      rw [List.length_take, hk]
      rw [hk] at hstop
      dsimp only at hstop
      omega
    · rw [hcovered, ← Nat.add_sub_cancel (n := k) (m := 1), ← hk]
      have hplace : Utf8.encode text =
          bytes.toList.take node.span.start.byte ++ Byte.backslash :: b :: further := by
        rw [← htext, ← hrest, List.take_append_drop]
      exact Escape.contained_of_text hplace
  | _ => cases hleaf

/-- A letter of two bytes is escaped: `\é` is an identifier with one escape in it. -/
theorem letter_escape_contained :
    ∃ (node : Node) (b : UInt8) (more : List UInt8),
      (tokenizeBytes ⟨Dialect.standard, Fragments.empty⟩
        #[0x5C, 0xC3, 0xA9]).tree.node? 2 = some node ∧
      node.IsLiteralEscape Dialect.standard #[0x5C, 0xC3, 0xA9] ∧
      node.span.slice #[0x5C, 0xC3, 0xA9] = Byte.backslash :: b :: more ∧
      Escape.Contained (node.span.slice #[0x5C, 0xC3, 0xA9]) := by
  have hread : ((tokenizeBytes ⟨Dialect.standard, Fragments.empty⟩
      #[0x5C, 0xC3, 0xA9]).tree.node? 2).map (fun node => (node.kind, node.span.start.byte)) =
        some (.leaf (.escape ⟨some 0xE9⟩), 0) := by decide +kernel
  obtain ⟨node, hnode, heq⟩ := Option.map_eq_some_iff.mp hread
  obtain ⟨hkind, hstart⟩ := Prod.mk.inj heq
  have hliteral : node.IsLiteralEscape Dialect.standard #[0x5C, 0xC3, 0xA9] := by
    refine ⟨⟨_, hkind⟩, fun henabled => (nomatch henabled), fun _ => ?_⟩
    rw [hstart]
    decide +kernel
  obtain ⟨b, more, hslice, -, -, -, htext⟩ :=
    literal_escape_covers ⟨Dialect.standard, Fragments.empty⟩ hnode hliteral
  exact ⟨node, b, more, hnode, hliteral, hslice, htext "\\é" (by decide +kernel)⟩

/-- **Behind a byte that announces one more, an escape takes the quote that would end its
string**: in the bytes `"`, `\`, 0xC3 and `"`, which are no text. -/
theorem literal_escape_takes_quote :
    ∃ (lexer : Lexer) (node : Node), ofDialect Dialect.standard = .ok lexer ∧
      (lexer.tokenizeBytes #[0x22, 0x5C, 0xC3, 0x22]).tree.node? 2 = some node ∧
      node.IsLiteralEscape lexer.dialect #[0x22, 0x5C, 0xC3, 0x22] ∧
      ¬ Escape.Contained (node.span.slice #[0x22, 0x5C, 0xC3, 0x22]) := by
  have hread : ((tokenizeBytes ⟨Dialect.standard, Fragments.empty⟩
      #[0x22, 0x5C, 0xC3, 0x22]).tree.node? 2).map
        (fun node => (node.kind, node.span.start.byte, node.span.stop.byte)) =
        some (.leaf (.escape ⟨some 0xE2⟩), 1, 4) := by decide +kernel
  obtain ⟨node, hnode, heq⟩ := Option.map_eq_some_iff.mp hread
  obtain ⟨hkind, heq⟩ := Prod.mk.inj heq
  obtain ⟨hstart, hstop⟩ := Prod.mk.inj heq
  refine ⟨⟨Dialect.standard, Fragments.empty⟩, node, rfl, hnode,
    ⟨⟨_, hkind⟩, fun henabled => (nomatch henabled), fun _ => ?_⟩, ?_⟩
  · rw [hstart]
    decide +kernel
  · rintro ⟨b, more, hslice, hmore⟩
    have hcovered : node.span.slice #[0x22, 0x5C, 0xC3, 0x22] = [0x5C, 0xC3, 0x22] := by
      rw [Span.slice, hstart, hstop]
      decide +kernel
    obtain ⟨-, htail⟩ := List.cons.inj (hcovered.symm.trans hslice)
    obtain ⟨-, rfl⟩ := List.cons.inj htail
    exact absurd (hmore 0x22 (List.mem_singleton_self _)) (by decide)

end Lexer
end StyleLex
