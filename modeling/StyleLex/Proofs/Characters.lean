/-
# No character of a text is cut

In a text, every node of its tree begins and ends between two characters
(`Lexer.tokenizeBytes_keepsCharacters`), for a scan marks no other places (`Scan.View.Whole`).  So
the text that a run covers is encoded in the bytes that it covers.

In other bytes this fails: decoding replaces what is ill-formed.

The bytes of a range that is cut inside a character are no text any more, so this is about sources
that are read to their end.  The scan counts bytes and does not look for characters; that its places
fall between them has a reason for each reader: most stop in front of an ASCII byte, an escape takes
as many bytes as a character has, and raw text that is taken byte by byte goes on as long as a
character does.
-/
import StyleLex.Proofs.Coherence
import StyleLex.Proofs.Reads
import StyleLex.Proofs.Scan.Whole

namespace StyleLex

/-! ## 1. Scans of texts

The invariant is about the place where the scan stands and about the marks that it has made.  Inside
raw text it may stand within a character, but then it makes no mark. -/

namespace Lexer

open Scan

/-- **A scan of a text makes its marks where characters begin**, and ends at such a place. -/
theorem scan_whole (lexer : Lexer) (hmade : lexer.fragments.Made) {bytes : Array UInt8}
    (htext : Utf8.IsText bytes.toList) :
    Utf8.Leads (bytes.toList.drop (lexer.scan .root { bytes := bytes }).position.byte) ∧
      ∀ mark ∈ (lexer.scan .root { bytes := bytes }).marks,
        Utf8.Leads (bytes.toList.drop mark.place.byte) := by
  have horderly : (initial .root { bytes := bytes }).view.Orderly
      lexer.dialect.extendedComments :=
    ⟨rfl, .singleton _, fun hfragment => absurd hfragment Bool.false_ne_true⟩
  have hwhole : (initial .root { bytes := bytes }).view.Whole bytes.toList := by
    have hleads : Utf8.Leads (Source.range { bytes := bytes }) := by
      rw [Source.range_all]
      exact htext.leads
    exact ⟨Or.inl hleads, nofun⟩
  obtain ⟨hroot, hlaid, -, -, hwhole⟩ := lexer.scan_preserves bytes
    (P := fun view => view.Orderly lexer.dialect.extendedComments ∧
      view.Kept lexer.dialect.extendedComments ∧ view.Whole bytes.toList)
    ⟨horderly, nofun, hwhole⟩
    -- each turn of the main loop, and then each branch that is closed at the end
    (fun state _ ahead hlaid hstep ⟨horderly, hkept, hwhole⟩ => by
      have hturn : Turn (lexer.scope { bytes := bytes }).dialect state.view
          (readNext (lexer.scope { bytes := bytes }) state).view :=
        readNext_turn hmade horderly fun hroot houter => hroot (hlaid.eq_root houter)
      exact ⟨horderly.step hturn.fits hstep (horderly.readNext_spelled ahead hturn.fits),
        hkept.step horderly hturn.fits hstep,
        hwhole.step htext hlaid.rest hkept hturn hstep⟩)
    fun _ _ _ hrest hlaid hstep ⟨horderly, hkept, hwhole⟩ => by
      have hturn := hstep.turn_of_nil hrest
      exact ⟨horderly.step hturn.fits hstep (horderly.spelled_of_nil hstep hrest),
        hkept.step horderly hturn.fits hstep,
        hwhole.step htext hlaid.rest hkept hturn hstep⟩
  have hleads := hwhole.here.resolve_right fun hin => by
    -- raw text goes on in no root
    have htext : (lexer.scan .root { bytes := bytes }).frame.branch.isText = true := hin.2
    rw [hroot] at htext
    cases htext
  exact ⟨hlaid.rest ▸ hleads, hwhole.marks⟩

end Lexer

/-! ## 2. The tree of a text

What is between two places where characters begin is a text, and decoding and encoding it gives the
bytes back. -/

/-- A fresh tree has the text of a run from its span. -/
theorem Tree.Fresh.text?_eq {tree : Tree} {source : Array UInt8} (h : tree.Fresh source)
    {id : NodeId} {node : Node} (hnode : tree.node? id = some node)
    (hrun : node.kind.isRun = true) : tree.text? source id = some (node.span.read source) := by
  rw [Tree.text?, hnode, Option.bind_some, Tree.text?_of_isRun hrun]
  cases hcached : node.cached with
  | none => rfl
  | some text => rw [Option.getD_some, h id node hnode hrun text hcached]

/-- Nodes begin and end between the characters of a text, and runs have texts that are encoded in
the bytes of their spans. -/
structure Tree.KeepsCharacters (tree : Tree) (bytes : Array UInt8) (text : String) : Prop where
  spans : ∀ id node, tree.node? id = some node →
    Utf8.Between text node.span.start.byte ∧ Utf8.Between text node.span.stop.byte
  texts : ∀ id node, tree.node? id = some node →
    node.kind = .leaf .raw ∨ node.kind = .leaf .blank ∨ node.kind = .leaf .unexpected →
    ∃ covered, tree.text? bytes id = some covered ∧ Utf8.encode covered = node.span.slice bytes

namespace Lexer

variable {lexer : Lexer} {bytes : Array UInt8}

/-- The nodes of a text begin and end where characters begin. -/
theorem tokenize_leads (hmade : lexer.fragments.Made) (htext : Utf8.IsText bytes.toList)
    (filename : Option String) :
    (lexer.tokenize { bytes := bytes, filename := filename }).tree.Spanned fun position =>
      Utf8.Leads (bytes.toList.drop position.byte) := by
  obtain ⟨hposition, hmarks⟩ := lexer.scan_whole hmade htext
  exact lexer.extend_spanned (Tree.spanned_new _ htext.leads) Tree.root .root
    { bytes := bytes, filename := filename } hposition hmarks

/-- A node does not end before it begins, or behind the source. -/
theorem span_ordered (lexer : Lexer) {id : NodeId} {node : Node}
    (hnode : (lexer.tokenizeBytes bytes).tree.node? id = some node) :
    node.span.start.byte ≤ node.span.stop.byte ∧ node.span.stop.byte ≤ bytes.toList.length := by
  have hshown := lexer.tokenizeBytes_shown bytes
  by_cases hid : id = Tree.root
  · subst hid
    obtain ⟨root, hroot, -, -, hstart, hstop, -⟩ := hshown.root
    obtain rfl : node = root := Option.some.inj (hnode.symm.trans hroot)
    rw [hstart, hstop, Array.length_toList]
    exact ⟨Nat.zero_le _, Nat.le_refl _⟩
  · obtain ⟨item, -, -, hshows, hsits, -⟩ := hshown.exists_item hnode hid
    rw [hshows.span]
    exact ⟨Nat.le_of_lt hsits.proper, hsits.inside⟩

/-- **No character of a text is cut.**  Every node begins and ends between two characters, and the
text of a run is encoded in the bytes that it covers. -/
theorem tokenizeBytes_keepsCharacters {dialect : Dialect}
    (hlexer : Lexer.ofDialect dialect = .ok lexer) {text : String}
    (htext : bytes.toList = Utf8.encode text) :
    (lexer.tokenizeBytes bytes).tree.KeepsCharacters bytes text := by
  have hchars : Utf8.IsText bytes.toList := htext ▸ Utf8.isText_encode text
  have hleads := tokenize_leads (ofDialect_made hlexer) hchars none
  have hfaithful : (lexer.tokenizeBytes bytes).tree.Faithful bytes :=
    lexer.tokenize_faithful { bytes := bytes }
  refine ⟨fun id node hnode => ?_, fun id node hnode hrun => ?_⟩
  · obtain ⟨hstart, hstop⟩ := hleads id node hnode
    obtain ⟨hle, hinside⟩ := lexer.span_ordered hnode
    rw [htext] at hstart hstop hinside
    exact ⟨Utf8.between_of_leads (Nat.le_trans hle hinside) hstart,
      Utf8.between_of_leads hinside hstop⟩
  · obtain ⟨hstart, hstop⟩ := hleads id node hnode
    obtain ⟨hle, hinside⟩ := lexer.span_ordered hnode
    have hisRun : node.kind.isRun = true := by
      rcases hrun with hkind | hkind | hkind <;>
      · rw [hkind]
        rfl
    refine ⟨_, hfaithful.fresh.text?_eq hnode hisRun, ?_⟩
    rw [Span.read, Span.slice_eq]
    exact Utf8.encode_decode_slice hchars hle hinside hstart hstop

/-- A string of one character of two bytes, and a blank. -/
theorem accented_string_keepsCharacters :
    ∃ lexer, Lexer.ofDialect Dialect.standard = .ok lexer ∧
      #[0x22, 0xC3, 0xA9, 0x22, 0x20].toList = Utf8.encode "\"\u00e9\" " ∧
      (lexer.tokenizeBytes #[0x22, 0xC3, 0xA9, 0x22, 0x20]).tree.KeepsCharacters
        #[0x22, 0xC3, 0xA9, 0x22, 0x20] "\"\u00e9\" " ∧
      (lexer.tokenizeBytes #[0x22, 0xC3, 0xA9, 0x22, 0x20]).tree.text?
        #[0x22, 0xC3, 0xA9, 0x22, 0x20] 2 = some "\u00e9" := by
  have htext : #[0x22, 0xC3, 0xA9, 0x22, 0x20].toList = Utf8.encode "\"\u00e9\" " := by
    decide +kernel
  exact ⟨_, rfl, htext, tokenizeBytes_keepsCharacters
    (show Lexer.ofDialect Dialect.standard = _ from rfl) htext, by decide +kernel⟩

end Lexer
end StyleLex
