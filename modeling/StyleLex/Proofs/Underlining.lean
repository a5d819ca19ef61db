/-
# Diagnostics underline what is malformed

A diagnostic measures with columns, which the scan counted, but it quotes a line that the index cut
out of the source.  Both count the same: a line without its break has as many characters as the
positions on it (`codepoints_eq`), for in a text no character is cut.

A malformed node begins on the line that is quoted, in front of its break, and it does not end
within one (`Shown.of_malformed`).  So it ends on that line if no line break is in it, and else it
reaches to the end of the line: in both cases what is marked is its part of the line
(`underlineWidth_eq`).

There are two measures of a line in the program, which must agree: positions count code points as
bytes go by, and the excerpt of a diagnostic counts the characters of a decoded line.  In a text
they do, and between two places at which characters begin.  For bytes that are no text they need not
agree, since decoding puts a replacement for what is ill-formed, and so the theorem is about files
of text.

The line is taken apart into what stands before the node, the part of the node that is on the line,
and what stands behind it.  Then the caret row is a matter of lengths: as many blanks as the first
part has characters, as many carets as the second one.
-/
import StyleLex.Proofs.Characters
import StyleLex.Proofs.ExitStatus
import StyleLex.Proofs.LineIndex
import StyleLex.Proofs.Malformed

namespace StyleLex

variable {bytes : Array UInt8} {a s e k : Nat}

/-! ## 1. Stretches without a line break

A line is a stretch without a break, so that a node lies on one line is the same as that its two
ends have the same number of breaks before them. -/

/-- No line ends between two places. -/
def Unbroken (bytes : Array UInt8) (s e : Nat) : Prop :=
  ∀ i, s ≤ i → i < e → ¬ EndsLineAt bytes i

/-- No line ends between its beginning and a place on it. -/
theorem unbroken_lineStart (bytes : Array UInt8) : ∀ n, Unbroken bytes (lineStart bytes n) n
  | 0, _, _, hi => absurd hi (Nat.not_lt_zero _)
  | n + 1, i, hfirst, hi => by
    rw [lineStart] at hfirst
    split at hfirst
    · omega
    · rename_i hnot
      rcases Nat.lt_succ_iff_lt_or_eq.mp hi with hlt | rfl
      · exact unbroken_lineStart bytes n i hfirst hlt
      · exact hnot

/-- The line breaks before two places tell whether a line ends between them. -/
theorem lineBreaks_eq_iff (h : s ≤ e) :
    lineBreaks bytes s = lineBreaks bytes e ↔ Unbroken bytes s e := by
  have hmono : ∀ n, lineBreaks bytes n ≤ lineBreaks bytes (n + 1) := fun n => by
    rw [lineBreaks_succ]
    exact Nat.le_add_right _ _
  induction e, h using Nat.le_induction with
  | base => exact iff_of_true rfl fun i hi hlt => absurd hlt (Nat.not_lt.mpr hi)
  | succ n hn ih =>
    have hle : lineBreaks bytes s ≤ lineBreaks bytes n := monotone_nat_of_le_succ hmono hn
    rw [lineBreaks_succ]
    constructor
    · intro heq i hi hlt
      split at heq
      · omega
      · rename_i hnot
        rcases Nat.lt_succ_iff_lt_or_eq.mp hlt with hlt | rfl
        · exact ih.mp heq i hi hlt
        · exact hnot
    · intro hnone
      rw [if_neg (hnone n hn (Nat.lt_succ_self n)), Nat.add_zero]
      exact ih.mpr fun i hi hlt => hnone i hi (Nat.lt_succ_of_lt hlt)

/-- Places with no line end between them are on one line. -/
theorem lineStart_eq (h : s ≤ e) (hnone : Unbroken bytes s e) :
    lineStart bytes e = lineStart bytes s := by
  induction e, h using Nat.le_induction with
  | base => rfl
  | succ n hn ih =>
    rw [lineStart, if_neg (hnone n hn (Nat.lt_succ_self n))]
    exact ih fun i hi hlt => hnone i hi (Nat.lt_succ_of_lt hlt)

/-- A byte of a line break ends its line, or the line feed behind it does. -/
theorem endsLineAt_or {b : UInt8} (hbyte : bytes[k]? = some b)
    (hnewline : Byte.isNewline b = true) :
    EndsLineAt bytes k ∨ b = Byte.carriageReturn ∧ bytes[k + 1]? = some Byte.lineFeed := by
  rw [← endsLine_iff hbyte]
  cases hends : endsLine b bytes[k + 1]? with
  | true => exact Or.inl rfl
  | false => exact Or.inr (Line.eq_of_not_endsLine hnewline hends)

/-- **Where no line ends there is no byte of a line break**, but for one that is cut. -/
theorem Unbroken.plain (h : Unbroken bytes s e) (hcut : ¬ CutsBreak bytes.toList e) :
    ∀ b ∈ (bytes.toList.drop s).take (e - s), (!Byte.isNewline b) = true := by
  intro b hb
  rw [Bool.not_eq_true']
  refine Bool.eq_false_iff.mpr fun hnewline => ?_
  obtain ⟨i, hfirst, hlast, hahead⟩ := exists_of_mem_slice hb
  rw [List.head?_drop, Array.getElem?_toList] at hahead
  rcases endsLineAt_or hahead hnewline with hends | ⟨rfl, hfeed⟩
  · exact h i hfirst hlast hends
  · rcases Nat.lt_or_ge (i + 1) e with hlt | hge
    · exact h (i + 1) (by omega) hlt (Or.inl hfeed)
    · obtain rfl : e = i + 1 := by omega
      refine hcut ⟨?_, ?_⟩
      · rw [List.take_add_one, Array.getElem?_toList, hahead]
        simp
      · rw [List.head?_drop, Array.getElem?_toList]
        exact hfeed

/-- A line break that is in a stretch ends it for a run without line breaks. -/
theorem length_run_lt (h : EndsLineAt bytes k) (hk : s ≤ k) :
    ((bytes.toList.drop s).takeWhile fun b => !Byte.isNewline b).length ≤ k - s := by
  refine Nat.not_lt.mp fun hlt => ?_
  obtain ⟨b, hb, hplain⟩ := exists_head_of_lt_takeWhile hlt
  rw [List.drop_drop, List.head?_drop, Array.getElem?_toList, Nat.add_sub_cancel' hk] at hb
  rcases h with hfeed | hform | ⟨hreturn, -⟩
  · cases hb.symm.trans hfeed
    cases hplain
  · cases hb.symm.trans hform
    cases hplain
  · cases hb.symm.trans hreturn
    cases hplain

/-! ## 2. Columns are characters

Code points are counted by their first bytes, and in a text every character has one. -/

/-- Counting goes on behind a place. -/
theorem codepoints_add (has : a ≤ s) (hse : s ≤ e) :
    codepoints bytes a e = codepoints bytes a s + codepoints bytes s e := by
  simp only [codepoints, Array.toList_extract, List.extract_eq_take_drop]
  rw [show e - a = s - a + (e - s) by omega, List.take_add, List.countP_append, List.drop_drop,
    Nat.add_sub_cancel' has]

/-- **The code points between two places** are the characters there. -/
theorem codepoints_eq (h : Utf8.IsText ((bytes.toList.drop s).take (e - s))) :
    codepoints bytes s e = (Utf8.decode ((bytes.toList.drop s).take (e - s))).length := by
  rw [h.length_decode, codepoints, Array.toList_extract, List.extract_eq_take_drop]

/-- The bytes of line breaks are ASCII. -/
theorem ascii_of_not_plain (b : UInt8) (h : (!Byte.isNewline b) = false) : b < 0x80 :=
  Byte.ascii_of_isBlank (Bool.or_eq_true_iff.mpr (Or.inr (by simpa using h)))

/-- A line of a text begins with a character. -/
theorem leads_lineStart (htext : Utf8.IsText bytes.toList) : ∀ n,
    Utf8.Leads (bytes.toList.drop (lineStart bytes n))
  | 0 => htext.leads
  | n + 1 => by
    rw [lineStart]
    split
    · rename_i hends
      have hahead : ∃ b, (bytes.toList.drop n).head? = some b ∧ b < 0x80 := by
        simp only [List.head?_drop, Array.getElem?_toList]
        rcases hends with hfeed | hform | ⟨hreturn, -⟩
        · exact ⟨_, hfeed, by decide⟩
        · exact ⟨_, hform, by decide⟩
        · exact ⟨_, hreturn, by decide⟩
      obtain ⟨b, hb, hascii⟩ := hahead
      exact (htext.behind hb hascii).leads
    · exact leads_lineStart htext n

/-! ## 3. A line taken apart

`Markable` collects what is known of malformed nodes; from here on no tree is needed, only a span
and the source. -/

/-- What a span needs so that its part of a line can be marked. -/
structure Span.Markable (bytes : Array UInt8) (span : Span) : Prop where
  start : span.start.Coherent bytes
  stop : span.stop.Coherent bytes
  leadsStart : Utf8.Leads (bytes.toList.drop span.start.byte)
  leadsStop : Utf8.Leads (bytes.toList.drop span.stop.byte)
  proper : span.start.byte < span.stop.byte
  head : ∃ b, (bytes.toList.drop span.start.byte).head? = some b ∧ Byte.isNewline b = false
  whole : ¬ CutsBreak bytes.toList span.stop.byte

/-- The line on which a span begins, taken apart: what stands before the span, the part of the span
that is on the line, and what stands behind it. -/
structure Span.Parts (bytes : Array UInt8) (span : Span) (before marked after : String) : Prop where
  line : ((bytes.toList.drop (lineStart bytes span.start.byte)).takeWhile fun b =>
    !Byte.isNewline b) = Utf8.encode (before ++ marked ++ after)
  place : lineStart bytes span.start.byte + (Utf8.encode before).length = span.start.byte
  covered : ((span.slice bytes).takeWhile fun b => !Byte.isNewline b) = Utf8.encode marked
  proper : 0 < marked.length

namespace Span

/-- What stands before a span on its line. -/
def lineFront (span : Span) (bytes : Array UInt8) : List UInt8 :=
  (bytes.toList.drop (lineStart bytes span.start.byte)).take
    (span.start.byte - lineStart bytes span.start.byte)

/-- What goes on from its beginning up to the line break. -/
def lineAhead (span : Span) (bytes : Array UInt8) : List UInt8 :=
  (bytes.toList.drop span.start.byte).takeWhile fun b => !Byte.isNewline b

/-- The part of the span that is on the line. -/
def linePart (span : Span) (bytes : Array UInt8) : List UInt8 :=
  (span.lineAhead bytes).take (span.stop.byte - span.start.byte)

/-- What stands behind the span on the line. -/
def lineRest (span : Span) (bytes : Array UInt8) : List UInt8 :=
  (span.lineAhead bytes).drop (span.stop.byte - span.start.byte)

variable {span : Span}

/-- Part and rest make what goes on. -/
theorem linePart_append_lineRest : span.linePart bytes ++ span.lineRest bytes =
    span.lineAhead bytes := List.take_append_drop _ _

/-- A span that reaches to the end of the line leaves nothing of it. -/
theorem lineRest_eq_nil (h : (span.lineAhead bytes).length ≤ span.stop.byte - span.start.byte) :
    span.lineRest bytes = [] := List.drop_eq_nil_of_le h

end Span

namespace Span.Markable

variable {span : Span}

/-- There is no line break before the span on its line. -/
theorem line_eq (h : span.Markable bytes) :
    ((bytes.toList.drop (lineStart bytes span.start.byte)).takeWhile fun b =>
      !Byte.isNewline b) = span.lineFront bytes ++ span.lineAhead bytes := by
  have hle := lineStart_le bytes span.start.byte
  have hcut : ¬ CutsBreak bytes.toList span.start.byte := by
    rintro ⟨-, hfeed⟩
    obtain ⟨b, hb, hplain⟩ := h.head
    cases hb.symm.trans hfeed
    cases hplain
  have hplain : ∀ b ∈ span.lineFront bytes, (!Byte.isNewline b) = true :=
    (unbroken_lineStart bytes _).plain hcut
  have hbehind : (bytes.toList.drop (lineStart bytes span.start.byte)).drop
      (span.start.byte - lineStart bytes span.start.byte) = bytes.toList.drop span.start.byte := by
    rw [List.drop_drop, Nat.add_sub_cancel' hle]
  conv_lhs => rw [← List.take_append_drop (span.start.byte - lineStart bytes span.start.byte)
    (bytes.toList.drop (lineStart bytes span.start.byte)), hbehind]
  exact List.takeWhile_append_of_pos hplain

/-- What stands before the span is a text. -/
theorem text_front (h : span.Markable bytes) (htext : Utf8.IsText bytes.toList) :
    Utf8.IsText (span.lineFront bytes) := by
  have hle := lineStart_le bytes span.start.byte
  have hinside := h.start.inside
  rw [← Array.length_toList] at hinside
  have hbehind := (htext.split (Nat.le_trans hle hinside) (leads_lineStart htext _)).2
  refine (hbehind.split ?_ ?_).1
  · rw [List.length_drop]
    omega
  · rw [List.drop_drop, Nat.add_sub_cancel' hle]
    exact h.leadsStart

/-- So is what goes on from its beginning. -/
theorem text_ahead (h : span.Markable bytes) (htext : Utf8.IsText bytes.toList) :
    Utf8.IsText (span.lineAhead bytes) := by
  have hinside := h.start.inside
  rw [← Array.length_toList] at hinside
  exact (htext.split hinside h.leadsStart).2.takeWhile ascii_of_not_plain

/-- The line may be cut where the span ends, if it ends on the line. -/
theorem leads_rest (h : span.Markable bytes) : Utf8.Leads (span.lineRest bytes) := by
  have hproper := h.proper
  intro b hb
  obtain ⟨tail, htail⟩ : span.lineAhead bytes <+: bytes.toList.drop span.start.byte :=
    List.takeWhile_prefix _
  refine h.leadsStop b ?_
  rw [← Nat.add_sub_cancel' (Nat.le_of_lt hproper), ← List.drop_drop, ← htail]
  obtain ⟨more, hmore⟩ := List.head?_eq_some_iff.mp hb
  have hlt : span.stop.byte - span.start.byte ≤ (span.lineAhead bytes).length := by
    refine Nat.le_of_lt (Nat.not_le.mp fun hge => ?_)
    rw [lineRest_eq_nil hge] at hmore
    cases hmore
  rw [List.drop_append_of_le_length hlt]
  show (span.lineRest bytes ++ tail).head? = some b
  rw [hmore]
  rfl

/-- What the span has of the line, and what stands behind it there. -/
theorem text_parts (h : span.Markable bytes) (htext : Utf8.IsText bytes.toList) :
    Utf8.IsText (span.linePart bytes) ∧ Utf8.IsText (span.lineRest bytes) := by
  have hahead := h.text_ahead htext
  rcases Nat.le_total (span.stop.byte - span.start.byte) (span.lineAhead bytes).length with
    hle | hge
  · exact hahead.split hle h.leads_rest
  · rw [lineRest_eq_nil hge, linePart, List.take_of_length_le hge]
    exact ⟨hahead, [], rfl⟩

/-- **The line of a span has its parts.** -/
theorem parts (h : span.Markable bytes) (htext : Utf8.IsText bytes.toList) :
    span.Parts bytes (Utf8.decode (span.lineFront bytes)) (Utf8.decode (span.linePart bytes))
      (Utf8.decode (span.lineRest bytes)) := by
  have hfront := h.text_front htext
  have hproper := h.proper
  obtain ⟨hmarked, hafter⟩ := h.text_parts htext
  refine ⟨?_, ?_, ?_, ?_⟩
  · rw [h.line_eq, Utf8.encode_append, Utf8.encode_append, hfront.encode_decode,
      hmarked.encode_decode, hafter.encode_decode, List.append_assoc, linePart_append_lineRest]
  · have hle := lineStart_le bytes span.start.byte
    have hinside := h.start.inside
    rw [hfront.encode_decode, lineFront, List.length_take, List.length_drop, Array.length_toList]
    omega
  · rw [Span.slice_eq, ← List.take_takeWhile, hmarked.encode_decode]
    rfl
  · obtain ⟨b, hb, hplain⟩ := h.head
    obtain ⟨tail, htail⟩ := List.head?_eq_some_iff.mp hb
    obtain ⟨n, hn⟩ := Nat.exists_eq_add_one_of_ne_zero
      (show span.stop.byte - span.start.byte ≠ 0 by omega)
    have hfirst : span.linePart bytes =
        b :: (tail.takeWhile fun b => !Byte.isNewline b).take n := by
      rw [linePart, lineAhead, htail, List.takeWhile_cons_of_pos (by simp [hplain]), hn,
        List.take_succ_cons]
    have hlead := hmarked.leads b (by rw [hfirst]; rfl)
    rw [hmarked.length_decode, hfirst, List.countP_cons, hlead]
    exact Nat.succ_pos _

/-- The columns before a span are the characters there. -/
theorem length_front (h : span.Markable bytes) (htext : Utf8.IsText bytes.toList) :
    (Utf8.decode (span.lineFront bytes)).length = span.start.relative.codepoint := by
  rw [h.start.column]
  exact (codepoints_eq (h.text_front htext)).symm

/-- A span that ends on the line where it begins is marked whole. -/
theorem linePart_eq (h : span.Markable bytes)
    (hnone : Unbroken bytes span.start.byte span.stop.byte) :
    span.linePart bytes =
      (bytes.toList.drop span.start.byte).take (span.stop.byte - span.start.byte) := by
  rw [linePart, lineAhead, List.take_takeWhile]
  exact List.takeWhile_eq_self_iff.mpr (hnone.plain h.whole)

/-- One that goes on behind the line is marked up to the end of the line. -/
theorem length_ahead_le (hbroken : ¬ Unbroken bytes span.start.byte span.stop.byte) :
    (span.lineAhead bytes).length ≤ span.stop.byte - span.start.byte := by
  simp only [Unbroken, not_forall, not_not] at hbroken
  obtain ⟨i, hfirst, hlast, hends⟩ := hbroken
  have hrun := length_run_lt hends hfirst
  change (span.lineAhead bytes).length ≤ _ at hrun
  omega

/-- **As much is underlined as the span has on its line.** -/
theorem underlineWidth_eq (h : span.Markable bytes) (htext : Utf8.IsText bytes.toList) :
    Diagnostic.underlineWidth span
        (Utf8.decode (span.lineFront bytes) ++ Utf8.decode (span.linePart bytes) ++
          Utf8.decode (span.lineRest bytes)) =
      (Utf8.decode (span.linePart bytes)).length := by
  have hproper := (h.parts htext).proper
  have hlines : lineBreaks bytes span.start.byte = lineBreaks bytes span.stop.byte ↔
      Unbroken bytes span.start.byte span.stop.byte := lineBreaks_eq_iff (Nat.le_of_lt h.proper)
  rw [← h.start.line, ← h.stop.line] at hlines
  unfold Diagnostic.underlineWidth
  split
  · -- the span ends on its line, and its two columns are subtracted
    rename_i hline
    have hnone := hlines.mp hline
    have hmarked := (h.text_parts htext).1
    have hcolumn := h.stop.column
    rw [lineStart_eq (Nat.le_of_lt h.proper) hnone,
      codepoints_add (lineStart_le bytes _) (Nat.le_of_lt h.proper), ← h.start.column,
      codepoints_eq (h.linePart_eq hnone ▸ hmarked), ← h.linePart_eq hnone] at hcolumn
    simp only [Position.column]
    omega
  · rename_i hline
    have hle := length_ahead_le (mt hlines.mpr hline)
    have hfront := h.length_front htext
    rw [lineRest_eq_nil hle, String.length_append, String.length_append,
      show (Utf8.decode []).length = 0 from rfl]
    omega

end Span.Markable

/-! ## 4. Diagnostics

An excerpt is three rows.  The first two are the line itself with its number, and the third is the
row of carets below it. -/

namespace Diagnostic

/-- A line that is quoted with its number, and marked under a part of it. -/
def quoted (number : Nat) (before marked after : String) : String :=
  let gutter := repeated ' ' (toString number).length
  gutter ++ " |\n" ++
  toString number ++ " | " ++ (before ++ marked ++ after) ++ "\n" ++
  gutter ++ " | " ++ repeated ' ' before.length ++ repeated '^' marked.length ++ "\n"

/-- A diagnostic quotes the line on which a span begins, and marks the part of the span that is on
that line. -/
def Underlines (diagnostic : Diagnostic) (bytes : Array UInt8) (span : Span) : Prop :=
  ∃ before marked after : String, span.Parts bytes before marked after ∧
    diagnostic.render = "warning: " ++ diagnostic.message ++ "\n" ++
      "  --> " ++ diagnostic.filename ++ ":" ++ diagnostic.position.render ++ "\n" ++
      quoted (lineBreaks bytes span.start.byte + 1) before marked after

/-- A diagnostic with an excerpt shows it behind its message and its place. -/
theorem render_of_excerpt {diagnostic : Diagnostic} {excerpt : Excerpt}
    (h : diagnostic.excerpt = some excerpt) :
    diagnostic.render = "warning: " ++ diagnostic.message ++ "\n" ++
      "  --> " ++ diagnostic.filename ++ ":" ++ diagnostic.position.render ++ "\n" ++
      renderExcerpt excerpt := by
  -- to derive an equation for it would compare its texts, which takes long
  delta render
  rw [h, Option.elim_some]

/-- **The diagnostic for a span underlines it.** -/
theorem ofSpan_underlines {span : Span} (h : span.Markable bytes)
    (htext : Utf8.IsText bytes.toList) (filename message : String) :
    (ofSpan (LineIndex.ofSource bytes) filename span message).Underlines bytes span := by
  have hparts := h.parts htext
  have hnumber : span.start.lineNumber = lineBreaks bytes span.start.byte + 1 :=
    congrArg Nat.succ h.start.line
  have hline : (LineIndex.ofSource bytes).line? span.start.lineNumber = some
      (Utf8.decode (span.lineFront bytes) ++ Utf8.decode (span.linePart bytes) ++
        Utf8.decode (span.lineRest bytes)) := by
    rw [hnumber, LineIndex.line?, LineIndex.lineBytes?_at h.start.inside, Option.map_some,
      hparts.line, Utf8.decode_encode]
  refine ⟨_, _, _, hparts, ?_⟩
  have hexcerpt : (ofSpan (LineIndex.ofSource bytes) filename span message).excerpt = some _ :=
    congrArg (Option.map _) hline
  rw [render_of_excerpt hexcerpt]
  dsimp only
  rw [renderExcerpt, h.underlineWidth_eq htext, ← h.length_front htext, hnumber]
  rfl

end Diagnostic

/-- **A malformed node of a text can be marked.** -/
theorem Lexer.markable_of_malformed {lexer : Lexer} (hmade : lexer.fragments.Made)
    (htext : Utf8.IsText bytes.toList) {filename : Option String} {id : NodeId} {node : Node}
    (hnode : (lexer.tokenize { bytes := bytes, filename := filename }).tree.node? id = some node)
    (hinvalid : node.valid = false) : node.span.Markable bytes := by
  obtain ⟨hproper, -, hhead, hwhole⟩ :=
    (lexer.tokenize_shown filename bytes).of_malformed hmade htext hnode hinvalid
  obtain ⟨hstart, hstop⟩ := lexer.tokenize_coherent (Position.coherent_origin bytes) _ _ hnode
  obtain ⟨hleadsStart, hleadsStop⟩ := lexer.tokenize_leads hmade htext filename id node hnode
  exact ⟨hstart, hstop, hleadsStart, hleadsStop, hproper, hhead, hwhole⟩

namespace FileRun

variable {dialect : Dialect} {path : String} {entry : Entry} {run : FileRun}

/-- **Diagnostics underline what is malformed.**  There is one for each outermost malformed node of
a file of text: it quotes the line on which the node begins, and marks what the node has of it. -/
theorem diagnostics_underline (h : ofEntry dialect path entry = .ok run) {text : String}
    (htext : run.file.bytes.toList = Utf8.encode text) :
    List.Forall₂ (fun id diagnostic => ∃ node, run.report.tree.node? id = some node ∧
        diagnostic.position = node.span.start ∧
        diagnostic.Underlines run.file.bytes node.span)
      run.report.invalidRoots.toList run.report.diagnostics := by
  obtain ⟨hlexer, houtcome⟩ := outcome_of_ofEntry h
  have hmade := Lexer.ofDialect_made hlexer
  have hchars : Utf8.IsText run.file.bytes.toList := htext ▸ Utf8.isText_encode text
  have hinvalid : ∀ id ∈ run.report.invalidRoots.toList, ∃ node,
      run.report.tree.node? id = some node ∧ node.valid = false := by
    intro id hid
    rw [Report.invalidRoots, Tree.invalid, Array.toList_filter, Array.toList_filter] at hid
    have hflag := (List.mem_filter.mp (List.mem_of_mem_filter hid)).2
    cases hnode : run.report.tree.node? id with
    | none =>
      rw [hnode] at hflag
      cases hflag
    | some node =>
      rw [hnode, Option.any_some, Bool.not_eq_true'] at hflag
      exact ⟨node, rfl, hflag⟩
  rw [Report.diagnostics]
  generalize run.report.invalidRoots.toList = ids at hinvalid ⊢
  induction ids with
  | nil => exact .nil
  | cons id rest ih =>
    obtain ⟨node, hnode, hflag⟩ := hinvalid id List.mem_cons_self
    have hfound : run.outcome.tree.node? id = some node := hnode
    rw [houtcome] at hfound
    have hmarkable : node.span.Markable run.file.bytes :=
      Lexer.markable_of_malformed hmade hchars hfound hflag
    rw [List.filterMap_cons_some hnode, List.map_cons]
    exact .cons ⟨node, hnode, rfl, Diagnostic.ofSpan_underlines hmarkable hchars _ _⟩
      (ih fun other hother => hinvalid other (List.mem_cons_of_mem _ hother))

/-- A file with a string that its line break cuts off. -/
def brokenString : Entry :=
  .file
    { path := "a.css"
      size := 8
      content := .ok #[0xC3, 0xA9, 0x20, 0x22, 0xC3, 0xBC, 0x0D, 0x0A] }

/-- The string is two characters long, behind two others, and the line break is not marked. -/
theorem broken_string_underlined :
    ∃ run, ofEntry Dialect.standard "a.css" brokenString = .ok run ∧
      run.file.bytes.toList = Utf8.encode "\u00e9 \"\u00fc\r\n" ∧
      List.Forall₂ (fun id diagnostic => ∃ node, run.report.tree.node? id = some node ∧
          diagnostic.position = node.span.start ∧
          diagnostic.Underlines run.file.bytes node.span)
        run.report.invalidRoots.toList run.report.diagnostics ∧
      run.report.invalidRoots = #[4] ∧
      run.report.diagnostics.map Diagnostic.render =
        ["warning: malformed quoted\n  --> a.css:1:3\n  |\n1 | \u00e9 \"\u00fc\n  |   ^^\n"] := by
  have htext : #[0xC3, 0xA9, 0x20, 0x22, 0xC3, 0xBC, 0x0D, 0x0A].toList =
      Utf8.encode "\u00e9 \"\u00fc\r\n" := by decide +kernel
  have hrun : ofEntry Dialect.standard "a.css" brokenString = .ok _ := rfl
  exact ⟨_, hrun, htext, diagnostics_underline hrun htext, by decide +kernel, by decide +kernel⟩

end FileRun
end StyleLex
