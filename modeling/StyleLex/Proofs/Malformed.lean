/-
# Where malformed nodes begin and end

A malformed node begins with a byte that is no line break, and it does not end within one, between a
carriage return and its line feed.  For it is a stray, an escape, or a branch that something opened;
and what cuts it off is a whole line break, the end of the source, or for a hash the end of the name
or the escape that is last in it.

This is needed to underline what is malformed.  A diagnostic quotes one line and marks a part of it;
if a node began with a line break, or ended in the middle of one, then the part could be empty, or
the columns that were counted on the way could be those of another line.

The cases are those in which a node is malformed.  That an escape does not end within a line break
is the longest of them, since an escape may take a line break as the blank behind its digits, and
takes both of its bytes then.
-/
import StyleLex.Proofs.Strays
import StyleLex.Proofs.Token.Places
import StyleLex.Proofs.Validity

namespace StyleLex

/-! ## 1. Line breaks that are cut

A place is judged by the bytes on both sides of it, so that what is read up to it and what follows
can be looked at separately. -/

/-- Is a place between the two bytes of one line break? -/
def CutsBreak (input : List UInt8) (k : Nat) : Prop :=
  (input.take k).getLast? = some Byte.carriageReturn ∧ (input.drop k).head? = some Byte.lineFeed

variable {dialect : Dialect} {input : List UInt8} {i k n : Nat}

/-- At the end of the input nothing is cut. -/
theorem not_cutsBreak_of_le (h : input.length ≤ k) : ¬ CutsBreak input k := by
  intro hcut
  have hhead := hcut.2
  rw [List.drop_eq_nil_of_le h] at hhead
  cases hhead

/-- What is read up to such a place ends with a carriage return. -/
theorem CutsBreak.getLast? (h : CutsBreak input (i + n)) (hne : (input.drop i).take n ≠ []) :
    ((input.drop i).take n).getLast? = some Byte.carriageReturn := by
  have hlast := h.1
  rw [List.take_add, List.getLast?_append_of_ne_nil _ hne] at hlast
  exact hlast

/-- So there is one in what is read. -/
theorem CutsBreak.mem (h : CutsBreak input (i + n)) (hne : (input.drop i).take n ≠ []) :
    Byte.carriageReturn ∈ (input.drop i).take n :=
  List.mem_of_getLast? (h.getLast? hne)

namespace Escape

variable {tail more : List UInt8} {reading : Reading}

/-- A line break is taken whole. -/
theorem not_cutsBreak_of_newlineLength? (h : newlineLength? (input.drop i) = some n) :
    ¬ CutsBreak input (i + n) := by
  intro hcut
  have hfeed := hcut.2
  cases hahead : input.drop i with
  | nil =>
    rw [hahead] at h
    cases h
  | cons b rest =>
    have hlast := hcut.getLast? (n := n)
    rw [← List.drop_drop, hahead] at hfeed
    rw [hahead] at h hlast
    rw [newlineLength?] at h
    split at h
    · rename_i hreturn
      obtain ⟨rfl, hnext⟩ := by simpa using hreturn
      obtain ⟨further, rfl⟩ := List.head?_eq_some_iff.mp hnext
      cases h
      cases hlast (List.cons_ne_nil _ _)
    · rename_i hnot
      split at h
      · cases h
        obtain rfl : b = Byte.carriageReturn :=
          Option.some.inj (hlast (List.cons_ne_nil _ _))
        exact hnot (by simpa using hfeed)
      · cases h

/-- The blank behind the digits of an escape is no lone carriage return. -/
theorem not_carriageReturn_of_terminatorLength (more : List UInt8) :
    (more.take (terminatorLength more)).getLast? ≠ some Byte.carriageReturn := by
  intro hlast
  cases more with
  | nil => cases hlast
  | cons b rest =>
    rw [terminatorLength] at hlast
    split at hlast
    · rename_i hreturn
      obtain ⟨rfl, hnext⟩ := by simpa using hreturn
      obtain ⟨further, rfl⟩ := List.head?_eq_some_iff.mp hnext
      cases hlast
    · split at hlast
      · rename_i hblank
        cases hlast
        cases hblank
      · cases hlast

/-- **No escape ends within a line break.** -/
theorem not_cutsBreak (htext : Utf8.IsText input)
    (h : read? dialect (input.drop i) = some reading) : ¬ CutsBreak input (i + reading.length) := by
  obtain ⟨tail, hahead, hread⟩ := exists_backslash h
  intro hcut
  have hpos := (closed_iff h).1
  have hne : (input.drop i).take reading.length ≠ [] := by
    rw [hahead, ne_eq, List.take_eq_nil_iff, not_or]
    exact ⟨by omega, List.cons_ne_nil _ _⟩
  -- digits, letters and braces are no carriage return
  have hspelled : ∀ {bytes : List UInt8}, Byte.carriageReturn ∈ bytes →
      ¬ ∀ b ∈ bytes, Byte.spells b = true := fun hin hall =>
    absurd (Byte.of_spells (hall _ hin)).2 (by decide)
  have hlast := hcut.getLast? hne
  rw [hahead] at hlast
  rcases hread with hextended | hstandard | hliteral
  · exact hspelled (List.mem_of_getLast? hlast) (extended_of_readExtended? hextended).spells
  · -- it ends with a digit, or with the blank behind the digits
    obtain ⟨digits, more, rfl, hdigits, hlength⟩ := exists_digits hstandard
    rw [hlength, Nat.add_comm 1, Nat.add_right_comm, List.take_succ_cons,
      List.take_length_add_append, ← List.cons_append, List.getLast?_append] at hlast
    cases hterminator : (more.take (terminatorLength more)).getLast? with
    | none =>
      rw [hterminator, Option.none_or] at hlast
      exact hspelled (List.mem_of_getLast? hlast)
        (List.forall_mem_cons.mpr ⟨by decide, hdigits⟩)
    | some last =>
      rw [hterminator, Option.some_or] at hlast
      exact not_carriageReturn_of_terminatorLength more (hterminator.trans hlast)
  · -- the character that the backslash stands before has no other ASCII bytes
    have htail := htext.behind (by rw [hahead]; rfl) (by decide)
    rw [← List.drop_drop, hahead, List.drop_succ_cons, List.drop_zero] at htail
    obtain ⟨chars, hchars⟩ := htail
    cases chars with
    | nil =>
      rw [hchars] at hliteral
      cases hliteral
    | cons c chars =>
      obtain ⟨lead, more, hbytes, hsequence⟩ := Utf8.encodeChar_eq c
      rw [List.flatMap_cons, hbytes, List.cons_append] at hchars
      rw [hchars, readLiteral?] at hliteral
      split at hliteral
      · cases hliteral
      · rename_i hplain
        cases hliteral
        rw [hchars, hsequence.announced, List.take_succ_cons, List.take_succ_cons,
          List.take_left] at hlast
        have hin := List.mem_of_getLast? hlast
        simp only [List.mem_cons] at hin
        rcases hin with hslash | rfl | hmore
        · cases hslash
        · exact hplain rfl
        · cases hsequence.continues _ hmore

/-- A continuation of a line takes the line break whole. -/
theorem not_cutsBreak_of_continuationLength? (h : continuationLength? (input.drop i) = some n) :
    ¬ CutsBreak input (i + n) := by
  cases hahead : input.drop i with
  | nil =>
    rw [hahead] at h
    cases h
  | cons b rest =>
    have hrest : input.drop (i + 1) = rest := by
      rw [← List.drop_drop, hahead, List.drop_succ_cons, List.drop_zero]
    rw [hahead, continuationLength?] at h
    split at h
    · rename_i hline
      cases h
      rw [← Nat.add_assoc]
      cases hnewline : newlineLength? rest with
      | some m => exact not_cutsBreak_of_newlineLength? (hrest ▸ hnewline)
      | none =>
        have hnil : rest = [] := by
          rw [hnewline, Option.isSome_none, Bool.or_false, Bool.and_eq_true] at hline
          exact List.isEmpty_iff.mp hline.2
        exact not_cutsBreak_of_le (List.drop_eq_nil_iff.mp (hrest.trans hnil))
    · cases h

end Escape

/-! ## 2. Items

A malformed item is an escape, an unexpected run, or a branch that was cut off. -/

/-- A byte that can start nothing is no line break. -/
theorem Branch.StartsNothing.not_newline {around : Branch} {b : UInt8}
    (h : around.StartsNothing dialect b) : Byte.isNewline b = false := by
  rcases h with hcontrol | ⟨rfl, -⟩ | ⟨hcloser, -⟩
  · grind [Byte.BareControl, Byte.isNewline]
  · rfl
  · grind [Byte.isCloser, Byte.isNewline]

namespace Item.Known

variable {around : Branch} {item : Item}

/-- **An escape does not end within a line break.** -/
theorem not_cutsBreak_of_escape (h : Known dialect input around item) (htext : Utf8.IsText input)
    {escape : Escape} (hkind : item.label.kind = .leaf (.escape escape)) :
    ¬ CutsBreak input item.label.span.stop.byte := by
  obtain ⟨n, htakes, hstop⟩ := h.spoken.leaf _ hkind
  rcases Nat.le_total (item.label.span.start.byte + n) input.length with hle | hle
  · rw [hstop, Nat.min_eq_left hle]
    cases htakes with
    | escape read => exact Escape.not_cutsBreak htext read
    | continuation read => exact Escape.not_cutsBreak_of_continuationLength? read
  · exact not_cutsBreak_of_le (by rw [hstop, Nat.min_eq_right hle])

/-- **Nothing that stands in a name ends within a line break.** -/
theorem not_cutsBreak_in_name (h : Known dialect input around item) (htext : Utf8.IsText input)
    (hname : around.isName = true) : ¬ CutsBreak input item.label.span.stop.byte := by
  have hkind : item.label.kind = .leaf .raw ∨
      ∃ escape, item.label.kind = .leaf (.escape escape) := by
    have hheld := h.held
    have hinner : item.label.kind.inName = true := by
      cases around with
      | identifier | hash => exact hheld
      | _ => cases hname
    revert hinner
    unfold Kind.inName
    split <;> simp_all
  -- a run of name bytes has no carriage return in it
  rcases hkind with hraw | ⟨escape, hescape⟩
  · intro hcut
    have hrun := h.run hname hraw
    have hproper := h.sits.proper
    rw [hrun] at hcut
    have hne : (input.drop item.label.span.start.byte).take
        ((input.drop item.label.span.start.byte).takeWhile Byte.isName).length ≠ [] := by
      rw [Escape.takeWhile_eq_take, ne_eq, ← List.length_eq_zero_iff]
      omega
    have hin := hcut.mem hne
    rw [Escape.takeWhile_eq_take] at hin
    cases List.mem_takeWhile_imp hin
  · exact h.not_cutsBreak_of_escape htext hescape

/-- A branch that is malformed does not end within a line break. -/
theorem not_cutsBreak_of_branch {id : NodeId} {branch : Branch} {span : Span} {below : List Item}
    {inner : Nat} {valid : Bool}
    (h : Known dialect input around (.node ⟨id, .branch branch, valid, span⟩ below))
    (hinside : KnownAll dialect input branch below) (htext : Utf8.IsText input)
    (abut : Abut (span.start.byte + branch.openerLength) below inner)
    (closing : inner ≤ span.stop.byte)
    (ends : Ends dialect branch (below.getLast?.map (·.label.kind)) (input.drop inner) valid
      (span.stop.byte - inner)) (hinvalid : valid = false) :
    ¬ CutsBreak input span.stop.byte := by
  obtain ⟨n, hstop⟩ := Nat.exists_eq_add_of_le closing
  rw [hstop, Nat.add_sub_cancel_left] at ends
  rw [hstop]
  generalize hrest : input.drop inner = rest at ends
  generalize below.getLast?.map (·.label.kind) = last at ends
  cases ends with
  | broken plain ahead => exact Escape.not_cutsBreak_of_newlineLength? (hrest ▸ ahead)
  | unterminated =>
    exact not_cutsBreak_of_le (List.drop_eq_nil_iff.mp hrest)
  | @hash hash =>
    -- it ends where the last thing in it does, or behind its sign
    rcases List.eq_nil_or_concat below with rfl | ⟨front, item, rfl⟩
    · intro hcut
      have hsign : (input.drop span.start.byte).head? = some Byte.hash := h.begun _ rfl
      obtain ⟨tail, htail⟩ := List.head?_eq_some_iff.mp hsign
      have hinner : span.start.byte + 1 = inner := abut
      rw [Nat.add_zero, ← hinner] at hcut
      have hin := hcut.mem (by rw [htail]; exact List.cons_ne_nil _ _)
      rw [htail] at hin
      cases List.mem_singleton.mp hin
    · rw [List.concat_eq_append] at abut hinside
      rw [Nat.add_zero, ← (abut_split abut).2]
      exact (hinside.each item (by simp)).not_cutsBreak_in_name htext rfl
  | _ => cases hinvalid

/-- **A malformed item** begins with no line break, and does not end within one. -/
theorem of_malformed (h : Known dialect input around item)
    (hinside : ∀ branch, item.label.kind = .branch branch →
      KnownAll dialect input branch item.children)
    (htext : Utf8.IsText input) (hinvalid : item.label.valid = false) :
    (∃ b, (input.drop item.label.span.start.byte).head? = some b ∧ Byte.isNewline b = false) ∧
      ¬ CutsBreak input item.label.span.stop.byte := by
  have hsits := h.sits
  cases hsits with
  | @leaf id leaf valid span proper inside sound =>
    obtain rfl : valid = false := hinvalid
    have hunsound := mt sound.mpr Bool.false_ne_true
    cases leaf with
    | escape escape =>
      -- an escape that nothing closes begins with its backslash
      obtain ⟨-, digits, hahead⟩ := Escape.leftOpen_take (not_not.mp hunsound)
      refine ⟨⟨Byte.backslash, ?_, by decide⟩, h.not_cutsBreak_of_escape htext rfl⟩
      show (input.drop span.start.byte).head? = _
      rw [hahead]
      rfl
    | unexpected =>
      -- an unexpected run has nothing but strays, and no stray is a line break
      have hplain := fun b hb => (h.strays rfl b hb).not_newline
      obtain ⟨n, hstop⟩ := Nat.exists_eq_add_of_lt proper
      have hcount : span.stop.byte - span.start.byte = n + 1 := by omega
      obtain ⟨b, tail, hahead⟩ := List.exists_cons_of_ne_nil
        (mt List.drop_eq_nil_iff.mp (show ¬ input.length ≤ span.start.byte by omega))
      have hslice : (input.drop span.start.byte).take (span.stop.byte - span.start.byte) =
          b :: tail.take n := by rw [hahead, hcount, List.take_succ_cons]
      refine ⟨⟨b, ?_, hplain b (hslice ▸ List.mem_cons_self)⟩, fun hcut => ?_⟩
      · show (input.drop span.start.byte).head? = _
        rw [hahead]
        rfl
      · change CutsBreak input span.stop.byte at hcut
        rw [← Nat.add_sub_cancel' (Nat.le_of_lt proper)] at hcut
        cases hplain _ (hcut.mem (hslice ▸ List.cons_ne_nil _ _))
    | _ => exact absurd trivial hunsound
  | @branch id branch valid span below inner proper inside named abut closing ends =>
    refine ⟨?_, h.not_cutsBreak_of_branch (hinside branch rfl) htext abut closing ends hinvalid⟩
    refine Branch.Begins.head_not_newline (h.begun branch rfl) ?_
    rintro value rfl
    rw [ends.valid_of_identifier] at hinvalid
    cases hinvalid

end Item.Known

/-! ## 3. The tree of a source

A malformed node shows a malformed item. -/

/-- **Where the malformed nodes of a text begin and end.** -/
theorem Shown.of_malformed {lexer : Lexer} {bytes : Array UInt8} {tree : Tree}
    (h : Shown lexer.dialect bytes tree (lexer.items { bytes := bytes }))
    (hmade : lexer.fragments.Made) (htext : Utf8.IsText bytes.toList) {id : NodeId} {node : Node}
    (hnode : tree.node? id = some node) (hinvalid : node.valid = false) :
    node.span.start.byte < node.span.stop.byte ∧ node.span.stop.byte ≤ bytes.size ∧
      (∃ b, (bytes.toList.drop node.span.start.byte).head? = some b ∧
        Byte.isNewline b = false) ∧
      ¬ CutsBreak bytes.toList node.span.stop.byte := by
  have hne : id ≠ Tree.root := by
    rintro rfl
    obtain ⟨root, hroot, -, hvalid, -⟩ := h.root
    obtain rfl : node = root := Option.some.inj (hnode.symm.trans hroot)
    rw [hvalid] at hinvalid
    cases hinvalid
  obtain ⟨around, item, hshows, hknown, hinside⟩ := h.exists_known hmade hnode hne
  rw [hshows.valid] at hinvalid
  rw [hshows.span, ← Array.length_toList]
  exact ⟨hknown.sits.proper, hknown.sits.inside, hknown.of_malformed hinside htext hinvalid⟩

end StyleLex
