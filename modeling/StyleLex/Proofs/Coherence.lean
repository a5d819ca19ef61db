/-
# Lines and columns

A position counts what stands before it in the source, from the first byte and from the start of
its line.  A scan does not count anew, though: it moves its position byte by byte, and needs the
byte behind to know whether a carriage return ends a line.  At the bound that is a byte which the
scan will not read.

A position is coherent with a source if it counts what it should (`Position.Coherent`).  A scan
that begins at a coherent position stays at coherent ones wherever its bound is
(`View.Coherent.step`), for it looks at the byte behind the bound.  So all nodes begin and end at
coherent positions, whatever a session does with the source (`session_coherent`).

The counts that are meant are defined over the whole source and from its beginning, with no
reference to how they are found: line breaks among the first bytes, and code points between two
places.  What the scan keeps is their difference from one byte to the next, so the step lemma is
four equations about a count that grows by one element (`Position.Coherent.advance`).

A session may stop a call anywhere, also between the two bytes of a line break or inside a
character.  Nothing special happens there: in the first case the carriage return ends no line, in
both calls, since the byte behind the bound is known; in the second, the code point has been counted
with its first byte.
-/
import StyleLex.Proofs.Scan.Reading
import StyleLex.Proofs.Session

namespace StyleLex

/-! ## 1. Coherent positions

`EndsLineAt` is decidable, so that breaks can be counted.  A line begins behind the last break, so
the count that starts anew with a line is that of the bytes since then. -/

/-- Does a line end with the byte at `i`?  A carriage return before a line feed ends none. -/
def EndsLineAt (bytes : Array UInt8) (i : Nat) : Prop :=
  bytes[i]? = some Byte.lineFeed ∨ bytes[i]? = some Byte.formFeed ∨
    (bytes[i]? = some Byte.carriageReturn ∧ bytes[i + 1]? ≠ some Byte.lineFeed)

instance (bytes : Array UInt8) : DecidablePred (EndsLineAt bytes) := fun i =>
  inferInstanceAs (Decidable (bytes[i]? = some Byte.lineFeed ∨ bytes[i]? = some Byte.formFeed ∨
    (bytes[i]? = some Byte.carriageReturn ∧ bytes[i + 1]? ≠ some Byte.lineFeed)))

/-- The number of line breaks among the first `n` bytes. -/
def lineBreaks (bytes : Array UInt8) (n : Nat) : Nat :=
  (List.range n).countP fun i => decide (EndsLineAt bytes i)

/-- Where the line begins on which the byte at `n` stands: behind the last break before it. -/
def lineStart (bytes : Array UInt8) : Nat → Nat
  | 0 => 0
  | n + 1 => if EndsLineAt bytes n then n + 1 else lineStart bytes n

/-- The number of code points that begin at `a` or behind it, and before `b`. -/
def codepoints (bytes : Array UInt8) (a b : Nat) : Nat :=
  (bytes.extract a b).toList.countP fun byte => !Utf8.isContinuation byte

/-- A position counts what stands before it in a source. -/
structure Position.Coherent (bytes : Array UInt8) (position : Position) : Prop where
  inside : position.byte ≤ bytes.size
  line : position.line = lineBreaks bytes position.byte
  relative : position.relative.byte = position.byte - lineStart bytes position.byte
  codepoint : position.absolute.codepoint = codepoints bytes 0 position.byte
  column : position.relative.codepoint =
    codepoints bytes (lineStart bytes position.byte) position.byte

variable {bytes : Array UInt8}

/-- A line begins at or before what stands on it. -/
theorem lineStart_le (bytes : Array UInt8) : ∀ n, lineStart bytes n ≤ n
  | 0 => Nat.le_refl 0
  | n + 1 => by
    rw [lineStart]
    split
    · exact Nat.le_refl _
    · exact Nat.le_succ_of_le (lineStart_le bytes n)

/-- One byte further on there is one more break, if the byte ends a line. -/
theorem lineBreaks_succ (bytes : Array UInt8) (n : Nat) :
    lineBreaks bytes (n + 1) = lineBreaks bytes n + if EndsLineAt bytes n then 1 else 0 := by
  rw [lineBreaks, List.range_succ, List.countP_append, List.countP_singleton, lineBreaks]
  simp only [decide_eq_true_iff]

/-- No code point begins between a place and itself. -/
theorem codepoints_self (bytes : Array UInt8) (n : Nat) : codepoints bytes n n = 0 := by
  rw [codepoints, Array.extract_empty_of_stop_le_start (Nat.le_refl n)]
  rfl

/-- One byte further on there is one more code point, if the byte begins one. -/
theorem codepoints_succ {a n : Nat} {b : UInt8} (h : a ≤ n) (hbyte : bytes[n]? = some b) :
    codepoints bytes a (n + 1) =
      if Utf8.isContinuation b then codepoints bytes a n else codepoints bytes a n + 1 := by
  have hlast : (bytes.toList.drop a)[n - a]? = some b := by
    rw [List.getElem?_drop, Nat.add_sub_cancel' h, Array.getElem?_toList, hbyte]
  have hcount : n + 1 - a = n - a + 1 := by omega
  rw [codepoints, codepoints, Array.toList_extract, Array.toList_extract, List.extract_eq_take_drop,
    List.extract_eq_take_drop, hcount, List.take_add_one, hlast, Option.toList_some,
    List.countP_append, List.countP_singleton]
  cases Utf8.isContinuation b <;> rfl

/-- A line ends where the byte behind says that it does. -/
theorem endsLine_iff {i : Nat} {b : UInt8} (hbyte : bytes[i]? = some b) :
    endsLine b bytes[i + 1]? = true ↔ EndsLineAt bytes i := by
  have hfeed : Byte.lineFeed ≠ Byte.carriageReturn := by decide
  have hform : Byte.formFeed ≠ Byte.carriageReturn := by decide
  rw [EndsLineAt, hbyte, endsLine, Byte.isNewline]
  simp only [Option.some.injEq, Bool.and_eq_true, Bool.or_eq_true, beq_iff_eq, Bool.not_eq_true',
    Bool.and_eq_false_iff, beq_eq_false_iff_ne]
  constructor
  · rintro ⟨(rfl | rfl) | rfl, hnext⟩
    · exact Or.inl rfl
    · exact Or.inr (Or.inr ⟨rfl, hnext.resolve_left fun hne => hne rfl⟩)
    · exact Or.inr (Or.inl rfl)
  · rintro (rfl | rfl | ⟨rfl, hnext⟩)
    · exact ⟨Or.inl (Or.inl rfl), Or.inl hfeed⟩
    · exact ⟨Or.inr rfl, Or.inl hform⟩
    · exact ⟨Or.inl (Or.inr rfl), Or.inr hnext⟩

namespace Position

variable {position : Position}

/-- The first position of a source is coherent. -/
theorem coherent_origin (bytes : Array UInt8) : origin.Coherent bytes where
  inside := Nat.zero_le _
  line := rfl
  relative := rfl
  codepoint := (codepoints_self bytes 0).symm
  column := (codepoints_self bytes 0).symm

/-- **A position stays coherent by one byte**, if it is told which byte is behind. -/
theorem Coherent.advance (h : position.Coherent bytes) {b : UInt8}
    (hbyte : bytes[position.byte]? = some b) :
    (position.advance b bytes[position.byte + 1]?).Coherent bytes := by
  have hinside : position.byte + 1 ≤ bytes.size := (Array.getElem?_eq_some_iff.mp hbyte).1
  have hstart := lineStart_le bytes position.byte
  have habsolute : (stepOffset position.absolute b).codepoint =
      codepoints bytes 0 (position.byte + 1) := by
    rw [codepoints_succ (Nat.zero_le _) hbyte, ← h.codepoint]
    rfl
  unfold Position.advance
  split
  · -- behind a break everything that is counted on the line is zero
    rename_i hends
    rw [endsLine_iff hbyte] at hends
    have hline : lineStart bytes (position.byte + 1) = position.byte + 1 := by
      rw [lineStart, if_pos hends]
    refine ⟨hinside, ?_, ?_, habsolute, ?_⟩
    · show position.line + 1 = lineBreaks bytes (position.byte + 1)
      rw [lineBreaks_succ, if_pos hends, h.line]
    · show 0 = position.byte + 1 - lineStart bytes (position.byte + 1)
      rw [hline, Nat.sub_self]
    · show 0 = codepoints bytes (lineStart bytes (position.byte + 1)) (position.byte + 1)
      rw [hline, codepoints_self]
  · -- on the same line, the column grows with the code points
    rename_i hends
    rw [endsLine_iff hbyte] at hends
    have hline : lineStart bytes (position.byte + 1) = lineStart bytes position.byte := by
      rw [lineStart, if_neg hends]
    refine ⟨hinside, ?_, ?_, habsolute, ?_⟩
    · show position.line = lineBreaks bytes (position.byte + 1)
      rw [lineBreaks_succ, if_neg hends, h.line, Nat.add_zero]
    · show position.relative.byte + 1 = position.byte + 1 - lineStart bytes (position.byte + 1)
      rw [hline, h.relative]
      omega
    · show _ = codepoints bytes (lineStart bytes (position.byte + 1)) (position.byte + 1)
      rw [hline, codepoints_succ hstart hbyte, ← h.column]
      rfl

/-- **A position stays coherent** over bytes of the source, if it is told which byte is behind
them. -/
theorem Coherent.advanceOver {after : Option UInt8} : ∀ {word : List UInt8} {position : Position},
    position.Coherent bytes → word <+: bytes.toList.drop position.byte →
    (word ≠ [] → after = bytes[position.byte + word.length]?) →
    (position.advanceOver after word).Coherent bytes
  | [], _, h, _, _ => h
  | b :: rest, position, h, hword, hafter => by
    obtain ⟨tail, htail⟩ := hword
    have hat : ∀ i, bytes[position.byte + i]? = (b :: rest ++ tail)[i]? := by
      intro i
      rw [htail, List.getElem?_drop, Array.getElem?_toList]
    have hbyte : bytes[position.byte]? = some b := hat 0
    have hnext : rest.head?.or after = bytes[position.byte + 1]? := by
      cases rest with
      | nil => exact hafter (List.cons_ne_nil _ _)
      | cons c more => exact (hat 1).symm
    have hstep := position.byte_advance b (rest.head?.or after)
    rw [Position.advanceOver]
    refine Coherent.advanceOver (hnext ▸ h.advance hbyte) ?_ ?_
    · rw [hstep, ← List.drop_drop, ← htail]
      exact List.prefix_append rest tail
    · intro _
      rw [hstep, Nat.add_assoc, Nat.add_comm 1]
      exact hafter (List.cons_ne_nil _ _)

end Position

/-! ## 2. Coherent scans

A scan only ever takes bytes or makes a mark where it stands, and both keep it coherent.  The bytes
ahead are part of the invariant: without them the scan would not know that what it takes are the
bytes of the source. -/

namespace Scan

/-- A scan stands at a coherent position, with the bytes up to `limit` ahead of it, and its marks
stand at coherent positions too. -/
structure View.Coherent (bytes : Array UInt8) (limit : Nat) (view : View) : Prop where
  ahead : view.Ahead bytes limit
  position : view.position.Coherent bytes
  marks : ∀ mark ∈ view.marks, mark.place.Coherent bytes

variable {scope : Scope} {view after : View} {limit : Nat}

/-- **A scan that takes bytes stays coherent**, for it knows the byte that follows them. -/
theorem View.Coherent.consume (h : view.Coherent bytes limit) (hlimit : limit ≤ bytes.size)
    (hbeyond : scope.beyond = bytes[limit]?) (n : Nat) :
    (view.consume scope n).Coherent bytes limit :=
  ⟨h.ahead.consume n,
    h.position.advanceOver (h.ahead.prefix_drop n) fun hne => h.ahead.next hlimit hbeyond hne,
    h.marks⟩

/-- A mark stands where the scan does. -/
theorem View.Coherent.mark (h : view.Coherent bytes limit) {marked : View} {mark : Mark}
    (hrest : marked.rest = view.rest) (hposition : marked.position = view.position)
    (hmarks : marked.marks = mark :: view.marks) (hplace : mark.place = view.position) :
    marked.Coherent bytes limit := by
  refine ⟨?_, hposition ▸ h.position, ?_⟩
  · rw [View.Ahead, hrest, hposition]
    exact h.ahead
  · rw [hmarks]
    intro other hother
    rcases List.mem_cons.mp hother with rfl | hin
    · exact hplace ▸ h.position
    · exact h.marks other hin

/-- **Every step keeps a scan coherent.** -/
theorem View.Coherent.step (h : view.Coherent bytes limit) (hlimit : limit ≤ bytes.size)
    (hbeyond : scope.beyond = bytes[limit]?) (hstep : Step scope view after) :
    after.Coherent bytes limit := by
  cases hstep with
  | @leaf leaf valid branch n =>
    have hmarked : (view.addLeaf leaf valid branch).Coherent bytes limit :=
      h.mark rfl rfl rfl rfl
    exact hmarked.consume hlimit hbeyond n
  | grow => exact h.consume hlimit hbeyond 1
  | @opened branch =>
    have hmarked : (view.openBranch branch).Coherent bytes limit := h.mark rfl rfl rfl rfl
    exact hmarked.consume hlimit hbeyond _
  | @closed branch valid n around further =>
    have hmarked : (view.closeBranch branch valid around further).Coherent bytes limit :=
      h.mark rfl rfl rfl rfl
    exact hmarked.consume hlimit hbeyond n
  | halted => exact ⟨h.ahead, h.position, h.marks⟩

end Scan

/-- **A scan that begins at a coherent position** ends at one, and its marks stand at such. -/
theorem Lexer.scan_coherent (lexer : Lexer) (branch : Branch) {source : Source}
    (hstart : source.start.Coherent source.bytes) :
    (lexer.scan branch source).position.Coherent source.bytes ∧
      ∀ mark ∈ (lexer.scan branch source).marks, mark.place.Coherent source.bytes := by
  have hlimit : source.limit ≤ source.bytes.size := Nat.min_le_right _ _
  have hfirst : (Lexer.initial branch source).view.Coherent source.bytes source.limit :=
    ⟨Lexer.initial_ahead branch source, hstart, fun mark hmark => by cases hmark⟩
  have hsteps : ∀ before after : Scan.View, before.Ready →
      before.halted = false ∨ before.rest = [] → Scan.Step (lexer.scope source) before after →
      before.Coherent source.bytes source.limit → after.Coherent source.bytes source.limit :=
    fun _ _ _ _ hstep h => h.step hlimit rfl hstep
  obtain ⟨-, hdone, -⟩ := Scan.run_induction (Lexer.initial_fresh branch source) hfirst hsteps
  rw [← Lexer.scan_eq lexer] at hdone
  exact ⟨hdone.position, hdone.marks⟩

/-! ## 3. Coherent trees

The tree gets positions from marks and from nowhere else.  That is a property of any predicate on
positions, so it is shown for an arbitrary one (`Node.Spanned`), and is used again where positions
are confined to a range. -/

/-- A node begins and ends at positions with a property. -/
def Node.Spanned (P : Position → Prop) (node : Node) : Prop :=
  P node.span.start ∧ P node.span.stop

/-- All nodes begin and end at positions with a property. -/
def Tree.Spanned (P : Position → Prop) (tree : Tree) : Prop :=
  ∀ id node, tree.node? id = some node → node.Spanned P

namespace Tree.Spanned

variable {P : Position → Prop} {tree : Tree}

/-- A change that keeps a node's span within the predicate keeps the tree's. -/
theorem modify (h : tree.Spanned P) (id : NodeId) (change : Node → Node)
    (hchange : ∀ node, node.Spanned P → (change node).Spanned P) :
    (tree.modify id change).Spanned P := by
  intro j node hnode
  rw [Tree.node?_modify] at hnode
  split at hnode
  · obtain ⟨before, hbefore, rfl⟩ := Option.map_eq_some_iff.mp hnode
    exact hchange before (h j before hbefore)
  · exact h j node hnode

/-- A node may be added. -/
theorem add (h : tree.Spanned P) {node : Node} (hnode : node.Spanned P) :
    (tree.add node).Spanned P := by
  intro j other hother
  rw [Tree.node?_add] at hother
  split at hother
  · cases hother
    exact hnode
  · exact h j other hother

/-- Attaching moves no spans. -/
theorem attach (h : tree.Spanned P) (parent child : NodeId) :
    (tree.attach parent child).Spanned P := by
  unfold Tree.attach
  refine (h.modify child _ ?_).modify parent _ ?_
  · exact fun _ hnode => hnode
  · exact fun _ hnode => hnode

/-- Nor does linking. -/
theorem linkAfter (h : tree.Spanned P) (anchor id : NodeId) :
    (tree.linkAfter anchor id).Spanned P := by
  have hnew := h.modify id
    (fun node => { node with previous := some anchor, next := tree.next? anchor })
    fun _ hnode => hnode
  have hlinked := hnew.modify anchor (fun node => { node with next := some id })
    fun _ hnode => hnode
  unfold Tree.linkAfter
  simp only
  split
  · exact hlinked.modify _ _ fun _ hnode => hnode
  · exact hlinked

/-- Nor does keeping the text of a node. -/
theorem remember (h : tree.Spanned P) (source : Array UInt8) (id : NodeId) :
    (tree.remember source id).Spanned P := by
  refine h.modify id _ fun node hnode => ?_
  split
  · exact hnode
  · exact hnode

/-- Nor does keeping the texts of several. -/
theorem rememberAll (h : tree.Spanned P) (source : Array UInt8) (ids : Array NodeId) :
    (tree.rememberAll source ids).Spanned P := by
  rw [Tree.rememberAll, ← Array.foldl_toList]
  generalize ids.toList = ids
  induction ids generalizing tree with
  | nil => exact h
  | cons id rest ih => exact ih (h.remember source id)

/-- Nor does evaluating a name. -/
theorem evaluate (h : tree.Spanned P) (source : Array UInt8) (id : NodeId) :
    (tree.evaluate source id).Spanned P := by
  unfold Tree.evaluate
  split
  · refine (h.rememberAll source _).modify id _ fun node hnode => ?_
    split
    · exact hnode
    · exact hnode
  · exact h

end Tree.Spanned

namespace Assembly

variable {P : Position → Prop} {assembly : Assembly} {source : Array UInt8}

/-- Settling ends a node at the position that is given. -/
theorem spanned_settle (h : assembly.tree.Spanned P) {stop : Position} (hstop : P stop) :
    (assembly.settle stop).tree.Spanned P := by
  obtain ⟨tree, tail, branch, outer, pending, attached⟩ := assembly
  cases pending with
  | none => exact h
  | some id =>
    have hended := Tree.Spanned.modify h id
      (fun node => { node with span := { node.span with stop := stop } })
      fun _ hnode => ⟨hnode.1, hstop⟩
    exact (hended.attach branch id).linkAfter tail id

/-- Completing a branch moves no spans. -/
theorem spanned_complete (h : assembly.tree.Spanned P) (branch : Branch) (valid : Bool) :
    (assembly.complete source branch valid).tree.Spanned P := by
  have hmarked := h.modify assembly.branch
    (fun node => { node with kind := .branch branch, valid := valid })
    fun _ hnode => hnode
  exact hmarked.evaluate source assembly.branch

/-- **A mark adds no other positions** than its own. -/
theorem spanned_take (h : assembly.tree.Spanned P) {mark : Mark} (hmark : P mark.place) :
    (assembly.take source mark).tree.Spanned P := by
  have hsettled := spanned_settle h hmark
  cases mark with
  | leaf leaf valid start => exact hsettled.add ⟨hmark, hmark⟩
  | opened branch start => exact hsettled.add ⟨hmark, hmark⟩
  | closed branch valid stop =>
    have hcompleted : ((assembly.settle stop).complete source branch valid).tree.Spanned P :=
      spanned_complete hsettled branch valid
    unfold take
    simp only
    split
    · exact hcompleted
    · exact hcompleted

/-- Nor do several marks. -/
theorem spanned_takeAll : ∀ (marks : List Mark) {assembly : Assembly},
    assembly.tree.Spanned P → (∀ mark ∈ marks, P mark.place) →
    (assembly.takeAll source marks).tree.Spanned P
  | [], _, h, _ => h
  | mark :: rest, _, h, hmarks =>
    spanned_takeAll rest (spanned_take h (hmarks mark List.mem_cons_self))
      fun other hother => hmarks other (List.mem_cons_of_mem _ hother)

/-- At the end of a call, nodes end where the scan does. -/
theorem spanned_finish (h : assembly.tree.Spanned P) (branch : Branch) {stop : Position}
    (hstop : P stop) : (assembly.finish source branch stop).tree.Spanned P := by
  have hsettled := spanned_settle h hstop
  unfold finish
  refine Tree.Spanned.modify ?_ _ _ fun _ hnode => ⟨hnode.1, hstop⟩
  split
  · exact spanned_complete hsettled _ _
  · exact hsettled.evaluate source _

end Assembly

/-! ## 4. Coherent sessions

Induction on the calls: a call adds coherent positions only, and leaves those that are there. -/

/-- A root without children begins and ends where it is put. -/
theorem Tree.spanned_new {P : Position → Prop} (filename : Option String) {start : Position}
    (h : P start) : (Tree.new filename start).Spanned P := by
  intro id node hnode
  cases id with
  | zero =>
    obtain rfl : _ = node := Option.some.inj hnode
    exact ⟨h, h⟩
  | succ id => cases hnode

/-- **A call adds no positions** but those of its marks, and the one where it ends. -/
theorem Lexer.extend_spanned (lexer : Lexer) {P : Position → Prop} {tree : Tree}
    (h : tree.Spanned P) (parent : NodeId) (branch : Branch) (source : Source)
    (hposition : P (lexer.scan branch source).position)
    (hmarks : ∀ mark ∈ (lexer.scan branch source).marks, P mark.place) :
    (lexer.extend tree parent branch source).tree.Spanned P := by
  refine Assembly.spanned_finish (Assembly.spanned_takeAll _ h ?_) _ hposition
  intro mark hmark
  exact hmarks mark (List.mem_reverse.mp hmark)

/-- A call that begins at a coherent position adds no others. -/
theorem Lexer.extend_coherent (lexer : Lexer) {tree : Tree} {source : Source}
    (h : tree.Spanned (Position.Coherent source.bytes))
    (hstart : source.start.Coherent source.bytes) (parent : NodeId) (branch : Branch) :
    (lexer.extend tree parent branch source).tree.Spanned (Position.Coherent source.bytes) := by
  obtain ⟨hposition, hmarks⟩ := lexer.scan_coherent branch hstart
  exact lexer.extend_spanned h parent branch source hposition hmarks

/-- So has the tree of a source. -/
theorem Lexer.tokenize_coherent (lexer : Lexer) {source : Source}
    (hstart : source.start.Coherent source.bytes) :
    (lexer.tokenize source).tree.Spanned (Position.Coherent source.bytes) :=
  lexer.extend_coherent (Tree.spanned_new _ hstart) hstart Tree.root .root

/-- A call of a session keeps its tree coherent. -/
theorem Call.apply_coherent {call : Call} {tree : Tree} (h : tree.Spanned (Position.Coherent bytes))
    (hbytes : call.source.bytes = bytes) (hstart : call.source.start.Coherent bytes) :
    (call.apply tree).Spanned (Position.Coherent bytes) := by
  subst hbytes
  unfold Call.apply Lexer.resume
  cases Lexer.branchToResume tree call.target with
  | error error => exact h
  | ok branch => exact call.lexer.extend_coherent h hstart call.target branch

/-- **All positions of a tree are coherent.**  A session that reads one source, each call from a
coherent position on and up to any bound, leaves no node that begins or ends elsewhere. -/
theorem session_coherent (lexer : Lexer) {source : Source} {calls : List Call}
    (hbytes : source.bytes = bytes) (hstart : source.start.Coherent bytes)
    (hcalls : ∀ call ∈ calls, call.source.bytes = bytes ∧ call.source.start.Coherent bytes)
    {id : NodeId} {node : Node} (hnode : (session lexer source calls).node? id = some node) :
    node.span.start.Coherent bytes ∧ node.span.stop.Coherent bytes := by
  suffices h : (session lexer source calls).Spanned (Position.Coherent bytes) from h id node hnode
  clear hnode
  induction calls using List.reverseRecOn with
  | nil =>
    subst hbytes
    refine lexer.extend_coherent ?_ hstart Tree.root .root
    exact Tree.spanned_new _ hstart
  | append_singleton calls call ih =>
    rw [session, List.foldl_append]
    have hlast := hcalls call (List.mem_append_right _ (List.mem_singleton_self call))
    exact Call.apply_coherent (ih fun other hother => hcalls other (List.mem_append_left _ hother))
      hlast.1 hlast.2

/-- A first call stops between a carriage return and its line feed, and a second one goes on there.
The line break is counted once, behind the line feed. -/
theorem cut_line_break_coherent :
    ∃ node, (session ⟨Dialect.standard, Fragments.empty⟩
        { bytes := #[0x0D, 0x0A, 0x61], bound := some 1 }
        [⟨⟨Dialect.standard, Fragments.empty⟩, Tree.root,
          { bytes := #[0x0D, 0x0A, 0x61], start := ⟨⟨1, 1⟩, ⟨1, 1⟩, 0⟩ }⟩]).node? 2 = some node ∧
      (node.span.start.Coherent #[0x0D, 0x0A, 0x61] ∧
        node.span.stop.Coherent #[0x0D, 0x0A, 0x61]) ∧
      node.span = ⟨⟨⟨1, 1⟩, ⟨1, 1⟩, 0⟩, ⟨⟨2, 2⟩, ⟨0, 0⟩, 1⟩⟩ := by
  have hspan : ((session ⟨Dialect.standard, Fragments.empty⟩
      { bytes := #[0x0D, 0x0A, 0x61], bound := some 1 }
      [⟨⟨Dialect.standard, Fragments.empty⟩, Tree.root,
        { bytes := #[0x0D, 0x0A, 0x61], start := ⟨⟨1, 1⟩, ⟨1, 1⟩, 0⟩ }⟩]).node? 2).map (·.span) =
      some ⟨⟨⟨1, 1⟩, ⟨1, 1⟩, 0⟩, ⟨⟨2, 2⟩, ⟨0, 0⟩, 1⟩⟩ := by decide
  obtain ⟨node, hnode, hspan⟩ := Option.map_eq_some_iff.mp hspan
  refine ⟨node, hnode, ?_, hspan⟩
  refine session_coherent _ rfl (Position.coherent_origin _) ?_ hnode
  intro call hcall
  obtain rfl := List.mem_singleton.mp hcall
  exact ⟨rfl, by decide, by decide, by decide, by decide, by decide⟩

end StyleLex
