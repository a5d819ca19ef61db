/-
# A call looks at its range only

What a call makes of a source depends on the bytes of its range and on nothing else, but for the
byte right behind the bound, and on that one only after a carriage return
(`Lexer.tokenize_confined`).  So a part of a source can be read as if it were alone.

There are two halves to this.  The scan gets the bytes of its range and no others
(`Lexer.scan_congr`).  The assembly gets all of the source, for names are evaluated from the spans
of their runs; but every span that it has made by then lies within the range (`Lexer.scan_within`),
so the text of a run is the same in both sources (`Tree.evaluate_congr`).

The byte behind the bound is asked for because a carriage return at the end of the range ends a line
or does not, depending on what stands behind it.  It is not read: if it is anything but a line feed,
it does not matter what it is, and in front of any other last byte it does not matter at all.

The second half has to know that every span of the assembly lies in the range before a name can be
evaluated, which is an induction over the marks beside the one that compares the two assemblies.
Since spans in a range are a case of `Tree.Spanned`, nothing new has to be said about how marks
place nodes.
-/
import StyleLex.Proofs.Coherence
import StyleLex.Proofs.Scan.Asking
import StyleLex.Proofs.Tree.Resuming

namespace StyleLex

/-! ## 1. Sources that agree

Agreement is about a range of places, not about slices, so that a slice of a slice needs no
arithmetic. -/

/-- Do two sources hold the same bytes from `first` up to `last`? -/
def AgreeOn (first last : Nat) (a b : Array UInt8) : Prop :=
  ∀ i, first ≤ i → i < last → a[i]? = b[i]?

variable {first last : Nat} {a b : Array UInt8}

/-- The bytes of a slice are those of the source, further on. -/
theorem getElem?_extract (bytes : Array UInt8) (i j k : Nat) :
    (bytes.extract i j).toList[k]? = if k < j - i then bytes[i + k]? else none := by
  rw [Array.toList_extract, List.extract_eq_take_drop, List.getElem?_take, List.getElem?_drop,
    Array.getElem?_toList]

/-- The same bytes make the same slices. -/
theorem AgreeOn.extract (h : AgreeOn first last a b) {i j : Nat} (hi : first ≤ i)
    (hj : j ≤ last) : (a.extract i j).toList = (b.extract i j).toList := by
  refine List.ext_getElem? fun k => ?_
  rw [getElem?_extract, getElem?_extract]
  split
  · exact h (i + k) (by omega) (by omega)
  · rfl

/-- So do they make the same texts. -/
theorem AgreeOn.read (h : AgreeOn first last a b) {span : Span}
    (hstart : span.start.Within first last) (hstop : span.stop.Within first last) :
    span.read a = span.read b := by
  rw [Span.read, Span.read, Span.slice, Span.slice, h.extract hstart.1 hstop.2]

/-! ## 2. Texts

The assembly reads the source for one purpose only: the value of a name is the text of its runs,
joined. -/

namespace Tree

variable {tree : Tree}

/-- A node has the same text in both. -/
theorem text?_congr (h : AgreeOn first last a b)
    (hwithin : tree.Spanned (Position.Within first last)) (id : NodeId) :
    tree.text? a id = tree.text? b id := by
  unfold Tree.text?
  cases hnode : tree.node? id with
  | none => rfl
  | some node =>
    obtain ⟨hstart, hstop⟩ := hwithin id node hnode
    simp only [Option.bind_some, Node.text?, h.read hstart hstop]

/-- So have its children together. -/
theorem joinedText_congr (h : AgreeOn first last a b)
    (hwithin : tree.Spanned (Position.Within first last)) (id : NodeId) :
    tree.joinedText a id = tree.joinedText b id := by
  unfold Tree.joinedText
  simp only [text?_congr h hwithin]

/-- Two changes that agree on the node are one. -/
theorem modify_congr {id : NodeId} {change change' : Node → Node}
    (h : ∀ node, tree.node? id = some node → change node = change' node) :
    tree.modify id change = tree.modify id change' := by
  refine Tree.ext_node? rfl fun j => ?_
  rw [node?_modify, node?_modify]
  split
  · rename_i hid
    subst hid
    cases hnode : tree.node? id with
    | none => rfl
    | some node => rw [Option.map_some, Option.map_some, h node hnode]
  · rfl

/-- So a text that is kept is the same in both. -/
theorem remember_congr (h : AgreeOn first last a b)
    (hwithin : tree.Spanned (Position.Within first last)) (id : NodeId) :
    tree.remember a id = tree.remember b id := by
  refine modify_congr fun node hnode => ?_
  obtain ⟨hstart, hstop⟩ := hwithin id node hnode
  simp only [Node.text?, h.read hstart hstop]

/-- By induction on the nodes: keeping a text moves no span. -/
theorem rememberAll_congr (h : AgreeOn first last a b)
    (hwithin : tree.Spanned (Position.Within first last)) (ids : Array NodeId) :
    tree.rememberAll a ids = tree.rememberAll b ids := by
  rw [rememberAll, rememberAll, ← Array.foldl_toList, ← Array.foldl_toList]
  generalize ids.toList = ids
  induction ids generalizing tree with
  | nil => rfl
  | cons id rest ih =>
    rw [List.foldl_cons, List.foldl_cons, ← remember_congr h hwithin]
    exact ih (hwithin.remember a id)

/-- **A name gets the same value** from two sources that agree on its text. -/
theorem evaluate_congr (h : AgreeOn first last a b)
    (hwithin : tree.Spanned (Position.Within first last)) (id : NodeId) :
    tree.evaluate a id = tree.evaluate b id := by
  unfold Tree.evaluate
  rw [joinedText_congr h hwithin, rememberAll_congr h hwithin]

end Tree

/-! ## 3. Assemblies

Mark by mark, the assembly is the same tree, and its spans lie in the range. -/

namespace Assembly

variable {assembly : Assembly}

/-- A branch that closes gets the same value. -/
theorem complete_congr (h : AgreeOn first last a b)
    (hwithin : assembly.tree.Spanned (Position.Within first last)) (branch : Branch)
    (valid : Bool) : assembly.complete a branch valid = assembly.complete b branch valid := by
  have hmarked := hwithin.modify assembly.branch
    (fun node => { node with kind := .branch branch, valid := valid })
    fun _ hnode => hnode
  obtain ⟨tree, tail, id, outer, pending, attached⟩ := assembly
  simp only [complete, Tree.evaluate_congr h hmarked]

/-- **A mark of the range** is taken the same way. -/
theorem take_congr (h : AgreeOn first last a b)
    (hwithin : assembly.tree.Spanned (Position.Within first last)) {mark : Mark}
    (hmark : mark.place.Within first last) : assembly.take a mark = assembly.take b mark := by
  cases mark with
  | leaf leaf valid start => simp only [take]
  | opened branch start => simp only [take]
  | closed branch valid stop =>
    have hcompleted := complete_congr h (spanned_settle hwithin hmark) branch valid
    simp only [Mark.place] at hcompleted
    simp only [take, hcompleted]

/-- So are all marks of the range. -/
theorem takeAll_congr (h : AgreeOn first last a b) (marks : List Mark)
    (hwithin : assembly.tree.Spanned (Position.Within first last))
    (hmarks : ∀ mark ∈ marks, mark.place.Within first last) :
    assembly.takeAll a marks = assembly.takeAll b marks := by
  induction marks generalizing assembly with
  | nil => simp only [takeAll, List.foldl_nil]
  | cons mark rest ih =>
    have hmark := hmarks mark List.mem_cons_self
    have htaken : (assembly.take a mark).tree.Spanned (Position.Within first last) :=
      spanned_take hwithin hmark
    have hrest := ih htaken fun other hother => hmarks other (List.mem_cons_of_mem _ hother)
    rw [takeAll, takeAll] at hrest
    rw [takeAll, takeAll, List.foldl_cons, List.foldl_cons, ← take_congr h hwithin hmark, hrest]

/-- So is the end of a call. -/
theorem finish_congr (h : AgreeOn first last a b)
    (hwithin : assembly.tree.Spanned (Position.Within first last)) (branch : Branch)
    {stop : Position} (hstop : stop.Within first last) :
    assembly.finish a branch stop = assembly.finish b branch stop := by
  have hsettled := spanned_settle hwithin hstop
  unfold finish
  cases branch with
  | hash hash => simp only [complete_congr h hsettled]
  | _ => simp only [Tree.evaluate_congr h hsettled]

end Assembly

/-! ## 4. Calls on sources that agree

What a scan is given is worked out from the source (`Source.range`, `Source.limit`), and agrees for
both. -/

/-- Two sources that a call cannot tell apart: the same range of the same bytes, and the same for
lines behind it. -/
structure Source.Agrees (source other : Source) : Prop where
  start : other.start = source.start
  limit : other.limit = source.limit
  bytes : AgreeOn source.start.byte source.finish source.bytes other.bytes
  breaks : BreaksAlike source.range source.bytes[source.limit]? other.bytes[source.limit]?

namespace Lexer

variable {source other : Source}

/-- The scan gets the same bytes, the same start, and the same answer about a line break at the
bound. -/
theorem scan_congr (lexer : Lexer) (branch : Branch) (h : source.Agrees other) :
    lexer.scan branch source = lexer.scan branch other := by
  have hrange : other.range = source.range := by
    rw [Source.range, Source.range, h.start, h.limit]
    exact (h.bytes.extract (Nat.le_refl _) (Nat.le_max_right _ _)).symm
  have hscope : lexer.scope other =
      (lexer.scope source).behind other.bytes[source.limit]? := by
    rw [← h.limit]
    rfl
  have hinitial : initial branch other = initial branch source := by
    rw [initial, initial, hrange, h.start]
  rw [scan_eq, scan_eq, hscope, hinitial]
  exact Scan.run_behind h.breaks

/-- **A call makes the same of two sources that agree on its range.** -/
theorem extend_congr (lexer : Lexer) {tree : Tree} (parent : NodeId) (branch : Branch)
    (h : source.Agrees other)
    (hwithin : tree.Spanned (Position.Within source.start.byte source.finish)) :
    lexer.extend tree parent branch source = lexer.extend tree parent branch other := by
  obtain ⟨hposition, hmarks⟩ := lexer.scan_within branch source
  have hplaced : ∀ mark ∈ (lexer.scan branch source).marks.reverse,
      mark.place.Within source.start.byte source.finish :=
    fun mark hmark => hmarks mark (List.mem_reverse.mp hmark)
  have htaken : (Assembly.into tree parent).takeAll source.bytes
      (lexer.scan branch source).marks.reverse =
        (Assembly.into tree parent).takeAll other.bytes
          (lexer.scan branch source).marks.reverse :=
    Assembly.takeAll_congr h.bytes _ hwithin hplaced
  have hspanned : ((Assembly.into tree parent).takeAll source.bytes
      (lexer.scan branch source).marks.reverse).tree.Spanned
        (Position.Within source.start.byte source.finish) :=
    Assembly.spanned_takeAll _ hwithin hplaced
  simp only [extend, ← scan_congr lexer branch h, ← htaken,
    Assembly.finish_congr h.bytes hspanned _ hposition, h.start, h.limit]

end Lexer

/-- The last byte of a range. -/
theorem Source.getLast?_range {source : Source} {byte : UInt8}
    (h : source.range.getLast? = some byte) :
    source.start.byte < source.limit ∧ source.bytes[source.limit - 1]? = some byte := by
  have hlimit : source.limit ≤ source.bytes.size := Nat.min_le_right _ _
  have hlength : source.range.length = source.limit - source.start.byte := by
    simp only [Source.range, Array.length_toList, Array.size_extract]
    omega
  rw [List.getLast?_eq_getElem?, Source.range, getElem?_extract, ← Source.range, hlength] at h
  split at h
  · refine ⟨by omega, ?_⟩
    rw [← h]
    congr 1
    omega
  · cases h

/-- **A call is confined to its range.**  Two buffers that hold the same bytes from the begin of a
call up to its bound make the same tree, with the same numbers and the same recoveries.  A carriage
return in front of the bound asks for one thing more, whether a line feed stands behind it. -/
theorem Lexer.tokenize_confined (lexer : Lexer) (filename : Option String) (start : Position)
    {bound : Nat} (ha : bound ≤ a.size) (hb : bound ≤ b.size)
    (hbytes : ∀ i, start.byte ≤ i → i < bound → a[i]? = b[i]?)
    (hbreak : start.byte < bound → a[bound - 1]? = some Byte.carriageReturn →
      (a[bound]? = some Byte.lineFeed ↔ b[bound]? = some Byte.lineFeed)) :
    lexer.tokenize { bytes := a, filename := filename, start := start, bound := some bound } =
      lexer.tokenize { bytes := b, filename := filename, start := start, bound := some bound } := by
  have hlimit : ∀ {bytes : Array UInt8}, bound ≤ bytes.size →
      Source.limit { bytes := bytes, filename := filename, start := start, bound := some bound } =
        bound := fun hsize => Nat.min_eq_left hsize
  refine lexer.extend_congr Tree.root .root ⟨rfl, ?_, ?_, ?_⟩ ?_
  · rw [hlimit ha, hlimit hb]
  · intro i hi hlast
    rw [Source.finish, hlimit ha] at hlast
    exact hbytes i hi (by omega)
  · intro hlast
    obtain ⟨hlt, hbyte⟩ := Source.getLast?_range hlast
    rw [hlimit ha] at hlt hbyte ⊢
    exact hbreak hlt hbyte
  · exact Tree.spanned_new _ ⟨Nat.le_refl _, Nat.le_max_left _ _⟩

/-- A hash and a carriage return, in front of a line feed that is out of bounds, with different
bytes around.  The carriage return ends no line in either of the two. -/
theorem hash_confined :
    (⟨Dialect.standard, Fragments.empty⟩ : Lexer).tokenize
        { bytes := #[0x22, 0x23, 0x66, 0x0D, 0x0A], start := ⟨⟨1, 1⟩, ⟨1, 1⟩, 0⟩
          bound := some 4 } =
      (⟨Dialect.standard, Fragments.empty⟩ : Lexer).tokenize
        { bytes := #[0x28, 0x23, 0x66, 0x0D, 0x0A, 0x29], start := ⟨⟨1, 1⟩, ⟨1, 1⟩, 0⟩
          bound := some 4 } ∧
    ((⟨Dialect.standard, Fragments.empty⟩ : Lexer).tokenize
        { bytes := #[0x22, 0x23, 0x66, 0x0D, 0x0A], start := ⟨⟨1, 1⟩, ⟨1, 1⟩, 0⟩
          bound := some 4 }).tree.node? Tree.root =
      some { kind := .branch .root, span := ⟨⟨⟨1, 1⟩, ⟨1, 1⟩, 0⟩, ⟨⟨4, 4⟩, ⟨4, 4⟩, 0⟩⟩
             next := some 2, children := #[1, 3] } := by
  constructor
  · refine Lexer.tokenize_confined _ none _ (by decide) (by decide) ?_ fun _ _ => by decide
    intro i hi hlast
    obtain rfl | rfl | rfl : i = 1 ∨ i = 2 ∨ i = 3 := by
      have : 1 ≤ i := hi
      omega
    · rfl
    · rfl
    · rfl
  · decide

end StyleLex
