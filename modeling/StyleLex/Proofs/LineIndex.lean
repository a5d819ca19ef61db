/-
# Lines of a source

A source is a row of lines, each with the line break that ends it (`Line.ofBytes`).  The index holds
where they begin, which is how far the lines before them reach (`starts_ofSource`), and so a line by
its number is the body of one of them.

Positions count lines in a loop of their own.  The two loops go in step: at each byte there are as
many starts as lines, and the last start is where the line of the position begins (`Tracks`).

The two loops know the same about line breaks but keep it differently.  A position counts breaks and
starts its column anew; the index notes an offset for every break.  Nothing is computed from one to
the other in the program, so that they agree has to be shown, and it is shown byte by byte and not
from the definitions of the counts.

A carriage return in front of a line feed is the one case in which a byte of a line break ends no
line.  It belongs to the line that the line feed ends, so the ending of a line may have two bytes,
and its body none of them.
-/
import StyleLex.Proofs.Coherence
import StyleLex.Proofs.Tiling
import StyleLex.Lines
import Mathlib.Data.List.TakeWhile

namespace StyleLex

/-! ## 1. Lines

Lines are defined from the end of the source towards its front, so that a byte can look at the one
behind it.  The index and the positions read forwards; what relates the two are the offsets. -/

/-- The bytes of a line, and the line break that ends it. -/
structure Line where
  body : List UInt8
  ending : List UInt8
  deriving DecidableEq, Repr

namespace Line

/-- All that a line takes of a source. -/
def whole (line : Line) : List UInt8 := line.body ++ line.ending

/-- The line with one more byte in front.  A byte of a line break leaves it without a body. -/
def cons (b : UInt8) (line : Line) : Line :=
  if Byte.isNewline b then ⟨[], b :: line.ending⟩ else ⟨b :: line.body, line.ending⟩

/-- The line that bytes begin with. -/
def first : List UInt8 → Line
  | [] => ⟨[], []⟩
  | b :: rest => if endsLine b rest.head? then ⟨[], [b]⟩ else (first rest).cons b

/-- The lines behind the first one. -/
def further : List UInt8 → List Line
  | [] => []
  | b :: rest => if endsLine b rest.head? then first rest :: further rest else further rest

/-- The lines of a source; there is one also if the source is empty. -/
def ofBytes (bytes : List UInt8) : List Line := first bytes :: further bytes

/-- A line break, before the byte that follows it.  A carriage return takes a line feed along. -/
inductive Break : List UInt8 → Option UInt8 → Prop where
  | lineFeed (next : Option UInt8) : Break [Byte.lineFeed] next
  | formFeed (next : Option UInt8) : Break [Byte.formFeed] next
  | carriageReturn {next : Option UInt8} (alone : next ≠ some Byte.lineFeed) :
    Break [Byte.carriageReturn] next
  | both (next : Option UInt8) : Break [Byte.carriageReturn, Byte.lineFeed] next

/-- Every line but the last ends with one line break. -/
def Ended : List Line → Prop
  | [] => False
  | [last] => last.ending = []
  | line :: next :: more =>
    Break line.ending ((next :: more).flatMap whole).head? ∧ Ended (next :: more)

/-- There is no line break in the body of a line, and its ending is made of nothing else. -/
structure Clean (line : Line) : Prop where
  body : ∀ b ∈ line.body, Byte.isNewline b = false
  ending : ∀ b ∈ line.ending, Byte.isNewline b = true

variable {b : UInt8} {rest bytes : List UInt8} {line : Line}

/-- A byte more in front leaves a line clean. -/
theorem cons_clean (h : line.Clean) : (line.cons b).Clean := by
  unfold cons
  split
  · rename_i hnewline
    exact ⟨List.forall_mem_nil _, List.forall_mem_cons.mpr ⟨hnewline, h.ending⟩⟩
  · rename_i hplain
    exact ⟨List.forall_mem_cons.mpr ⟨by simpa using hplain, h.body⟩, h.ending⟩

/-- What ends a line is a byte of a line break. -/
theorem isNewline_of_endsLine {next : Option UInt8} (h : endsLine b next = true) :
    Byte.isNewline b = true := (Bool.and_eq_true_iff.mp h).1

/-- A byte of a line break that ends no line is a carriage return before a line feed. -/
theorem eq_of_not_endsLine {next : Option UInt8} (hnewline : Byte.isNewline b = true)
    (h : endsLine b next = false) : b = Byte.carriageReturn ∧ next = some Byte.lineFeed := by
  simpa [endsLine, hnewline] using h

/-- Such a byte stands before the line feed that ends its line. -/
theorem first_of_not_endsLine (hnewline : Byte.isNewline b = true)
    (h : endsLine b rest.head? = false) :
    b = Byte.carriageReturn ∧ first rest = ⟨[], [Byte.lineFeed]⟩ := by
  obtain ⟨rfl, hnext⟩ := eq_of_not_endsLine hnewline h
  obtain ⟨more, rfl⟩ := List.head?_eq_some_iff.mp hnext
  exact ⟨rfl, if_pos rfl⟩

/-- The line takes one byte more. -/
theorem whole_cons (h : endsLine b rest.head? = false) :
    ((first rest).cons b).whole = b :: (first rest).whole := by
  unfold cons
  split
  · rename_i hnewline
    rw [(first_of_not_endsLine hnewline h).2]
    rfl
  · rfl

/-- The first line is clean. -/
theorem first_clean : ∀ bytes, (first bytes).Clean
  | [] => ⟨List.forall_mem_nil _, List.forall_mem_nil _⟩
  | b :: rest => by
    rw [first]
    split
    · rename_i hends
      exact ⟨List.forall_mem_nil _, List.forall_mem_singleton.mpr (isNewline_of_endsLine hends)⟩
    · exact cons_clean (first_clean rest)

/-- So are the lines behind it. -/
theorem further_clean : ∀ bytes, ∀ line ∈ further bytes, line.Clean
  | [], _, hline => by cases hline
  | b :: rest, line, hline => by
    rw [further] at hline
    split at hline
    · rcases List.mem_cons.mp hline with rfl | hin
      · exact first_clean rest
      · exact further_clean rest line hin
    · exact further_clean rest line hline

/-- So are all. -/
theorem ofBytes_clean (bytes : List UInt8) (h : line ∈ ofBytes bytes) : line.Clean := by
  rcases List.mem_cons.mp h with rfl | hin
  · exact first_clean bytes
  · exact further_clean bytes line hin

/-- Where a byte ends a line, that line is the byte alone. -/
theorem ofBytes_of_endsLine (h : endsLine b rest.head? = true) :
    ofBytes (b :: rest) = ⟨[], [b]⟩ :: ofBytes rest := by
  rw [ofBytes, first, further, if_pos h, if_pos h, ofBytes]

/-- Otherwise it goes in front of the first line. -/
theorem ofBytes_of_not_endsLine (h : endsLine b rest.head? = false) :
    ofBytes (b :: rest) = (first rest).cons b :: further rest := by
  have hnot : ¬ endsLine b rest.head? = true := by rw [h]; exact Bool.false_ne_true
  rw [ofBytes, first, further, if_neg hnot, if_neg hnot]

/-- **The lines of a source, joined, are the source.** -/
theorem flatMap_ofBytes : ∀ bytes, (ofBytes bytes).flatMap whole = bytes
  | [] => rfl
  | b :: rest => by
    have ih := flatMap_ofBytes rest
    cases hends : endsLine b rest.head? with
    | true =>
      rw [ofBytes_of_endsLine hends, List.flatMap_cons, ih]
      rfl
    | false =>
      rw [ofBytes, List.flatMap_cons] at ih
      rw [ofBytes_of_not_endsLine hends, List.flatMap_cons, whole_cons hends, List.cons_append, ih]

/-- A byte that ends a line is a line break. -/
theorem break_of_endsLine {next : Option UInt8} (h : endsLine b next = true) : Break [b] next := by
  simp only [endsLine, Byte.isNewline, Bool.and_eq_true, Bool.or_eq_true, beq_iff_eq] at h
  obtain ⟨(rfl | rfl) | rfl, halone⟩ := h
  · exact .lineFeed next
  · exact .carriageReturn (by simpa using halone)
  · exact .formFeed next

/-- A line that goes on in front ends as it did, but for a carriage return that joins the break. -/
theorem ended_cons {more : List Line} (h : endsLine b rest.head? = false)
    (hended : Ended (first rest :: more)) : Ended ((first rest).cons b :: more) := by
  cases hnewline : Byte.isNewline b with
  | false =>
    rw [cons, if_neg (by simp [hnewline])]
    cases more with
    | nil => exact hended
    | cons next more => exact hended
  | true =>
    -- a carriage return that ends no line stands before the line feed of its own line break
    obtain ⟨rfl, hfirst⟩ := first_of_not_endsLine hnewline h
    rw [hfirst] at hended ⊢
    cases more with
    | nil => cases hended
    | cons next more => exact ⟨.both _, hended.2⟩

/-- **Every line of a source but the last ends with one line break.** -/
theorem ofBytes_ended : ∀ bytes, Ended (ofBytes bytes)
  | [] => rfl
  | b :: rest => by
    have ih := ofBytes_ended rest
    cases hends : endsLine b rest.head? with
    | true =>
      rw [ofBytes_of_endsLine hends]
      refine ⟨?_, ih⟩
      show Break [b] ((ofBytes rest).flatMap whole).head?
      rw [flatMap_ofBytes]
      exact break_of_endsLine hends
    | false =>
      rw [ofBytes_of_not_endsLine hends]
      exact ended_cons hends ih

/-- A carriage return ends a line before one that takes its line feed along. -/
example : ofBytes [0x61, 0x0D, 0x0D, 0x0A, 0x0C] =
    [⟨[0x61], [0x0D]⟩, ⟨[], [0x0D, 0x0A]⟩, ⟨[], [0x0C]⟩, ⟨[], []⟩] := by decide

/-- Where lines begin, side by side from `offset` on. -/
def offsets (offset : Nat) : List Line → List Nat
  | [] => []
  | line :: more => offset :: offsets (offset + line.whole.length) more

/-- A line begins behind all the lines before it. -/
theorem getElem?_offsets : ∀ (lines : List Line) (offset i : Nat),
    (offsets offset lines)[i]? =
      lines[i]?.map fun _ => offset + ((lines.take i).flatMap whole).length
  | [], _, _ => rfl
  | line :: more, offset, 0 => rfl
  | line :: more, offset, i + 1 => by
    rw [offsets, List.getElem?_cons_succ, List.getElem?_cons_succ, getElem?_offsets more,
      List.take_succ_cons, List.flatMap_cons, List.length_append, Nat.add_assoc]

theorem length_offsets : ∀ (lines : List Line) (offset : Nat),
    (offsets offset lines).length = lines.length
  | [], _ => rfl
  | _ :: more, _ => congrArg Nat.succ (length_offsets more _)

/-- Joined lines hold each line behind all the lines before it. -/
theorem slice_flatMap {lines : List Line} {i : Nat} (h : lines[i]? = some line) :
    ((lines.flatMap whole).drop ((lines.take i).flatMap whole).length).take line.whole.length =
      line.whole := by
  obtain ⟨hi, rfl⟩ := List.getElem?_eq_some_iff.mp h
  have hsplit : lines.flatMap whole = (lines.take i).flatMap whole ++
      (lines[i].whole ++ (lines.drop (i + 1)).flatMap whole) := by
    rw [← List.flatMap_cons, ← List.drop_eq_getElem_cons hi, ← List.flatMap_append,
      List.take_append_drop]
  rw [hsplit, List.drop_left, List.take_left]

/-- The body of a line reaches up to the first byte of a line break. -/
theorem body_eq : ∀ {lines : List Line} {i : Nat}, Ended lines → (∀ line ∈ lines, line.Clean) →
    lines[i]? = some line →
    ((lines.flatMap whole).drop ((lines.take i).flatMap whole).length).takeWhile
      (fun b => !Byte.isNewline b) = line.body
  | [last], 0, hended, hclean, h => by
    obtain rfl := Option.some.inj h
    rw [Ended] at hended
    simpa [whole, hended] using (hclean last List.mem_cons_self).body
  | first :: next :: more, 0, hended, hclean, h => by
    obtain rfl := Option.some.inj h
    have hbody : ∀ b ∈ first.body, (!Byte.isNewline b) = true := fun b hb =>
      congrArg not ((hclean first List.mem_cons_self).body b hb)
    rw [List.take_zero, List.flatMap_nil, List.length_nil, List.drop_zero, List.flatMap_cons, whole,
      List.append_assoc, List.takeWhile_append_of_pos hbody]
    cases hending : first.ending with
    | nil =>
      have hbreak := hended.1
      rw [hending] at hbreak
      cases hbreak
    | cons b ending =>
      have hnewline := (hclean first List.mem_cons_self).ending b (hending ▸ List.mem_cons_self)
      rw [List.cons_append, List.takeWhile_cons_of_neg (by simp [hnewline]), List.append_nil]
  | first :: next :: more, i + 1, hended, hclean, h => by
    rw [List.take_succ_cons, List.flatMap_cons, List.length_append, ← List.drop_drop,
      List.flatMap_cons, List.drop_left]
    exact body_eq hended.2 (fun line hline => hclean line (List.mem_cons_of_mem _ hline)) h

end Line

/-! ## 2. The starts of lines

The starts are collected into an array while the source is read, and are compared with the offsets
of the lines. -/

/-- Offsets in order, none of them behind `stop`. -/
structure Ascends (stop : Nat) (starts : Array Nat) : Prop where
  sorted : starts.toList.Pairwise (· < ·)
  bounded : ∀ start ∈ starts, start ≤ stop

namespace LineIndex

/-- Every line begins further on than the one before it. -/
theorem collectStarts_ascends : ∀ (bytes : List UInt8) {starts : Array Nat} {offset : Nat},
    Ascends offset starts → Ascends (offset + bytes.length) (collectStarts starts offset bytes)
  | [], _, _, h => h
  | b :: rest, starts, offset, h => by
    have hfurther : Ascends (offset + 1) starts :=
      ⟨h.sorted, fun start hin => Nat.le_succ_of_le (h.bounded start hin)⟩
    have hpushed : Ascends (offset + 1) (starts.push (offset + 1)) := by
      refine ⟨?_, ?_⟩
      · rw [Array.toList_push, List.pairwise_append]
        refine ⟨h.sorted, List.pairwise_singleton _ _, ?_⟩
        intro start hin next hnext
        obtain rfl := List.mem_singleton.mp hnext
        exact Nat.lt_succ_of_le (h.bounded start (Array.mem_toList_iff.mp hin))
      · intro start hin
        rcases Array.mem_push.mp hin with hin | rfl
        · exact hfurther.bounded start hin
        · exact Nat.le_refl _
    rw [List.length_cons, Nat.add_comm rest.length 1, ← Nat.add_assoc, collectStarts]
    split
    · exact collectStarts_ascends rest hpushed
    · exact collectStarts_ascends rest hfurther

/-- The starts in an index ascend, and lie in the source. -/
theorem ofSource_ascends (source : Array UInt8) :
    Ascends source.size (ofSource source).starts := by
  have hfirst : Ascends 0 #[0] := ⟨List.pairwise_singleton _ _, by simp⟩
  have hall := collectStarts_ascends source.toList hfirst
  rw [Nat.zero_add, Array.length_toList] at hall
  exact hall

/-- What is collected are the starts of the lines behind the first. -/
theorem collectStarts_eq : ∀ (bytes : List UInt8) (starts : Array Nat) (offset : Nat),
    (collectStarts starts offset bytes).toList =
      starts.toList ++ Line.offsets (offset + (Line.first bytes).whole.length) (Line.further bytes)
  | [], starts, _ => (List.append_nil _).symm
  | b :: rest, starts, offset => by
    rw [collectStarts, Line.first, Line.further]
    cases hends : endsLine b rest.head? with
    | true =>
      rw [if_pos rfl, if_pos rfl, if_pos rfl, collectStarts_eq rest, Array.toList_push,
        List.append_assoc]
      rfl
    | false =>
      rw [if_neg Bool.false_ne_true, if_neg Bool.false_ne_true, if_neg Bool.false_ne_true,
        collectStarts_eq rest, Line.whole_cons hends, List.length_cons, Nat.add_assoc,
        Nat.add_comm 1]

/-- **The index of a source holds the starts of its lines.** -/
theorem starts_ofSource (source : Array UInt8) :
    (ofSource source).starts.toList = Line.offsets 0 (Line.ofBytes source.toList) := by
  rw [ofSource, collectStarts_eq]
  rfl

/-- A line starts behind all lines before it. -/
theorem getElem?_starts (source : Array UInt8) (i : Nat) :
    (ofSource source).starts[i]? = (Line.ofBytes source.toList)[i]?.map fun _ =>
      (((Line.ofBytes source.toList).take i).flatMap Line.whole).length := by
  rw [← Array.getElem?_toList, starts_ofSource, Line.getElem?_offsets]
  simp only [Nat.zero_add]

/-- The index has as many lines as the source. -/
theorem lineCount_ofSource (source : Array UInt8) :
    (ofSource source).lineCount = (Line.ofBytes source.toList).length := by
  rw [lineCount, ← Array.length_toList, starts_ofSource, Line.length_offsets]

/-- Without the line break at its end, a line is its body. -/
theorem dropBreak_whole {line : Line} (h : line.Clean) : dropBreak line.whole = line.body := by
  have hending : ∀ b ∈ line.ending.reverse, Byte.isNewline b = true := fun b hb =>
    h.ending b (List.mem_reverse.mp hb)
  have hbody : line.body.reverse.dropWhile Byte.isNewline = line.body.reverse := by
    refine List.dropWhile_eq_self_iff.mpr fun hlength hnewline => ?_
    have hmem := List.mem_reverse.mp (List.getElem_mem hlength)
    exact Bool.false_ne_true ((h.body _ hmem).symm.trans hnewline)
  rw [dropBreak, Line.whole, List.reverse_append, List.dropWhile_append_of_pos hending, hbody,
    List.reverse_reverse]

/-- A line reaches from its start to the next one, or to the end of the source. -/
theorem extract_line {source : Array UInt8} {i : Nat} {line : Line}
    (hline : (Line.ofBytes source.toList)[i]? = some line) :
    ∃ start, (ofSource source).starts[i]? = some start ∧
      (source.extract start (((ofSource source).starts[i + 1]?).getD source.size)).toList =
        line.whole := by
  have hjoined := Line.flatMap_ofBytes source.toList
  have hnext : ((ofSource source).starts[i + 1]?).getD source.size =
      (((Line.ofBytes source.toList).take (i + 1)).flatMap Line.whole).length := by
    rw [getElem?_starts]
    rcases Nat.lt_or_ge (i + 1) (Line.ofBytes source.toList).length with hlt | hge
    · rw [List.getElem?_eq_getElem hlt]
      rfl
    · rw [List.getElem?_eq_none hge, List.take_of_length_le hge, hjoined, Array.length_toList]
      rfl
  have hslice := Line.slice_flatMap hline
  rw [hjoined] at hslice
  refine ⟨_, by rw [getElem?_starts, hline]; rfl, ?_⟩
  rw [hnext, Array.toList_extract, List.extract_eq_take_drop, List.take_add_one, hline,
    List.flatMap_append, List.length_append, Nat.add_sub_cancel_left, Option.toList_some,
    List.flatMap_singleton, hslice]

/-- **A line by its number** is the body of that line. -/
theorem lineBytes?_ofSource (source : Array UInt8) (i : Nat) :
    (ofSource source).lineBytes? (i + 1) = (Line.ofBytes source.toList)[i]?.map Line.body := by
  rw [lineBytes?]
  cases hline : (Line.ofBytes source.toList)[i]? with
  | none =>
    have hstart : (ofSource source).starts[i]? = none := by rw [getElem?_starts, hline]; rfl
    rw [hstart]
    rfl
  | some line =>
    obtain ⟨start, hstart, hwhole⟩ := extract_line hline
    have hclean := Line.ofBytes_clean source.toList (List.mem_of_getElem? hline)
    rw [hstart]
    show some (dropBreak (source.extract start _).toList) = some line.body
    rw [show (ofSource source).source = source from rfl, hwhole, dropBreak_whole hclean]

end LineIndex

/-! ## 3. Positions

Going over the bytes, an index and a position are kept side by side (`Tracks`). -/

/-- The position behind the first `k` bytes of a source, told which byte follows them. -/
def Position.behind (source : Array UInt8) (k : Nat) : Position :=
  origin.advanceOver source[k]? (source.toList.take k)

namespace Position

variable {source : Array UInt8} {k : Nat}

/-- It stands at that byte. -/
theorem byte_behind (hk : k ≤ source.size) : (behind source k).byte = k := by
  rw [behind, byte_advanceOver, List.length_take, Array.length_toList, Nat.min_eq_left hk]
  exact Nat.zero_add k

/-- It counts what it should. -/
theorem coherent_behind (hk : k ≤ source.size) : (behind source k).Coherent source := by
  refine (coherent_origin source).advanceOver (List.take_prefix k _) fun _ => ?_
  rw [List.length_take, Array.length_toList, Nat.min_eq_left hk]
  exact congrArg (source[·]?) (Nat.zero_add k).symm

end Position

namespace LineIndex

variable {starts : Array Nat} {position : Position} {source : Array UInt8}

/-- The starts that were collected up to a position: one for each line, and the last of them is
where the line of the position begins. -/
structure Tracks (starts : Array Nat) (position : Position) : Prop where
  count : starts.size = position.line + 1
  last : ∃ start, starts[position.line]? = some start ∧
    start + position.relative.byte = position.byte

/-- **The two loops go in step.** -/
theorem Tracks.advance (h : Tracks starts position) (b : UInt8) (next : Option UInt8) :
    Tracks (if endsLine b next then starts.push (position.byte + 1) else starts)
      (position.advance b next) := by
  unfold Position.advance
  split
  · refine ⟨?_, position.byte + 1, ?_, rfl⟩
    · rw [Array.size_push, h.count]
    · show (starts.push (position.byte + 1))[position.line + 1]? = _
      rw [← h.count]
      exact Array.getElem?_push_size
  · obtain ⟨start, hstart, hbyte⟩ := h.last
    exact ⟨h.count, start, hstart, congrArg Nat.succ hbyte⟩

/-- What was collected stays. -/
theorem getElem?_collectStarts {i start : Nat} (h : starts[i]? = some start) (offset : Nat)
    (bytes : List UInt8) : (collectStarts starts offset bytes)[i]? = some start := by
  rw [← Array.getElem?_toList] at h ⊢
  rw [collectStarts_eq]
  exact List.getElem?_append_left (List.getElem?_eq_some_iff.mp h).1 ▸ h

/-- The last start on the way is still there at the end. -/
theorem Tracks.collectStarts (h : Tracks starts position) (bytes : List UInt8) :
    ∃ start, (collectStarts starts position.byte bytes)[position.line]? = some start ∧
      start + position.relative.byte = position.byte := by
  obtain ⟨start, hstart, hbyte⟩ := h.last
  exact ⟨start, getElem?_collectStarts hstart _ _, hbyte⟩

/-- Wherever the positions get to, the start of their line is collected. -/
theorem Tracks.advanceOver : ∀ (bytes : List UInt8) (k : Nat) {starts : Array Nat}
    {position : Position}, Tracks starts position →
    ∃ start, (LineIndex.collectStarts starts position.byte bytes)[
        (position.advanceOver bytes[k]? (bytes.take k)).line]? = some start ∧
      start + (position.advanceOver bytes[k]? (bytes.take k)).relative.byte =
        (position.advanceOver bytes[k]? (bytes.take k)).byte
  | bytes, 0, _, _, h => h.collectStarts bytes
  | [], k + 1, _, _, h => h.collectStarts []
  | b :: rest, k + 1, starts, position, h => by
    -- the byte that follows the first one is known, even if the position goes no further
    have hnext : (rest.take k).head?.or rest[k]? = rest.head? := by
      cases k with
      | zero => exact List.head?_eq_getElem?.symm
      | succ k => cases rest <;> rfl
    have ih := Tracks.advanceOver rest k (h.advance b rest.head?)
    rw [Position.byte_advance] at ih
    rw [List.getElem?_cons_succ, List.take_succ_cons, Position.advanceOver, hnext,
      LineIndex.collectStarts]
    split
    · rename_i hends
      rw [if_pos hends] at ih
      exact ih
    · rename_i hends
      rw [if_neg hends] at ih
      exact ih

/-- At the end there are as many starts as lines. -/
theorem Tracks.size : ∀ (bytes : List UInt8) {starts : Array Nat} {position : Position},
    Tracks starts position → (LineIndex.collectStarts starts position.byte bytes).size =
      (position.advanceOver none bytes).line + 1
  | [], _, _, h => h.count
  | b :: rest, starts, position, h => by
    have ih := Tracks.size rest (h.advance b rest.head?)
    rw [Position.byte_advance] at ih
    rw [LineIndex.collectStarts, Position.advanceOver, Option.or_none]
    split
    · rename_i hends
      rw [if_pos hends] at ih
      exact ih
    · rename_i hends
      rw [if_neg hends] at ih
      exact ih

/-- At the beginning there is one start and one line. -/
theorem tracks_origin : Tracks #[0] Position.origin := ⟨rfl, 0, rfl, rfl⟩

/-- **The index tells where the line of a position begins.** -/
theorem exists_start {k : Nat} (hk : k ≤ source.size) :
    ∃ start, (ofSource source).starts[(Position.behind source k).line]? = some start ∧
      start + (Position.behind source k).relative.byte = k := by
  obtain ⟨start, hstart, hbyte⟩ := tracks_origin.advanceOver source.toList k
  rw [Array.getElem?_toList] at hstart hbyte
  exact ⟨start, hstart, hbyte.trans (Position.byte_behind hk)⟩

/-- **The line of a place** is what stands from where it begins up to a line break. -/
theorem lineBytes?_at {k : Nat} (hk : k ≤ source.size) :
    (ofSource source).lineBytes? (lineBreaks source k + 1) =
      some ((source.toList.drop (lineStart source k)).takeWhile fun b => !Byte.isNewline b) := by
  obtain ⟨start, hstart, hbyte⟩ := exists_start hk
  have hcoherent := Position.coherent_behind hk
  rw [hcoherent.relative, Position.byte_behind hk] at hbyte
  rw [hcoherent.line, Position.byte_behind hk, getElem?_starts] at hstart
  obtain ⟨line, hline, rfl⟩ := Option.map_eq_some_iff.mp hstart
  have hplace : (((Line.ofBytes source.toList).take (lineBreaks source k)).flatMap
      Line.whole).length = lineStart source k := by
    have hle := lineStart_le source k
    omega
  have hbody := Line.body_eq (Line.ofBytes_ended source.toList)
    (fun line => Line.ofBytes_clean source.toList) hline
  rw [Line.flatMap_ofBytes, hplace] at hbody
  rw [lineBytes?_ofSource, hline, Option.map_some, hbody]

/-- There are as many lines as the last position says. -/
theorem lineCount_eq (source : Array UInt8) :
    (ofSource source).lineCount = (Position.behind source source.size).line + 1 := by
  have hsize := tracks_origin.size source.toList
  rw [Position.behind, Array.getElem?_eq_none (Nat.le_refl _), ← Array.length_toList,
    List.take_length]
  exact hsize

/-! ## 4. The lines of a source

What a reader of the index is told: the text of a line by its number, and where a place is found. -/

/-- A line index shows lines: each by its number, from its start to the next one, and all of the
source. -/
structure Shows (index : LineIndex) (lines : List Line) : Prop where
  bytes : ∀ i, index.lineBytes? (i + 1) = lines[i]?.map Line.body
  text : ∀ i, index.line? (i + 1) = lines[i]?.map fun line => Utf8.decode line.body
  between : ∀ i line, lines[i]? = some line → ∃ start, index.starts[i]? = some start ∧
    (index.source.extract start ((index.starts[i + 1]?).getD index.source.size)).toList = line.whole
  clean : ∀ line ∈ lines, ∀ b ∈ line.body, Byte.isNewline b = false
  ended : Line.Ended lines
  joined : lines.flatMap Line.whole = index.source.toList

/-- A line index agrees with the positions of a source, and with its tree. -/
structure Agrees (index : LineIndex) (bytes : Array UInt8) (tree : Tree) : Prop where
  source : index.source = bytes
  ascending : index.starts.toList.Pairwise (· < ·)
  start : ∀ k ≤ bytes.size, ∃ start,
    index.starts[(Position.behind bytes k).line]? = some start ∧
      start + (Position.behind bytes k).relative.byte = k
  count : index.lineCount = (Position.behind bytes bytes.size).line + 1
  root : ∃ node, tree.node? Tree.root = some node ∧ index.lineCount = node.span.stop.line + 1
  numbers : ∀ n, (index.line? n).isSome = true ↔ 1 ≤ n ∧ n ≤ index.lineCount
  lines : ∃ lines, index.Shows lines

/-- The index of a source shows its lines. -/
theorem ofSource_shows (source : Array UInt8) :
    (ofSource source).Shows (Line.ofBytes source.toList) where
  bytes := lineBytes?_ofSource source
  text := fun i => by rw [line?, lineBytes?_ofSource, Option.map_map]; rfl
  between := fun _ _ => extract_line
  clean := fun _ hline => (Line.ofBytes_clean source.toList hline).body
  ended := Line.ofBytes_ended source.toList
  joined := Line.flatMap_ofBytes source.toList

/-- A line has a number from one up to the number of lines. -/
theorem isSome_line? (source : Array UInt8) (n : Nat) :
    ((ofSource source).line? n).isSome = true ↔ 1 ≤ n ∧ n ≤ (ofSource source).lineCount := by
  cases n with
  | zero => simp [line?, lineBytes?]
  | succ i =>
    rw [(ofSource_shows source).text, Option.isSome_map, isSome_getElem?, lineCount_ofSource]
    omega

/-- **The line index agrees with the positions of the lexer.** -/
theorem ofSource_agrees (lexer : Lexer) (source : Array UInt8) :
    (ofSource source).Agrees source (lexer.tokenizeBytes source).tree where
  source := rfl
  ascending := (ofSource_ascends source).sorted
  start := fun _ => exists_start
  count := lineCount_eq source
  root := by
    obtain ⟨node, hnode, -, -, -, hstop, -⟩ := (lexer.tokenizeBytes_shown source).root
    have hcoherent : node.span.stop.Coherent source :=
      (lexer.tokenize_coherent (Position.coherent_origin source) _ _ hnode).2
    have hlast := Position.coherent_behind (Nat.le_refl source.size)
    refine ⟨node, hnode, ?_⟩
    rw [lineCount_eq, hcoherent.line, hlast.line, Position.byte_behind (Nat.le_refl _)]
    exact congrArg (fun n => lineBreaks source n + 1) hstop.symm
  numbers := isSome_line? source
  lines := ⟨_, ofSource_shows source⟩

end LineIndex
end StyleLex
