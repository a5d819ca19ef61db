/-
# Two scans for one

A source is scanned up to where a child of its root ends, and from there on by another scan in the
root.  Together the two make the marks that one scan of the whole source makes, and end where it
ends (`Lexer.scan_split`).  The second one begins with a mark where the first one stopped
(`Lexer.scan_first`).

Sources as a whole come first: what every turn over one preserves holds of its scan
(`Lexer.scan_preserves`).

This is where the comparison of scans becomes a statement about sources, and it is what resuming a
tree and reading a part by itself rest on.  The hypothesis that the item is no fragment cannot be
dropped: a fragment at the end of its input is completed as malformed, because its reader closes a
fragment only before another byte, and a whole source has that byte.

The second scan is `Source.since`: it reads the same bytes as the first one left, and counts from
the position at which that one stopped.
-/
import StyleLex.Proofs.Scan.Passing

namespace StyleLex

/-! ## 1. Parts of a source

A source is given by all its bytes, and by the place where the scan begins and the one where it has
to stop.  What it reads of them is its range. -/

namespace Source

/-- The bytes up to an offset. -/
def upTo (bytes : Array UInt8) (bound : Nat) : Source := { bytes := bytes, bound := some bound }

/-- The bytes from a position on. -/
def since (bytes : Array UInt8) (start : Position) : Source := { bytes := bytes, start := start }

/-- The bytes of a span, by themselves. -/
def alone (bytes : Array UInt8) (span : Span) : Source where
  bytes := bytes.extract span.start.byte span.stop.byte

variable {bytes : Array UInt8}

/-- Without a bound, a source is read to its end. -/
theorem limit_all (bytes : Array UInt8) (start : Position) :
    (since bytes start).limit = bytes.size := Nat.min_self _

/-- The bytes of a source that begins later. -/
theorem range_since (bytes : Array UInt8) (start : Position) :
    (since bytes start).range = bytes.toList.drop start.byte := by
  rw [range, limit_all, Array.toList_extract, List.extract_eq_take_drop]
  exact List.take_of_length_le (by simp [since])

/-- All bytes of a source. -/
theorem range_all (bytes : Array UInt8) : Source.range { bytes := bytes } = bytes.toList :=
  range_since bytes Position.origin

/-- A bound inside the source is where the scan stops. -/
theorem limit_upTo {bound : Nat} (h : bound ≤ bytes.size) : (upTo bytes bound).limit = bound :=
  Nat.min_eq_left h

/-- The bytes up to a bound. -/
theorem range_upTo {bound : Nat} (h : bound ≤ bytes.size) :
    (upTo bytes bound).range = bytes.toList.take bound := by
  rw [range, limit_upTo h, Array.toList_extract, List.extract_eq_take_drop]
  rfl

end Source

namespace Lexer

open Scan

variable {bytes : Array UInt8}

/-- The scan that has to stop sees as much as one that is cut there. -/
theorem scope_upTo (lexer : Lexer) {bound : Nat} (h : bound ≤ bytes.size) :
    lexer.scope (.upTo bytes bound) =
      (lexer.scope { bytes := bytes }).upTo (bytes.toList.drop bound) := by
  have hend : bytes[(Source.since bytes Position.origin).limit]? = none := by
    rw [Source.limit_all]
    exact Array.getElem?_size
  have hcut : bytes[(Source.upTo bytes bound).limit]? = bytes[bound]? := by
    rw [Source.limit_upTo h]
  have hhead : (bytes.toList.drop bound).head?.or
      bytes[(Source.since bytes Position.origin).limit]? = bytes[bound]? := by
    rw [hend, Option.or_none, List.head?_drop, Array.getElem?_toList]
  show (⟨_, _, bytes[(Source.upTo bytes bound).limit]?⟩ : Scope) = ⟨_, _, _⟩
  rw [hcut, ← hhead]
  rfl

end Lexer

/-! ## 2. What a scan preserves

An induction over the scan of a source from its first byte, with everything at hand that is known of
its states.  The modules on single properties of trees use this one. -/

/-- **What every turn over a source preserves, and every closing at its end, holds of the whole
scan.**  The scan is laid out all the while, and ends in its root. -/
theorem Lexer.scan_preserves (lexer : Lexer) (bytes : Array UInt8) {P : Scan.View → Prop}
    (hstart : P (initial .root { bytes := bytes }).view)
    (hturn : ∀ state : Scan.State, state.view.Ready → state.rest ≠ [] →
      state.view.Laid lexer.dialect bytes.toList (blank { bytes := bytes }) →
      Scan.Step (lexer.scope { bytes := bytes }) state.view
        (Scan.readNext (lexer.scope { bytes := bytes }) state).view →
      P state.view → P (Scan.readNext (lexer.scope { bytes := bytes }) state).view)
    (hclose : ∀ before after : Scan.View, before.Ready → before.rest = [] →
      before.Laid lexer.dialect bytes.toList (blank { bytes := bytes }) →
      Scan.Step (lexer.scope { bytes := bytes }) before after → P before → P after) :
    (lexer.scan .root { bytes := bytes }).frame.branch = .root ∧
      (lexer.scan .root { bytes := bytes }).view.Laid lexer.dialect bytes.toList
        (blank { bytes := bytes }) ∧
      P (lexer.scan .root { bytes := bytes }).view := by
  have hlaid := initial_laid lexer.dialect { bytes := bytes } rfl (blank { bytes := bytes })
    rfl rfl rfl rfl
  rw [Source.range_all] at hlaid
  obtain ⟨houter, ⟨hlaid, hP⟩, -⟩ := Scan.run_states
    (P := fun state =>
      state.view.Laid lexer.dialect bytes.toList (blank { bytes := bytes }) ∧ P state.view)
    (initial_fresh .root { bytes := bytes }) ⟨hlaid, hstart⟩
    (fun state hready ahead _ h => by
      have hstep := Scan.readNext_step (lexer.scope { bytes := bytes }) ahead
      exact ⟨h.1.step hready hstep, hturn state hready ahead h.1 hstep h.2⟩)
    fun before after hready hrest hclosed h => by
      have hstep := Scan.closeAtEnd?_step (lexer.scope { bytes := bytes }) hrest hclosed
      exact ⟨h.1.step hready hstep, hclose before.view after.view hready hrest h.1 hstep h.2⟩
  rw [← scan_eq] at houter hlaid hP
  exact ⟨hlaid.eq_root houter, hlaid, hP⟩

/-! ## 3. Where a scan begins

A later scan has to be put behind an earlier one, so it must be known where its first mark stands:
at the place where it began, for it marks whatever it reads first. -/

namespace Scan

/-- A scan goes on from the marks `old`: it has read nothing more, or the oldest mark that it made
since stands where it went on. -/
def Begun (old : List Mark) (start : Position) (view : View) : Prop :=
  (view.marks = old ∧ view.position = start ∧ view.frame.pending = none) ∨
    ∃ newer first, view.marks = newer ++ first :: old ∧ first.place = start

/-- The oldest mark of a scan stays where it is, and the first one that is made is made at the
beginning. -/
theorem Begun.step {old : List Mark} {start : Position} {scope : Scope} {view after : View}
    (h : Begun old start view) (hstep : Step scope view after) : Begun old start after := by
  have hmarks : ∀ mark : Mark, mark.place = view.position →
      ∃ newer first, mark :: view.marks = newer ++ first :: old ∧ first.place = start := by
    intro mark hplace
    rcases h with ⟨hnone, hposition, -⟩ | ⟨newer, first, hfirst, hplace'⟩
    · exact ⟨[], mark, by rw [hnone]; rfl, hplace.trans hposition⟩
    · exact ⟨mark :: newer, first, by rw [hfirst]; rfl, hplace'⟩
  cases hstep with
  | leaf => exact Or.inr (hmarks _ rfl)
  | opened => exact Or.inr (hmarks _ rfl)
  | closed => exact Or.inr (hmarks _ rfl)
  | grow ahead run =>
    rcases h with ⟨-, -, hpending⟩ | hfirst
    · rw [hpending] at run
      rcases run with hraw | hunexpected
      · cases hraw
      · cases hunexpected
    · exact Or.inr hfirst
  | halted => exact h

end Scan

namespace Lexer

open Scan

variable {bytes : Array UInt8}

/-- **The first mark of a scan stands where the scan began.**  Without marks the scan stays
there. -/
theorem scan_first (lexer : Lexer) (branch : Branch) (source : Source) :
    ((lexer.scan branch source).marks.reverse = [] →
        (lexer.scan branch source).position = source.start) ∧
      ∀ mark ∈ (lexer.scan branch source).marks.reverse.head?, mark.place = source.start := by
  have hstart : Begun [] source.start (initial branch source).view := Or.inl ⟨rfl, rfl, rfl⟩
  obtain ⟨-, hbegun, -⟩ := run_induction (initial_fresh branch source) hstart
    fun _ _ _ _ hstep h => h.step hstep
  rw [← scan_eq lexer] at hbegun
  rcases hbegun with ⟨hnone, hposition, -⟩ | ⟨newer, first, hfirst, hplace⟩
  · rw [show (lexer.scan branch source).marks = [] from hnone]
    exact ⟨fun _ => hposition, fun mark hmark => by cases hmark⟩
  · rw [show (lexer.scan branch source).marks = newer ++ [first] from hfirst, List.reverse_concat]
    refine ⟨fun hnil => absurd hnil (List.cons_ne_nil _ _), fun mark hmark => ?_⟩
    cases hmark
    exact hplace

/-! ## 4. Two scans

The two scans are mirrored by the one scan of the whole, the first one from the beginning and the
second one from where that one passes the item. -/

/-- The root stays where it is cut, and the scan ends there. -/
theorem scan_upTo {bound : Nat} (lexer : Lexer) (h : bound ≤ bytes.size) :
    (lexer.scan .root (.upTo bytes bound)).frame.branch = .root ∧
      (lexer.scan .root (.upTo bytes bound)).position.byte = bound := by
  obtain ⟨hroot, hposition, -⟩ := lexer.scan_laid (.upTo bytes bound) rfl
    (blank (.upTo bytes bound)) rfl rfl rfl rfl
  refine ⟨hroot, hposition.trans ?_⟩
  rw [Source.range_upTo h, List.length_take, Array.length_toList, Nat.min_eq_left h]

/-- Nothing is read behind the end. -/
theorem scan_of_nil (lexer : Lexer) {source : Source} (h : source.range = []) :
    lexer.scan .root source = initial .root source := by
  have hfinished : (initial .root source).finished = true :=
    finished_iff.mpr (Or.inl h)
  rw [scan_eq, run_eq (n := 0) (initial_fresh .root source) hfinished]
  rfl

/-- An item of the root stands in the source. -/
theorem sits_of_mem (lexer : Lexer) {item : Item} (hitem : item ∈ lexer.items { bytes := bytes }) :
    Item.Sits lexer.dialect bytes.toList item := by
  obtain ⟨-, -, -, hlaid⟩ := lexer.scan_laid { bytes := bytes } rfl (blank { bytes := bytes })
    rfl rfl rfl rfl
  rw [← Source.range_all]
  exact hlaid item hitem item (Rose.mem_subtrees_self item)

/-- No item ends outside the source. -/
theorem stop_le (lexer : Lexer) {item : Item} (hitem : item ∈ lexer.items { bytes := bytes }) :
    item.label.span.stop.byte ≤ bytes.size := by
  have hinside := (lexer.sits_of_mem hitem).inside
  rwa [Array.length_toList] at hinside

/-- The last item ends where the source does. -/
theorem stop_last (lexer : Lexer) {front : List Item} {item : Item}
    (hitems : lexer.items { bytes := bytes } = front ++ [item]) :
    item.label.span.stop.byte = bytes.size := by
  obtain ⟨-, -, habut, -⟩ := lexer.scan_laid { bytes := bytes } rfl (blank { bytes := bytes })
    rfl rfl rfl rfl
  rw [show (lexer.draft (blank { bytes := bytes }) .root { bytes := bytes }).frame.done = _ from
    hitems, Source.range_all, Array.length_toList] at habut
  exact (Item.abut_split habut).2

/-- A bound at the end is none. -/
theorem scan_upTo_size (lexer : Lexer) (bytes : Array UInt8) :
    lexer.scan .root (.upTo bytes bytes.size) = lexer.scan .root { bytes := bytes } := by
  have hall : bytes.toList.length ≤ bytes.size := Nat.le_of_eq Array.length_toList
  have hrange : (Source.upTo bytes bytes.size).range = Source.range { bytes := bytes } := by
    rw [Source.range_upTo (Nat.le_refl _), Source.range_all, List.take_of_length_le hall]
  have hinitial : initial .root (.upTo bytes bytes.size) = initial .root { bytes := bytes } := by
    unfold initial
    rw [hrange]
    rfl
  rw [scan_eq, scan_eq, hinitial, lexer.scope_upTo (Nat.le_refl _), List.drop_eq_nil_of_le hall]
  rfl

/-- The scan that stops there stands in the root as the one that goes on. -/
theorem initial_mirrors (lexer : Lexer) {bound : Nat} (h : bound ≤ bytes.size) :
    Mirrors (.exact (lexer.scope { bytes := bytes }) (bytes.toList.drop bound)) []
      (initial .root { bytes := bytes }) (initial .root (.upTo bytes bound)) where
  rest := by
    show Source.range { bytes := bytes } = (Source.upTo bytes bound).range ++ _
    rw [Source.range_all, Source.range_upTo h, List.take_append_drop]
  position := rfl
  halted := rfl
  marks := ⟨[], rfl, .nil⟩
  face := rfl
  outer := rfl

/-- A scan of the bytes that another scan has left begins as that one goes on from where it
passes. -/
theorem mirrors_of_passes {scope : Scope} {input b : List UInt8} {start : Draft} {state : State}
    {front : List Item} (hpasses : Passes scope input start state front) {gauge : Gauge scope b}
    {source : Source} (hrest : state.rest = source.range ++ b)
    (hsame : gauge.Same state.position source.start) :
    Mirrors gauge state.marks state.forget (initial .root source) where
  rest := hrest
  position := hsame
  halted := (running_iff.mp hpasses.running).2
  marks := ⟨[], rfl, .nil⟩
  face := by
    show (state.frame.branch, none) = (.root, none)
    rw [hpasses.root]
  outer := by
    show state.outer.map Frame.face = []
    rw [hpasses.outer]
    rfl

/-- **A scan is split where an item of the root ends.**  The scan up to there and the one from there
on make its marks, and end where it ends.  An item that is a fragment may be cut too early. -/
theorem scan_split (lexer : Lexer) (hmade : lexer.fragments.Made) {item : Item}
    (hitem : item ∈ lexer.items { bytes := bytes })
    (hkind : ∀ branch, item.label.kind = .branch branch → branch.isFragment = false)
    {cut after : State} (hcut : lexer.scan .root (.upTo bytes item.label.span.stop.byte) = cut)
    (hafter : lexer.scan .root (.since bytes cut.position) = after) :
    (lexer.scan .root { bytes := bytes }).marks = after.marks ++ cut.marks ∧
      (lexer.scan .root { bytes := bytes }).position = after.position ∧
      after.frame.branch = .root := by
  obtain ⟨hroot, -⟩ := lexer.scan_laid { bytes := bytes } rfl (blank { bytes := bytes })
    rfl rfl rfl rfl
  have hinside := lexer.stop_le hitem
  obtain ⟨hcutroot, hstop⟩ := lexer.scan_upTo hinside
  rw [hcut] at hcutroot hstop
  rcases Nat.eq_or_lt_of_le hinside with hend | hlt
  · -- the last item ends where the source does, and nothing is left for the second scan
    have hsame : lexer.scan .root { bytes := bytes } = cut := by
      rw [← hcut, hend, scan_upTo_size]
    have hnil : (Source.since bytes cut.position).range = [] := by
      rw [Source.range_since, hstop, hend]
      exact List.drop_eq_nil_of_le (by simp)
    rw [lexer.scan_of_nil hnil] at hafter
    rw [hsame, ← hafter]
    exact ⟨rfl, rfl, rfl⟩
  · obtain ⟨front, back, hitems⟩ := List.append_of_mem hitem
    have hback : back ≠ [] := by
      rintro rfl
      exact absurd (lexer.stop_last hitems) (Nat.ne_of_lt hlt)
    obtain ⟨m, hpasses⟩ := lexer.exists_passes rfl (hitems.trans (List.append_cons _ _ _)) hback
    obtain ⟨hplace, hkindthere⟩ := hpasses.stands
    have hrest := hpasses.rest
    rw [Source.range_all, hplace] at hrest
    have hb : bytes.toList.drop item.label.span.stop.byte ≠ [] := by
      intro hnil
      rw [List.drop_eq_nil_iff, Array.length_toList] at hnil
      exact absurd hlt (Nat.not_lt_of_le hnil)
    have hlast : ∀ branch, (steps (lexer.scope { bytes := bytes }) m
        (initial .root { bytes := bytes })).frame.pending = some (.branch branch) →
        branch.isFragment = false := by
      intro branch hpending
      rw [hkindthere, Option.some.injEq] at hpending
      exact hkind branch hpending
    -- up to the cut
    have hfirst := run_cut hmade (lexer.initial_mirrors hinside) (initial_fresh .root _)
      (.of_root rfl rfl) rfl hb hrest hpasses.outer hlast
    rw [Gauge.scope_exact, ← lexer.scope_upTo hinside, ← scan_eq, hcut] at hfirst
    -- and from there on
    have hscan : lexer.scan .root { bytes := bytes } = _ :=
      run_forget (initial_fresh .root { bytes := bytes }) hpasses.root hpasses.outer
        hpasses.running hpasses.mark
    generalize steps (lexer.scope { bytes := bytes }) m
      (initial .root { bytes := bytes }) = state at *
    have hleft : state.rest = (Source.since bytes cut.position).range ++ [] := by
      rw [hrest, Source.range_since, hstop, List.append_nil]
    have hwhole : Mirrors (.exact (lexer.scope { bytes := bytes }) []) state.marks
        (lexer.scan .root { bytes := bytes }) after := by
      rw [← hafter, hscan]
      exact run_agrees hmade (mirrors_of_passes hpasses hleft hfirst.position)
        (State.forget_fresh hpasses.outer hpasses.running) hpasses.root (initial_fresh .root _)
    refine ⟨?_, hwhole.position, ?_⟩
    · rw [hwhole.marks_eq, hfirst.marks_eq, List.append_nil]
    · rw [← hwhole.branch, hroot]

end Lexer
end StyleLex
