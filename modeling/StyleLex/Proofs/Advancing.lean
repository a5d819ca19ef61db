/-
# Advancing in two parts

A position that is told the byte behind what it goes over comes to the same place whether it goes
over some bytes at once or over a front of them and then over the rest
(`Position.advanceOver_append`).  A scan is always told, so it may take bytes as it likes
(`Scan.State.consume_consume`).

Where nothing is known of what follows, a carriage return at the end of the front ends a line, and a
line feed at the beginning of the rest ends it again.  The number of the line is then one too high,
and all else is right: the line feed sets the distances from the start of the line back, whatever
they were, and what is counted from there on does not depend on the number
(`Position.advanceOver_lower`).  Only a carriage return asks for the byte behind it, so no other cut
is noticed (`Position.advanceBytes_append`).

The functions differ in what they are told.  `advanceOver` is told the byte behind what it goes
over; `advanceBytes` is the case in which nothing is known of it, and is what a caller has who holds
the bytes and nothing else.  The first composes always and the second up to one case, and the
failure is not only described but measured.
-/
import StyleLex.Proofs.Scan.Asking

namespace StyleLex
namespace Position

variable {a b : List UInt8}

/-! ## 1. Composition

By induction on the first part, with the position general; the byte behind a part is the first of
what follows. -/

/-- **Advancing composes** if the first part is told what the second one begins with. -/
theorem advanceOver_append (after : Option UInt8) (a b : List UInt8) (position : Position) :
    position.advanceOver after (a ++ b) =
      (position.advanceOver (b.head?.or after) a).advanceOver after b := by
  induction a generalizing position with
  | nil => rfl
  | cons byte rest ih =>
    rw [List.cons_append, advanceOver, advanceOver, ih, List.head?_append, Option.or_assoc]

/-- Of what follows the whole nothing is known, but the second part follows the first one. -/
theorem advanceBytes_append_eq (position : Position) (a b : List UInt8) :
    position.advanceBytes (a ++ b) = (position.advanceOver b.head? a).advanceBytes b := by
  rw [advanceBytes, advanceOver_append, Option.or_none, advanceBytes]

/-- The byte behind a part goes unnoticed, if they are not a carriage return and a line feed. -/
theorem advanceOver_head? (hcut : ¬ (a.getLast? = some Byte.carriageReturn ∧
    b.head? = some Byte.lineFeed)) (position : Position) :
    position.advanceOver b.head? a = position.advanceBytes a := by
  refine advanceOver_congr position fun hlast => ?_
  constructor
  · intro hhead
    exact absurd ⟨hlast, hhead⟩ hcut
  · intro hnone
    cases hnone

/-! ## 2. Lines counted from elsewhere

The number of a line is added to and never looked at, so a shift of it commutes with everything. -/

/-- The same offsets, `n` lines further down. -/
def lower (n : Nat) (position : Position) : Position := { position with line := position.line + n }

@[simp] theorem line_lower (n : Nat) (position : Position) :
    (position.lower n).line = position.line + n := rfl

@[simp] theorem absolute_lower (n : Nat) (position : Position) :
    (position.lower n).absolute = position.absolute := rfl

@[simp] theorem relative_lower (n : Nat) (position : Position) :
    (position.lower n).relative = position.relative := rfl

/-- A byte adds to the number of the line, whatever it is. -/
theorem advance_lower (n : Nat) (position : Position) (byte : UInt8) (next : Option UInt8) :
    (position.lower n).advance byte next = (position.advance byte next).lower n := by
  unfold advance
  split
  · simp only [lower, Nat.add_right_comm]
  · rfl

/-- **Advancing further down** is advancing, further down. -/
theorem advanceOver_lower (n : Nat) (after : Option UInt8) (bytes : List UInt8)
    (position : Position) :
    (position.lower n).advanceOver after bytes = (position.advanceOver after bytes).lower n := by
  induction bytes generalizing position with
  | nil => rfl
  | cons byte rest ih => rw [advanceOver, advanceOver, advance_lower, ih]

/-! ## 3. A line break that is cut

One step at the cut is compared with one step without it.  After that step the two positions differ
in the number of their line, and the section before says that they go on to differ in nothing else.
-/

/-- **A line feed counts once more** what a carriage return has counted, and it leaves no trace of
where the line began. -/
theorem advance_carriageReturn_lineFeed (position : Position) (next : Option UInt8) :
    (position.advance Byte.carriageReturn none).advance Byte.lineFeed next =
      ((position.advance Byte.carriageReturn (some Byte.lineFeed)).advance
        Byte.lineFeed next).lower 1 := by
  have hfeed : endsLine Byte.lineFeed next = true := rfl
  have halone : endsLine Byte.carriageReturn none = true := rfl
  have hpair : endsLine Byte.carriageReturn (some Byte.lineFeed) = false := rfl
  simp only [advance, hfeed, halone, hpair, if_true, lower]
  rfl

/-- Cut between a carriage return and a line feed, bytes count one line more than they have. -/
theorem advanceBytes_advanceBytes_of_cut (hlast : a.getLast? = some Byte.carriageReturn)
    (hhead : b.head? = some Byte.lineFeed) (position : Position) :
    (position.advanceBytes a).advanceBytes b = (position.advanceBytes (a ++ b)).lower 1 := by
  obtain ⟨front, rfl⟩ := List.getLast?_eq_some_iff.mp hlast
  obtain ⟨rest, rfl⟩ := List.head?_eq_some_iff.mp hhead
  -- both ways take the front alike, for the carriage return follows it
  let reached := position.advanceOver (some Byte.carriageReturn) front
  have hparts : position.advanceBytes (front ++ [Byte.carriageReturn]) =
      reached.advance Byte.carriageReturn none := by
    rw [advanceBytes_append_eq]
    rfl
  have hwhole : position.advanceBytes (front ++ [Byte.carriageReturn] ++ Byte.lineFeed :: rest) =
      ((reached.advance Byte.carriageReturn (some Byte.lineFeed)).advance Byte.lineFeed
        (rest.head?.or none)).advanceOver none rest := by
    rw [List.append_assoc, advanceBytes_append_eq]
    rfl
  rw [hparts, hwhole, advanceBytes, advanceOver, advance_carriageReturn_lineFeed, advanceOver_lower]

/-- **Advancing in two parts** comes to where advancing at once does, unless they part a carriage
return from a line feed.  Then the two parts count one line more, and all offsets are the same. -/
theorem advanceBytes_append (position : Position) (a b : List UInt8) :
    (position.advanceBytes (a ++ b) = (position.advanceBytes a).advanceBytes b ↔
      ¬ (a.getLast? = some Byte.carriageReturn ∧ b.head? = some Byte.lineFeed)) ∧
    (a.getLast? = some Byte.carriageReturn ∧ b.head? = some Byte.lineFeed →
      ((position.advanceBytes a).advanceBytes b).line =
          (position.advanceBytes (a ++ b)).line + 1 ∧
        ((position.advanceBytes a).advanceBytes b).absolute =
          (position.advanceBytes (a ++ b)).absolute ∧
        ((position.advanceBytes a).advanceBytes b).relative =
          (position.advanceBytes (a ++ b)).relative) := by
  refine ⟨⟨?_, ?_⟩, ?_⟩
  · rintro hsame ⟨hlast, hhead⟩
    have hline := congrArg line hsame
    rw [advanceBytes_advanceBytes_of_cut hlast hhead, line_lower] at hline
    exact absurd hline (Nat.ne_of_lt (Nat.lt_succ_self _))
  · intro hcut
    rw [advanceBytes_append_eq, advanceOver_head? hcut]
  · rintro ⟨hlast, hhead⟩
    rw [advanceBytes_advanceBytes_of_cut hlast hhead]
    exact ⟨line_lower 1 _, absolute_lower 1 _, relative_lower 1 _⟩

/-- `é`, a carriage return, a line feed and `b` end one line, but two if they are cut in the
middle. -/
theorem cut_line_break_counted_twice :
    ([0xC3, 0xA9, 0x0D].getLast? = some Byte.carriageReturn ∧
      [0x0A, 0x62].head? = some Byte.lineFeed) ∧
      origin.advanceBytes ([0xC3, 0xA9, 0x0D] ++ [0x0A, 0x62]) = ⟨⟨5, 4⟩, ⟨1, 1⟩, 1⟩ ∧
      origin.advanceBytes ([0xC3, 0xA9, 0x0D] ++ [0x0A, 0x62]) ≠
        (origin.advanceBytes [0xC3, 0xA9, 0x0D]).advanceBytes [0x0A, 0x62] ∧
      ((origin.advanceBytes [0xC3, 0xA9, 0x0D]).advanceBytes [0x0A, 0x62]).line = 2 ∧
      ((origin.advanceBytes [0xC3, 0xA9, 0x0D]).advanceBytes [0x0A, 0x62]).absolute = ⟨5, 4⟩ := by
  have hcut : [0xC3, 0xA9, 0x0D].getLast? = some Byte.carriageReturn ∧
      [0x0A, 0x62].head? = some Byte.lineFeed := ⟨rfl, rfl⟩
  have hwhole : origin.advanceBytes ([0xC3, 0xA9, 0x0D] ++ [0x0A, 0x62]) =
      ⟨⟨5, 4⟩, ⟨1, 1⟩, 1⟩ := by decide
  obtain ⟨hiff, hdiffer⟩ := advanceBytes_append origin [0xC3, 0xA9, 0x0D] [0x0A, 0x62]
  obtain ⟨hline, habsolute, -⟩ := hdiffer hcut
  rw [hwhole] at hline habsolute
  exact ⟨hcut, hwhole, fun hsame => hiff.mp hsame hcut, hline, habsolute⟩

end Position

/-! ## 4. Scans

Within a scan no cut can go wrong, since the bytes that are left are at hand. -/

namespace Scan

/-- **A scan takes bytes in two parts** as it takes them at once, for it looks at the byte behind
each part, and at the byte behind its bound. -/
theorem State.consume_consume (scope : Scope) (m n : Nat) (state : State) :
    (state.consume scope m).consume scope n = state.consume scope (m + n) := by
  have hnext : ((state.rest.drop m).take n).head?.or
      ((state.rest.drop (m + n)).head?.or scope.beyond) =
        (state.rest.drop m).head?.or scope.beyond := by
    rw [← Option.or_assoc, ← List.drop_drop, ← List.head?_append, List.take_append_drop]
  simp only [consume, List.drop_drop, List.take_add, Position.advanceOver_append, hnext]

end Scan
end StyleLex
