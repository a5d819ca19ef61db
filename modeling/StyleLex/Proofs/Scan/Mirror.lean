/-
# Two scans side by side

A scan goes on where another one has to stop: `b` lies beyond what the other one sees.  The two
mirror each other if they stand at the same place, in branches that show the same to readers
(`Mirrors`).  The first one may have marks from before.

Which positions of the two are the same place is up to a `Gauge`, for readers do not look at
positions: the second scan may count from elsewhere, and then it may also know another byte behind
its stop.

What a reader takes is settled by the bytes that it takes, so both scans make the same step, unless
the first one takes bytes of `b` (`take_agrees`, `close_agrees`); then it will not stand outside of
all branches where the other one has to stop.

This is the relation by which one scan is compared with another.  It is used three times: for the
first part of a source and the whole of it, where the places of the two are equal; for the second
part, which counts positions from the cut; and for a text that is read by itself, where they differ
by a shift.  What the three have in common is stated once here, with the gauge as a parameter, and
the recoveries are left out because a second scan may see the end of its input where the first one
goes on.

The relation is not a bisimulation.  A scan that sees less may take another turn than the one that
sees more, for instance in an escape that the stop cuts off, and from then on nothing can be said
about it.  `Agree.never` is for this case: it says that such a turn only happens where the first
scan is inside a branch at the stop, which those who compare scans exclude.
-/
import Mathlib.Data.List.Forall2
import StyleLex.Proofs.Scan.Barrier

namespace StyleLex
namespace Scan

/-! ## 1. Places

A gauge has to be kept by every move past bytes that both scans see.  Each scan moves with what it
knows of the byte behind its own stop, since that decides whether a carriage return ends a line. -/

/-- Which position of a second scan, which has to stop where `b` begins, is the place of which
position of the first one.  That stays so as both scans move on, each with what it knows of the byte
behind its stop. -/
structure Gauge (scope : Scope) (b : List UInt8) where
  /-- What the second scan knows of the byte behind its stop. -/
  beyond : Option UInt8
  Same : Position → Position → Prop
  advance : ∀ {p q : Position} (taken left : List UInt8), Same p q →
    Same (p.advanceOver ((left ++ b).head?.or scope.beyond) taken)
      (q.advanceOver (left.head?.or beyond) taken)

namespace Gauge

/-- What the second scan may look at. -/
def scope {scope : Scope} {b : List UInt8} (gauge : Gauge scope b) : Scope :=
  { scope with beyond := gauge.beyond }

/-- Marks of the same node, at the same place. -/
inductive Marks {scope : Scope} {b : List UInt8} (gauge : Gauge scope b) : Mark → Mark → Prop where
  | leaf {p q : Position} (leaf : Leaf) (valid : Bool) (same : gauge.Same p q) :
      Marks gauge (.leaf leaf valid p) (.leaf leaf valid q)
  | opened {p q : Position} (branch : Branch) (same : gauge.Same p q) :
      Marks gauge (.opened branch p) (.opened branch q)
  | closed {p q : Position} (branch : Branch) (valid : Bool) (same : gauge.Same p q) :
      Marks gauge (.closed branch valid p) (.closed branch valid q)

end Gauge

/-- What a scan may look at that has to stop where `b` begins. -/
def Scope.upTo (scope : Scope) (b : List UInt8) : Scope :=
  { scope with beyond := b.head?.or scope.beyond }

/-- The second scan measures as the first one does: it knows the byte behind its stop. -/
def Gauge.exact (scope : Scope) (b : List UInt8) : Gauge scope b where
  beyond := b.head?.or scope.beyond
  Same := Eq
  advance := by
    rintro p _ taken left rfl
    rw [List.head?_append, Option.or_assoc]

/-- The second scan of an exact gauge is a scan that stops where `b` begins. -/
theorem Gauge.scope_exact (scope : Scope) (b : List UInt8) :
    (Gauge.exact scope b).scope = scope.upTo b := rfl

/-- Then its marks are those of the first one. -/
theorem Gauge.marks_exact {scope : Scope} {b : List UInt8} {marks marks' : List Mark}
    (h : List.Forall₂ (Gauge.exact scope b).Marks marks marks') : marks = marks' := by
  induction h with
  | nil => rfl
  | cons hmark _ ih =>
    rw [ih]
    cases hmark with
    | leaf _ _ same | opened _ same | closed _ _ same =>
      obtain rfl : _ = _ := same
      rfl

/-! ## 2. Mirrored states

Readers see the bytes ahead, the branch and what was read last in it.  Where the branch began and
what was counted is not shown to them, so mirrored states need not agree there. -/

/-- What a frame shows to readers. -/
def Frame.face (frame : Frame) : Branch × Option Kind := (frame.branch, frame.pending)

/-- `g` has to stop where `b` begins, and `f` has the marks `old` already. -/
structure Mirrors {scope : Scope} {b : List UInt8} (gauge : Gauge scope b) (old : List Mark)
    (f g : State) : Prop where
  rest : f.rest = g.rest ++ b
  position : gauge.Same f.position g.position
  halted : f.halted = g.halted
  marks : ∃ new, f.marks = new ++ old ∧ List.Forall₂ gauge.Marks new g.marks
  face : f.frame.face = g.frame.face
  outer : f.outer.map Frame.face = g.outer.map Frame.face

variable {scope : Scope} {b : List UInt8} {gauge : Gauge scope b} {old : List Mark} {f g : State}

namespace Mirrors

/-- The two are in the same branch. -/
theorem branch (h : Mirrors gauge old f g) : f.frame.branch = g.frame.branch :=
  congrArg Prod.fst h.face

/-- The same was read last in it. -/
theorem pending (h : Mirrors gauge old f g) : f.frame.pending = g.frame.pending :=
  congrArg Prod.snd h.face

/-- Hence the same readers are asked. -/
theorem context (h : Mirrors gauge old f g) : f.context = g.context :=
  congrArg Branch.context h.branch

/-- If both measure alike, the first one has the marks of the second and the old ones. -/
theorem marks_eq (h : Mirrors (.exact scope b) old f g) : f.marks = g.marks ++ old := by
  obtain ⟨new, hnew, hsame⟩ := h.marks
  rw [hnew, Gauge.marks_exact hsame]

/-- If one of them is in its caller's branch, so is the other. -/
theorem outer_eq_nil (h : Mirrors gauge old f g) : f.outer = [] ↔ g.outer = [] := by
  rw [← List.map_eq_nil_iff, h.outer, List.map_eq_nil_iff]

/-- Both scans make one more mark. -/
theorem added (h : Mirrors gauge old f g) {mark mark' : Mark} (hmark : gauge.Marks mark mark') :
    ∃ new, mark :: f.marks = new ++ old ∧ List.Forall₂ gauge.Marks new (mark' :: g.marks) := by
  obtain ⟨new, hnew, hsame⟩ := h.marks
  exact ⟨mark :: new, by rw [hnew, List.cons_append], .cons hmark hsame⟩

/-- Both scans move past bytes that both see. -/
theorem consume (h : Mirrors gauge old f g) {n : Nat} (hn : n ≤ g.rest.length ∨ b = []) :
    Mirrors gauge old (f.consume scope n) (g.consume gauge.scope n) := by
  have hdrop : f.rest.drop n = g.rest.drop n ++ b := by
    rcases hn with hn | rfl
    · rw [h.rest, drop_append_of_le hn]
    · rw [h.rest, List.append_nil, List.append_nil]
  have htake : f.rest.take n = g.rest.take n := by
    rcases hn with hn | rfl
    · rw [h.rest, List.take_append_of_le_length hn]
    · rw [h.rest, List.append_nil]
  refine ⟨hdrop, ?_, h.halted, h.marks, h.face, h.outer⟩
  show gauge.Same (f.position.advanceOver ((f.rest.drop n).head?.or scope.beyond) (f.rest.take n))
    (g.position.advanceOver ((g.rest.drop n).head?.or gauge.beyond) (g.rest.take n))
  rw [htake, hdrop]
  exact gauge.advance _ _ h.position

/-- Both scans begin a leaf. -/
theorem addLeaf (h : Mirrors gauge old f g) (leaf : Leaf) (valid : Bool) :
    Mirrors gauge old (f.addLeaf leaf valid) (g.addLeaf leaf valid) where
  rest := h.rest
  position := h.position
  halted := h.halted
  marks := h.added (.leaf leaf valid h.position)
  face := congrArg (fun branch => (branch, some (Kind.leaf leaf))) h.branch
  outer := h.outer

/-- Both scans open a branch. -/
theorem openBranch (h : Mirrors gauge old f g) (branch : Branch) :
    Mirrors gauge old (f.openBranch branch) (g.openBranch branch) where
  rest := h.rest
  position := h.position
  halted := h.halted
  marks := h.added (.opened branch h.position)
  face := rfl
  outer := by
    show (f.frame.branch, none) :: f.outer.map Frame.face =
      (g.frame.branch, none) :: g.outer.map Frame.face
    rw [h.branch, h.outer]

/-- A recovery is no concern of the other scan. -/
theorem recover (h : Mirrors gauge old f g) (fault : Fault) (span span' : Span) :
    Mirrors gauge old (f.recover fault span) (g.recover fault span') :=
  ⟨h.rest, h.position, h.halted, h.marks, h.face, h.outer⟩

/-- Both scans halt. -/
theorem halt (h : Mirrors gauge old f g) :
    Mirrors gauge old { f with halted := true } { g with halted := true } :=
  ⟨h.rest, h.position, rfl, h.marks, h.face, h.outer⟩

/-- Both scans change what their hash has gathered. -/
theorem mapHash (h : Mirrors gauge old f g) (change : Hash → Hash) :
    Mirrors gauge old (f.mapHash change) (g.mapHash change) := by
  have hbranch := h.branch
  unfold State.mapHash
  rw [hbranch]
  split
  · exact ⟨h.rest, h.position, h.halted, h.marks,
      congrArg (fun pending => (_, pending)) h.pending, h.outer⟩
  · exact h

end Mirrors

/-! ## 3. Readers side by side

A reader is a reading of the bytes ahead and a change of the state.  The readings split (`Splits`),
which was shown for each of them by itself; the changes are mirrored.  The two results at the end
put this together for the two sorts of readers, those that take something and those that close
something. -/

/-- Two readers agree if both decline, or if what they leave is mirrored; the first one may also
go where it never stands outside of all branches with `b` left. -/
inductive Agree {scope : Scope} {b : List UInt8} (gauge : Gauge scope b) (old : List Mark) :
    Option State → Option State → Prop where
  | none : Agree gauge old none none
  | never {f : State} {other : Option State} (hb : b ≠ []) (h : Never scope b f) :
      Agree gauge old (some f) other
  | some {f g : State} (h : Mirrors gauge old f g) : Agree gauge old (some f) (some g)

namespace Agree

/-- Bytes beyond the stop were taken, so the first scan is past it and does not come back. -/
theorem of_taken {n : Nat} {other : Option State} (hb : b ≠ []) (hn : g.rest.length < n)
    {before : State} (hrest : before.rest = g.rest ++ b) :
    Agree gauge old (Option.some (before.consume scope n)) other := by
  refine .never hb (Never.of_lt ?_)
  have hpos : 0 < b.length := List.length_pos_iff.mpr hb
  show (before.rest.drop n).length < b.length
  rw [hrest, List.length_drop, List.length_append]
  omega

/-- The readers of a context agree if each one does where those before it declined. -/
theorem findSome {first first' : Option State} {rest rest' : Option State}
    (h : Agree gauge old first first')
    (hrest : first = Option.none → Agree gauge old rest rest') :
    Agree gauge old (first.or rest) (first'.or rest') := by
  cases h with
  | none => simpa using hrest rfl
  | never hb h => exact .never hb h
  | some h => exact .some h

end Agree

/-- **What both readings take is the same in both scans**, unless the first one takes bytes that
the second one does not see. -/
theorem take_agrees {α : Type} {read : List UInt8 → Option (α × Nat)}
    (hread : Splits read g.rest b) (h : Mirrors gauge old f g) (change : α → State → State)
    (hrest : ∀ value state, (change value state).rest = state.rest)
    (hchange : ∀ value, Mirrors gauge old (change value f) (change value g)) :
    Agree gauge old
      ((read f.rest).map fun found => (change found.1 f).consume scope found.2)
      ((read g.rest).map fun found => (change found.1 g).consume gauge.scope found.2) := by
  rw [h.rest]
  rcases hread with ⟨hf, hg⟩ | ⟨value, n, hf, ⟨hb, hn⟩ | ⟨hn, hg⟩⟩
  · rw [hf, hg]
    exact .none
  · rw [hf]
    exact Agree.of_taken hb hn ((hrest value f).trans h.rest)
  · rw [hf, hg]
    refine .some ((hchange value).consume ?_)
    rw [hrest]
    exact hn

/-- Completing a branch is the same in both scans. -/
theorem closeBranch_agrees (h : Mirrors gauge old f g) (valid : Bool) :
    (f.closeBranch? valid = none ∧ g.closeBranch? valid = none) ∨
      ∃ f' g', f.closeBranch? valid = some f' ∧ g.closeBranch? valid = some g' ∧
        Mirrors gauge old f' g' ∧ g'.rest = g.rest := by
  have houter := h.outer
  unfold State.closeBranch?
  cases hf : f.outer with
  | nil =>
    rw [hf] at houter
    rw [List.map_eq_nil_iff.mp houter.symm]
    exact Or.inl ⟨rfl, rfl⟩
  | cons around further =>
    rw [hf, List.map_cons] at houter
    obtain ⟨around', further', hg, haround, hfurther⟩ := List.map_eq_cons_iff.mp houter.symm
    rw [hg]
    refine Or.inr ⟨_, _, rfl, rfl, ⟨h.rest, h.position, h.halted, ?_, ?_, hfurther.symm⟩, rfl⟩
    · rw [h.branch]
      exact h.added (.closed _ valid h.position)
    · show (around.branch, some (Kind.branch f.frame.branch)) =
        (around'.branch, some (Kind.branch g.frame.branch))
      rw [h.branch, show around.branch = around'.branch from congrArg Prod.fst haround.symm]

/-- **So is what closes it**, or it takes bytes that the second scan does not see. -/
theorem close_agrees {α : Type} {read : List UInt8 → Option (α × Nat)}
    (hread : Splits read g.rest b) (h : Mirrors gauge old f g) (valid : Bool) :
    Agree gauge old
      ((read f.rest).bind fun found => (f.closeBranch? valid).map (State.consume scope found.2))
      ((read g.rest).bind fun found =>
        (g.closeBranch? valid).map (State.consume gauge.scope found.2)) := by
  rw [h.rest]
  -- both decline, or the first one takes bytes of `b`, or both take the same
  rcases hread with ⟨hf, hg⟩ | ⟨value, n, hf, ⟨hb, hn⟩ | ⟨hn, hg⟩⟩
  · rw [hf, hg]
    exact .none
  · rw [hf, Option.bind_some]
    rcases closeBranch_agrees h valid with ⟨hf', hg'⟩ | ⟨f', g', hf', -, hclosed, hsame⟩
    · rw [hf', hg', Option.map_none]
      cases read g.rest <;> exact .none
    · rw [hf', Option.map_some]
      exact Agree.of_taken hb hn (hsame ▸ hclosed.rest)
  · rw [hf, hg, Option.bind_some, Option.bind_some]
    rcases closeBranch_agrees h valid with ⟨hf', hg'⟩ | ⟨f', g', hf', hg', hclosed, hsame⟩
    · rw [hf', hg']
      exact .none
    · rw [hf', hg']
      refine .some (hclosed.consume ?_)
      rw [hsame]
      exact hn

end Scan
end StyleLex
