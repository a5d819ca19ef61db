/-
# A machine that matches brackets

The machine has a stack of the brackets that are open.  An opener goes on the stack, the closer of
the bracket on top takes it off, and any other closer is a stray.  At the end the brackets that are
left are closed from the inside out, though nothing closes them.

The machine notes what it closes and what it strays over.  A word is balanced if and only if
nothing in its log is amiss (`Bracket.balanced_iff`): what is read behind the openers on the stack
has balanced words between their closers (`Bracket.Closes`).

This is the specification of what the lexer makes of brackets.  It knows nothing of trees: a bracket
is its kind and where it stands, and what is around it is the bracket below it on the stack.  That
the groups of a tree are the matches of the machine is shown elsewhere (`Proofs/Scan/Matching`);
here it is shown that the machine means what one expects, by comparing it with the usual grammar of
balanced words.

A stray does not close anything and does not take anything off the stack, so a single wrong bracket
does not spoil what is around it.
-/
import StyleLex.Proofs.Token.Pattern

namespace StyleLex
namespace Bracket

/-! ## 1. The machine

The machine is executable, so that its verdicts on a word can be looked at. -/

/-- A bracket that is open, and where its opener stands. -/
structure Pending where
  bracket : Bracket
  start : Nat
  deriving DecidableEq, Repr

/-- A bracket that was closed. -/
structure Match where
  bracket : Bracket
  start : Nat
  /-- Behind the closer, or the end of the word. -/
  stop : Nat
  /-- Where the bracket around it was opened. -/
  around : Option Nat
  /-- Was it closed by its closer? -/
  closed : Bool
  deriving DecidableEq, Repr

/-- What the machine notes, where it closes a bracket and where it does not. -/
inductive Verdict where
  | matched (found : Match)
  /-- A closer that does not belong to the bracket on top. -/
  | stray (place : Nat)
  deriving DecidableEq, Repr

namespace Verdict

/-- Is nothing amiss? -/
def clean : Verdict → Bool
  | matched found => found.closed
  | stray _ => false

/-- The bracket that was closed, if one was. -/
def match? : Verdict → Option Match
  | matched found => some found
  | stray _ => none

/-- The stray, if it is one. -/
def stray? : Verdict → Option Nat
  | matched _ => none
  | stray place => some place

end Verdict

structure Machine where
  place : Nat := 0
  /-- The brackets that are open, the innermost one on top. -/
  stack : List Pending := []
  /-- Oldest first. -/
  log : List Verdict := []
  deriving DecidableEq, Repr

namespace Machine

/-- Notes a verdict. -/
def note (verdict : Verdict) (machine : Machine) : Machine :=
  { machine with log := machine.log ++ [verdict] }

/-- Takes the bracket on top off the stack. -/
def close (closed : Bool) (machine : Machine) : Machine :=
  match machine.stack with
  | [] => machine
  | top :: further =>
    { machine with stack := further }.note <|
      .matched ⟨top.bracket, top.start, machine.place, further.head?.map Pending.start, closed⟩

/-- Reads one byte of a word of brackets. -/
def read (machine : Machine) (b : UInt8) : Machine :=
  let next := { machine with place := machine.place + 1 }
  match ofOpener? b with
  | some bracket => { next with stack := ⟨bracket, machine.place⟩ :: machine.stack }
  | none =>
    if machine.stack.head?.any (·.bracket.closer == b) then next.close true
    else next.note (.stray machine.place)

/-- Closes what is still open, from the inside out. -/
def finish (machine : Machine) : Machine :=
  machine.stack.foldl (fun machine _ => machine.close false) machine

end Machine

/-- The log of a word. -/
def verdicts (word : List UInt8) : List Verdict := (word.foldl Machine.read {}).finish.log

/-- The brackets of a word, in the order in which they are closed. -/
def matching (word : List UInt8) : List Match := (verdicts word).filterMap Verdict.match?

/-- Where the closers stand that belong to no open bracket. -/
def strays (word : List UInt8) : List Nat := (verdicts word).filterMap Verdict.stray?

/-- `([)]}`: the bracket is closed in the parenthesis, which is left open. -/
example : matching [0x28, 0x5B, 0x29, 0x5D, 0x7D] =
      [⟨.square, 1, 4, some 0, true⟩, ⟨.round, 0, 5, none, false⟩] ∧
    strays [0x28, 0x5B, 0x29, 0x5D, 0x7D] = [2, 4] := by decide

/-- The strays of a word are those in its log. -/
theorem mem_strays {word : List UInt8} {place : Nat} :
    place ∈ strays word ↔ Verdict.stray place ∈ verdicts word := by
  rw [strays, List.mem_filterMap]
  constructor
  · rintro ⟨verdict, hverdict, hstray⟩
    cases verdict with
    | matched found => cases hstray
    | stray found => exact Option.some.inj hstray ▸ hverdict
  · exact fun h => ⟨_, h, rfl⟩

/-- Balanced words over the three bracket pairs. -/
inductive Balanced : List UInt8 → Prop where
  | nil : Balanced []
  | group {bracket : Bracket} {inner rest : List UInt8} (inside : Balanced inner)
      (behind : Balanced rest) :
      Balanced (bracket.opener :: (inner ++ bracket.closer :: rest))

/-! ## 2. Steps of the machine

One lemma for each of the three things that a byte can do: open, close, stray. -/

/-- No closer opens a bracket. -/
theorem ofOpener?_closer (bracket : Bracket) : ofOpener? bracket.closer = none := by
  cases bracket <;> rfl

namespace Machine

variable {machine : Machine} {top : Pending} {further : List Pending} {b : UInt8}

/-- Closing takes the bracket on top off the stack and notes it. -/
theorem close_of_stack (hstack : machine.stack = top :: further) (closed : Bool) :
    machine.close closed = { machine with
      stack := further
      log := machine.log ++ [.matched
        ⟨top.bracket, top.start, machine.place, further.head?.map Pending.start, closed⟩] } := by
  rw [close, hstack]
  rfl

/-- An opener is put on the stack. -/
theorem read_opener (machine : Machine) (bracket : Bracket) :
    machine.read bracket.opener = { machine with
      place := machine.place + 1
      stack := ⟨bracket, machine.place⟩ :: machine.stack } := by
  rw [read, ofOpener?_opener]

/-- The closer of the bracket on top closes it. -/
theorem read_closer (top : Pending) (further : List Pending)
    (hstack : machine.stack = top :: further) :
    machine.read top.bracket.closer = { machine with place := machine.place + 1 }.close true := by
  have hany : machine.stack.head?.any (·.bracket.closer == top.bracket.closer) = true := by
    rw [hstack]
    exact beq_self_eq_true _
  rw [read, ofOpener?_closer, if_pos hany]

/-- Any other closer is a stray. -/
theorem read_stray (hopener : ofOpener? b = none)
    (hstack : ∀ top ∈ machine.stack.head?, top.bracket.closer ≠ b) :
    machine.read b = { machine with
      place := machine.place + 1
      log := machine.log ++ [.stray machine.place] } := by
  have hany : machine.stack.head?.any (·.bracket.closer == b) = false := by
    cases htop : machine.stack.head? with
    | none => rfl
    | some top => exact beq_eq_false_iff_ne.mpr (hstack top htop)
  rw [read, hopener, if_neg (by rw [hany]; decide)]
  rfl

/-- Closing reads nothing. -/
theorem place_close (closed : Bool) (machine : Machine) :
    (machine.close closed).place = machine.place := by
  unfold close
  split <;> rfl

/-- Reading a byte goes one place further. -/
@[simp] theorem place_read (machine : Machine) (b : UInt8) :
    (machine.read b).place = machine.place + 1 := by
  unfold read
  dsimp only
  split
  · rfl
  · split
    · exact place_close true { machine with place := machine.place + 1 }
    · rfl

/-- At the end, the bracket on top is the next one that is closed. -/
theorem finish_close (hstack : machine.stack = top :: further) :
    (machine.close false).finish = machine.finish := by
  have hclosed : (machine.close false).stack = further := by
    rw [close_of_stack hstack]
  rw [finish, hclosed, finish, hstack, List.foldl_cons]

/-- With nothing open there is nothing to do. -/
theorem finish_of_nil (hstack : machine.stack = []) : machine.finish = machine := by
  rw [finish, hstack]
  rfl

/-! ## 3. The log

The log only grows, so a verdict that is amiss stays in it to the end. -/

/-- Closing adds to the log. -/
theorem log_close (closed : Bool) (machine : Machine) :
    machine.log <+: (machine.close closed).log := by
  unfold close
  split
  · exact List.prefix_rfl
  · exact List.prefix_append _ _

/-- So does reading, or it leaves the log as it is. -/
theorem log_read (machine : Machine) (b : UInt8) : machine.log <+: (machine.read b).log := by
  unfold read
  dsimp only
  split
  · exact List.prefix_rfl
  · split
    · exact log_close true { machine with place := machine.place + 1 }
    · exact List.prefix_append _ _

/-- **Nothing is taken from the log.** -/
theorem log_finish (word : List UInt8) (machine : Machine) :
    machine.log <+: (word.foldl read machine).finish.log := by
  have hclosing : ∀ (open_ : List Pending) (machine : Machine),
      machine.log <+: (open_.foldl (fun machine _ => machine.close false) machine).log := by
    intro open_
    induction open_ with
    | nil => exact fun _ => List.prefix_rfl
    | cons _ open_ ih => exact fun machine => (log_close false machine).trans (ih _)
  induction word generalizing machine with
  | nil => exact hclosing _ machine
  | cons b word ih => exact (log_read machine b).trans (ih _)

end Machine

/-! ## 4. Balanced words

In one direction by induction on the balanced word, with any stack below; in the other by induction
on the word, where a stack of pending brackets has to be closed by what is left. -/

open Machine

/-- **A balanced word leaves the stack as it was**, and nothing in the log is amiss. -/
theorem Balanced.read {word : List UInt8} (h : Balanced word) : ∀ machine : Machine,
    ∃ log, word.foldl Machine.read machine =
        { machine with place := machine.place + word.length, log := machine.log ++ log } ∧
      ∀ verdict ∈ log, verdict.clean = true := by
  induction h with
  | nil => exact fun machine => ⟨[], by simp, nofun⟩
  | @group bracket inner rest inside behind ihinside ihbehind =>
    intro machine
    obtain ⟨front, hinner, hfront⟩ := ihinside (machine.read bracket.opener)
    rw [read_opener] at hinner
    have hclosed : (inner.foldl Machine.read (machine.read bracket.opener)).read bracket.closer =
        ⟨machine.place + 1 + inner.length + 1, machine.stack, machine.log ++ front ++
          [.matched ⟨bracket, machine.place, machine.place + 1 + inner.length + 1,
            machine.stack.head?.map Pending.start, true⟩]⟩ := by
      rw [read_opener, hinner]
      exact read_closer ⟨bracket, machine.place⟩ machine.stack rfl
    obtain ⟨back, hrest, hback⟩ := ihbehind
      ((inner.foldl Machine.read (machine.read bracket.opener)).read bracket.closer)
    refine ⟨front ++ .matched ⟨bracket, machine.place, machine.place + 1 + inner.length + 1,
      machine.stack.head?.map Pending.start, true⟩ :: back, ?_, ?_⟩
    · rw [List.foldl_cons, List.foldl_append, List.foldl_cons, hrest, hclosed]
      simp only [List.length_cons, List.length_append, List.append_assoc, List.singleton_append,
        Machine.mk.injEq, and_true]
      omega
    · simp only [List.forall_mem_append, List.forall_mem_cons]
      exact ⟨hfront, rfl, hback⟩

/-- A word that closes the brackets on a stack, with balanced words between the closers. -/
def Closes : List Pending → List UInt8 → Prop
  | [], word => Balanced word
  | top :: further, word =>
    ∃ inner rest, word = inner ++ top.bracket.closer :: rest ∧ Balanced inner ∧
      Closes further rest

/-- A balanced group may stand in front. -/
theorem Closes.behind {stack : List Pending} {bracket : Bracket} {inner rest : List UInt8}
    (inside : Balanced inner) (h : Closes stack rest) :
    Closes stack (bracket.opener :: (inner ++ bracket.closer :: rest)) := by
  cases stack with
  | nil => exact Balanced.group inside h
  | cons top further =>
    obtain ⟨before, behind, rfl, hbefore, hfurther⟩ := h
    refine ⟨bracket.opener :: (inner ++ bracket.closer :: before), behind, ?_,
      Balanced.group inside hbefore, hfurther⟩
    simp only [List.cons_append, List.append_assoc]

/-- **If nothing is amiss at the end, what was read closes the stack.** -/
theorem closes_of_clean : ∀ (word : List UInt8) (machine : Machine),
    (∀ verdict ∈ (word.foldl Machine.read machine).finish.log, verdict.clean = true) →
    Closes machine.stack word
  | [], machine, h => by
    cases hstack : machine.stack with
    | nil => exact .nil
    | cons top further =>
      -- the bracket on top would be closed by nothing
      have hin : Verdict.matched
          ⟨top.bracket, top.start, machine.place, further.head?.map Pending.start, false⟩ ∈
            machine.finish.log := by
        rw [← finish_close hstack]
        refine (log_finish [] (machine.close false)).subset ?_
        rw [close_of_stack hstack]
        exact List.mem_append_right _ (List.mem_singleton_self _)
      cases h _ hin
  | b :: word, machine, h => by
    have hrest := closes_of_clean word (machine.read b) h
    cases hopener : ofOpener? b with
    | some bracket =>
      obtain rfl := opener_of_ofOpener? hopener
      rw [read_opener] at hrest
      obtain ⟨inner, rest, rfl, inside, hfurther⟩ := hrest
      exact hfurther.behind inside
    | none =>
      -- a closer closes the bracket on top, or it is a stray, and strays are amiss
      by_cases htop : ∃ top ∈ machine.stack.head?, top.bracket.closer = b
      · obtain ⟨top, htop, rfl⟩ := htop
        obtain ⟨further, hstack⟩ := List.head?_eq_some_iff.mp htop
        have hnext : { machine with place := machine.place + 1 }.stack = top :: further := hstack
        rw [read_closer top further hstack, close_of_stack hnext] at hrest
        rw [hstack]
        exact ⟨[], word, rfl, .nil, hrest⟩
      · have hstray := read_stray hopener fun top htop' heq => htop ⟨top, htop', heq⟩
        have hin : Verdict.stray machine.place ∈
            (word.foldl Machine.read (machine.read b)).finish.log := by
          refine (log_finish word (machine.read b)).subset ?_
          rw [hstray]
          exact List.mem_append_right _ (List.mem_singleton_self _)
        cases h _ hin

/-- **A word is balanced if and only if nothing in its log is amiss.** -/
theorem balanced_iff (word : List UInt8) :
    Balanced word ↔ ∀ verdict ∈ verdicts word, verdict.clean = true := by
  refine ⟨fun h => ?_, closes_of_clean word {}⟩
  obtain ⟨log, hread, hclean⟩ := h.read {}
  rw [verdicts, hread, finish_of_nil rfl]
  exact hclean

end Bracket
end StyleLex
