/-
# The child that is read first

A branch that the first turn of a scan opens is the first child of the root (`Lexer.exists_first`).
As long as it is open it is the one right inside the root, for branches close from the inside out,
and the root has no other child yet; from then on the children of the root come behind it
(`View.Heads`).

A part of a source is read by itself to see which item it is.  For a leaf this is decided by the
first turn; a branch is decided by it too, but it is not complete before the scan has read all that
is inside.  This module follows the branch until then.  It is in one of three states: open, read
last and still pending, or complete with others behind it; no step leads back.

Only the kind of the branch is followed and not its flag or its end, which are known from the
layout.
-/
import StyleLex.Proofs.Scan.Splitting

namespace StyleLex

/-- An item that a branch became; only a hash gathers anything meanwhile. -/
def Item.CameOf (branch : Branch) (item : Item) : Prop :=
  ∃ own, item.label.kind = .branch own ∧ branch.Alike own

/-- Where the item ends does not matter for that. -/
theorem Item.CameOf.endAt {branch : Branch} {item : Item} (h : item.CameOf branch)
    (stop : Position) : (Item.endAt stop item).CameOf branch := by
  obtain ⟨own, hkind, halike⟩ := h
  exact ⟨own, (Item.kind_label_endAt stop item).trans hkind, halike⟩

namespace Scan

variable {scope : Scope} {view next : View} {branch : Branch} {start : Draft}

/-! ## 1. The branch right inside the root

`Enclosed` finds the branch in the stack by its place, the last but one, and not by how many
branches are open inside it. -/

/-- The open branches, of which the outermost but one is the branch. -/
def Enclosed (branch : Branch) (frames : List Frame) : Prop :=
  ∃ inner opened root, frames = inner ++ [opened, root] ∧ branch.Alike opened.branch

namespace Enclosed

variable {frame changed : Frame} {outer : List Frame}

/-- Something is open inside the root. -/
theorem outer_ne_nil (h : Enclosed branch (frame :: outer)) : outer ≠ [] := by
  obtain ⟨inner, opened, root, hstack, -⟩ := h
  rintro rfl
  have hlength := congrArg List.length hstack
  simp at hlength

/-- Another branch inside leaves the branch in its place. -/
theorem cons (h : Enclosed branch outer) (frame : Frame) : Enclosed branch (frame :: outer) := by
  obtain ⟨inner, opened, root, rfl, halike⟩ := h
  exact ⟨frame :: inner, opened, root, rfl, halike⟩

/-- It stays the same branch, whatever the innermost one gathers. -/
theorem change (h : Enclosed branch (frame :: outer))
    (halike : frame.branch.Alike changed.branch) : Enclosed branch (changed :: outer) := by
  obtain ⟨inner, opened, root, hstack, hopened⟩ := h
  cases inner with
  | nil =>
    obtain ⟨rfl, rfl⟩ := List.cons.inj hstack
    exact ⟨[], changed, root, rfl, hopened.trans halike⟩
  | cons first inner =>
    obtain ⟨-, rfl⟩ := List.cons.inj hstack
    exact ⟨changed :: inner, opened, root, rfl, hopened⟩

/-- The innermost branch is it, or a branch inside it. -/
theorem inside (h : Enclosed branch (frame :: outer)) :
    (branch.Alike frame.branch ∧ ∃ root, outer = [root]) ∨ Enclosed branch outer := by
  obtain ⟨inner, opened, root, hstack, hopened⟩ := h
  cases inner with
  | nil =>
    obtain ⟨rfl, rfl⟩ := List.cons.inj hstack
    exact Or.inl ⟨hopened, root, rfl⟩
  | cons first inner =>
    obtain ⟨-, rfl⟩ := List.cons.inj hstack
    exact Or.inr ⟨inner, opened, root, rfl, hopened⟩

end Enclosed

/-! ## 2. What is read of the root

The items of the root are those of the draft's base, and the pending one is not among them yet.  So
there are three cases, and a mark that is made in the root leads from the second to the third. -/

/-- The branch is the first child of the root: it is open, it was read last, or other children came
behind it. -/
inductive View.Heads (branch : Branch) (start : Draft) (view : View) : Prop where
  | inside (enclosed : Enclosed branch (view.frame :: view.outer))
      (alone : (view.draft start).base.done = [])
  | behind {item : Item} (outer : view.outer = []) (loose : (view.draft start).loose = [item])
      (alone : (view.draft start).base.done = []) (came : item.CameOf branch)
  | complete {item : Item} {further : List Item}
      (done : (view.draft start).base.done = item :: further) (came : item.CameOf branch)

/-- In the root, a mark adds the child that was read last. -/
theorem Step.base_concat (h : Step scope view next) (hpaced : Paced start view)
    (houter : view.outer = []) (hmark : next.marks ≠ view.marks) :
    (next.draft start).base.done = (view.draft start).base.done ++
      (view.draft start).loose.map (Item.endAt view.position) := by
  have hdraft : (view.draft start).outer = [] :=
    List.length_eq_zero_iff.mp (hpaced.depth.trans (congrArg List.length houter))
  rw [(h.base_of_mark hpaced houter hmark).2, Draft.done_frame_settle, Draft.base_of_outer hdraft]

/-- Every step inside the branch stays inside it, or closes it. -/
theorem Enclosed.step (h : Enclosed branch (view.frame :: view.outer)) (hpaced : Paced start view)
    (halone : (view.draft start).base.done = []) (hstep : Step scope view next) :
    next.Heads branch start := by
  have halone : (next.draft start).base.done = [] := by
    rcases hstep.base hpaced with hsame | ⟨houter, -⟩
    · exact hsame.trans halone
    · exact absurd houter h.outer_ne_nil
  cases hstep with
  | leaf ahead positive alike => exact .inside (h.change alike) halone
  | grow => exact .inside h halone
  | opened =>
    have hopened : Enclosed branch ({ view.frame with pending := none } :: view.outer) :=
      h.change (.refl _)
    exact .inside (hopened.cons _) halone
  | @closed own valid n around further outer alike =>
    rw [outer] at h
    rcases h.inside with ⟨hown, root, hroot⟩ | hinside
    · obtain ⟨rfl, rfl⟩ := List.cons.inj hroot
      have hdepth : (view.draft start).outer.length = 1 := by
        rw [hpaced.depth, outer]
        rfl
      obtain ⟨surround, hsurround⟩ := List.length_eq_one_iff.mp hdepth
      have hloose : (((view.closeBranch own valid around []).consume scope n).draft start).loose =
          [Draft.closing own valid ((view.draft start).settle view.position).frame] := by
        rw [draft_closed hsurround]
        rfl
      exact .behind rfl hloose halone ⟨own, rfl, hown.trans alike⟩
    · exact .inside (hinside.change (.refl _)) halone
  | halted name outer => exact absurd outer h.outer_ne_nil

/-- **Every step leaves it the first child.** -/
theorem View.Heads.step (h : view.Heads branch start) (hpaced : Paced start view)
    (hstep : Step scope view next) : next.Heads branch start := by
  cases h with
  | inside enclosed alone => exact enclosed.step hpaced alone hstep
  | @behind item outer loose alone came =>
    have hmarked : next.marks ≠ view.marks → next.Heads branch start := by
      intro hmark
      have hdone : (next.draft start).base.done = [Item.endAt view.position item] := by
        rw [hstep.base_concat hpaced outer hmark, alone, loose]
        rfl
      exact .complete hdone (came.endAt view.position)
    cases hstep with
    | leaf => exact hmarked (List.cons_ne_self _ _)
    | grow => exact .behind outer loose alone came
    | opened => exact hmarked (List.cons_ne_self _ _)
    | closed around => cases outer.symm.trans around
    | halted => exact .behind outer loose alone came
  | @complete item further done came =>
    rcases hstep.base hpaced with hsame | ⟨outer, hmark⟩
    · exact .complete (hsame.trans done) came
    · have hmore : (next.draft start).base.done =
          item :: (further ++ (view.draft start).loose.map (Item.endAt view.position)) := by
        rw [hstep.base_concat hpaced outer hmark, done, List.cons_append]
      exact .complete hmore came

/-! ## 3. Whole scans

The first turn is a hypothesis here: whoever uses the result has shown that this source begins with
a branch of this kind. -/

/-- A scan of a source that has read nothing yet. -/
structure View.Unread (bytes : Array UInt8) (view : View) : Prop where
  outer : view.outer = []
  root : view.frame.branch = .root
  marks : view.marks = []
  rest : view.rest = bytes.toList
  place : view.position.byte = 0

/-- The branch that is opened then heads the root. -/
theorem View.Unread.heads_enter {state : State} {bytes : Array UInt8}
    (h : state.view.Unread bytes) (branch : Branch) (n : Nat) :
    (state.enter scope branch n).view.Heads branch (Lexer.blank { bytes := bytes }) := by
  have hframes : (state.enter scope branch n).view.frame ::
      (state.enter scope branch n).view.outer =
        [] ++ [⟨branch, state.position, none⟩, { state.frame with pending := none }] :=
    congrArg (_ :: { state.frame with pending := none } :: ·) h.outer
  have hdraft : (state.enter scope branch n).view.draft (Lexer.blank { bytes := bytes }) =
      (Lexer.blank { bytes := bytes }).take (.opened branch state.position) := by
    refine (draft_openBranch branch state.view _).trans ?_
    rw [View.draft, h.marks]
    rfl
  refine .inside ⟨[], _, _, hframes, .refl branch⟩ ?_
  rw [hdraft]
  rfl

end Scan

open Scan

variable {lexer : Lexer} {bytes : Array UInt8} {branch : Branch} {n : Nat}

/-- **A branch that the first turn opens is the first item.** -/
theorem Lexer.exists_first (hne : bytes.toList ≠ [])
    (hopens : ∀ state : State, state.frame.branch = .root → state.rest = bytes.toList →
      readNext (lexer.scope { bytes := bytes }) state =
        state.enter (lexer.scope { bytes := bytes }) branch n) :
    ∃ item further, lexer.items { bytes := bytes } = item :: further ∧ item.CameOf branch := by
  have hstart : (initial .root { bytes := bytes }).view.Unread bytes :=
    ⟨rfl, rfl, rfl, Source.range_all bytes, rfl⟩
  obtain ⟨-, -, hpaced, hheads⟩ := lexer.scan_preserves bytes
    (P := fun view => Paced (blank { bytes := bytes }) view ∧
      (view.Unread bytes ∨ view.Heads branch (blank { bytes := bytes })))
    ⟨⟨trivial, rfl⟩, Or.inl hstart⟩
    (fun state _ _ _ hstep h => ⟨h.1.step hstep, Or.inr <| h.2.elim
      (fun hunread => hopens state hunread.root hunread.rest ▸ hunread.heads_enter branch n)
      fun hheads => hheads.step h.1 hstep⟩)
    (fun before after _ hrest _ hstep h => ⟨h.1.step hstep, Or.inr <| h.2.elim
      (fun hunread => absurd (hunread.rest.symm.trans hrest) hne)
      fun hheads => hheads.step h.1 hstep⟩)
  have hdrafted :
      ((lexer.scan .root { bytes := bytes }).view.draft (blank { bytes := bytes })).outer = [] :=
    (lexer.scan_admits .root { bytes := bytes } rfl).2
  have hitems : lexer.items { bytes := bytes } =
      ((lexer.scan .root { bytes := bytes }).view.draft (blank { bytes := bytes })).base.done ++
        ((lexer.scan .root { bytes := bytes }).view.draft (blank { bytes := bytes })).loose.map
          (Item.endAt (lexer.scan .root { bytes := bytes }).position) := by
    rw [Draft.base_of_outer hdrafted]
    exact Draft.done_frame_settle _ _
  rcases hheads with hunread | hheads
  · obtain ⟨-, hplace, -⟩ := lexer.scan_laid { bytes := bytes } rfl (blank { bytes := bytes })
      rfl rfl rfl rfl
    rw [Source.range_all] at hplace
    exact absurd (List.length_eq_zero_iff.mp (hplace.symm.trans hunread.place)) hne
  · cases hheads with
    | inside enclosed =>
      have hdepth := hpaced.depth
      rw [hdrafted] at hdepth
      exact absurd (List.length_eq_zero_iff.mp hdepth.symm) enclosed.outer_ne_nil
    | @behind item outer loose alone came =>
      rw [alone, loose] at hitems
      exact ⟨_, [], hitems, came.endAt _⟩
    | @complete item further done came =>
      rw [done] at hitems
      exact ⟨item, _, hitems, came⟩

end StyleLex
