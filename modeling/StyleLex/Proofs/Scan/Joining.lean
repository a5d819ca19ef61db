/-
# Leaves that grow do not follow each other

While a leaf that grows is pending, a reader that takes more of its kind lets it grow, and begins no
other one (`readNext_joins`).  So below every branch no two such leaves of one kind stand side by
side, but in names, where raw text is read in whole runs (`Lexer.items_parted`).  Only the kinds in
the open branches matter, with the child read last (`View.Parted`).

Raw text and unexpected bytes are taken byte by byte, so whether two bytes are one leaf is decided
by the turn that takes the second one.  It lets the pending leaf grow if that is of the right kind,
and otherwise begins a leaf; so if it begins one, the child before is of another kind.

For this the kind of the child that was read last has to be known, and it is the last entry of the
kinds that are complete if the pending child is taken to be complete.
-/
import StyleLex.Proofs.Scan.Leftovers

namespace StyleLex

/-! ## 1. Kinds side by side

Only the kinds of the children matter, in their order. -/

/-- Kinds of which no two of one leaf that grows stand side by side. -/
def Kind.Parted (kinds : List Kind) : Prop :=
  kinds.IsChain fun before behind => before.grows = true → behind ≠ before

/-- One kind more at the end has to differ from the last one, if that grows. -/
theorem Kind.parted_concat {kinds : List Kind} {kind : Kind} (h : Parted kinds)
    (hlast : ∀ last ∈ kinds.getLast?, last.grows = true → kind ≠ last) :
    Parted (kinds ++ [kind]) := by
  refine List.isChain_append.mpr ⟨h, List.isChain_singleton _, fun last hmem behind hbehind => ?_⟩
  obtain rfl := Option.mem_some.mp hbehind
  exact hlast last hmem

namespace Item

/-- Below an item no two leaves stand side by side that would have been one. -/
def Parted (item : Item) : Prop :=
  ∀ above ∈ item.subtrees, ∀ branch, above.label.kind = .branch branch →
    branch.isNarrow = false → Kind.Parted (above.children.map (·.label.kind))

/-- It is enough to look at the children of an item, and below each of them. -/
theorem parted_iff {item : Item} : Parted item ↔
    (∀ branch, item.label.kind = .branch branch → branch.isNarrow = false →
      Kind.Parted (item.children.map (·.label.kind))) ∧ ∀ child ∈ item.children, Parted child :=
  Rose.forall_mem_subtrees

/-- Where an item ends does not matter. -/
theorem parted_endAt {item : Item} (stop : Position) :
    Parted (Item.endAt stop item) ↔ Parted item := by
  rw [parted_iff, parted_iff, kind_label_endAt, children_endAt]

end Item

/-! ## 2. Turns

The turns in question are those of the last reader of a context.  In names raw text is read in whole
runs instead, and in fragments no raw text is read. -/

namespace Scan

variable {scope : Scope} {state : State} {dialect : Dialect} {input : List UInt8}
  {view next : View} {start : Draft}

/-- If the leaf that is pending behind a turn grows and is of the kind that was pending before, the
turn did not begin it. -/
def View.Joins (view next : View) : Prop :=
  view.frame.branch.isNarrow = false → next.frame.pending.any Kind.grows = true →
    next.frame.pending = view.frame.pending → next.marks = view.marks

/-- **What is of the kind of a leaf that grows joins it.** -/
theorem readNext_joins (scope : Scope) (state : State) :
    state.view.Joins (readNext scope state).view := by
  intro hwide
  obtain ⟨front, last, hreaders, hlast, hsettles⟩ := readersOf_resorts scope hwide
  refine readNext_of_last (P := fun after => after.frame.pending.any Kind.grows = true →
      after.frame.pending = state.frame.pending → after.marks = state.marks) hreaders
    (fun reader hin after hread hgrows => ?_) fun _ => ?_
  · rw [hsettles reader hin after hread] at hgrows
    cases hgrows
  · obtain ⟨after, hread, -, hjoins⟩ := last_one scope state hlast
    exact ⟨after, hread, fun _ => hjoins⟩

/-- At the end of the input no leaf is begun. -/
theorem Step.joins_of_nil (h : Step scope view next) (hrest : view.rest = []) :
    view.Joins next := by
  intro _ hgrows _
  cases h with
  | leaf ahead => exact absurd hrest ahead
  | grow => rfl
  | opened ahead => exact absurd hrest ahead
  | closed => cases hgrows
  | halted => rfl

/-! ## 3. Open branches

The branches that are open are kept apart one by one; the innermost one with the pending child, as
if it were complete. -/

/-- What is complete in an open branch, kind by kind and below. -/
structure Apart (branch : Branch) (drafted : Draft.Frame) : Prop where
  done : branch.isNarrow = false → Kind.Parted (drafted.done.map (·.label.kind))
  below : ∀ item ∈ drafted.done, item.Parted

/-- One more child keeps a branch apart, if it is no leaf that would have joined the last one. -/
theorem Apart.concat {branch other : Branch} {drafted : Draft.Frame} (h : Apart branch drafted)
    (alike : branch.Alike other) {item : Item} (hitem : item.Parted)
    (hlast : branch.isNarrow = false → ∀ last ∈ (drafted.done.map (·.label.kind)).getLast?,
      last.grows = true → item.label.kind ≠ last) :
    Apart other { drafted with done := drafted.done ++ [item] } := by
  refine ⟨fun hwide => ?_, fun child hchild => ?_⟩
  · have hwide := alike.isNarrow_eq.trans hwide
    rw [List.map_append, List.map_singleton]
    exact Kind.parted_concat (h.done hwide) (hlast hwide)
  · rcases List.mem_append.mp hchild with hchild | hchild
    · exact h.below child hchild
    · exact List.mem_singleton.mp hchild ▸ hitem

/-- Where the child read last ends is no matter. -/
theorem Apart.settle {branch : Branch} {draft : Draft} {stop : Position}
    (h : Apart branch (draft.settle stop).frame) (other : Position) :
    Apart branch (draft.settle other).frame := by
  have hkinds : ∀ stop, (draft.settle stop).frame.done.map (·.label.kind) =
      (draft.frame.done ++ draft.loose).map (·.label.kind) := by
    intro stop
    rw [Draft.done_frame_settle, List.map_append, List.map_append, List.map_map]
    refine congrArg (_ ++ ·) (List.map_congr_left fun item _ => ?_)
    exact Item.kind_label_endAt stop item
  have hbelow : ∀ stop, (∀ item ∈ (draft.settle stop).frame.done, item.Parted) ↔
      ∀ item ∈ draft.frame.done ++ draft.loose, item.Parted := by
    intro stop
    rw [Draft.done_frame_settle, List.forall_mem_append, List.forall_mem_append,
      List.forall_mem_map]
    simp only [Item.parted_endAt]
  exact ⟨fun hwide => (hkinds other).trans (hkinds stop).symm ▸ h.done hwide,
    (hbelow other).mpr ((hbelow stop).mp h.below)⟩

/-- The open branches, each with what is complete in it; the child read last is taken to end
here. -/
def View.Parted (start : Draft) (view : View) : Prop :=
  List.Forall₂ Apart ((view.frame :: view.outer).map (·.branch))
    ((view.draft start).settle view.position).frames

namespace View.Parted

/-- **Every step keeps them apart**, if what is of the kind of a leaf that grows joins it. -/
theorem step (h : view.Parted start) (hlaid : view.Laid dialect input start)
    (hstep : Step scope view next) (hjoins : view.Joins next) : next.Parted start := by
  obtain ⟨hhere, houter⟩ := List.forall₂_cons.mp h
  cases hstep with
  | @leaf leaf valid branch n ahead positive alike sound =>
    unfold View.Parted
    rw [draft_consume, draft_addLeaf, Draft.frames_settle]
    refine .cons (hhere.concat alike (Item.parted_iff.mpr ⟨nofun, nofun⟩) ?_) houter
    rintro hwide _ hlast hgrows rfl
    -- the last child is the one that was pending
    rw [List.getLast?_map, ← hlaid.last] at hlast
    exact List.cons_ne_self _ _ (hjoins hwide hgrows hlast.symm)
  | grow => exact .cons (hhere.settle _) (by rwa [Draft.outer_settle] at houter ⊢)
  | @opened branch ahead proper fits inside begins =>
    unfold View.Parted
    rw [draft_consume, draft_openBranch]
    exact .cons ⟨fun _ => .nil, nofun⟩ (.cons hhere houter)
  | @closed branch valid n around further outer alike ends complete =>
    rw [outer] at houter
    cases hdrafted : (view.draft start).outer with
    | nil =>
      rw [Draft.outer_settle, hdrafted] at houter
      cases houter
    | cons surround beyond =>
      rw [Draft.outer_settle, hdrafted] at houter
      obtain ⟨haround, hfurther⟩ := List.forall₂_cons.mp houter
      have hdraft := draft_closed hdrafted branch valid around further scope n
      unfold View.Parted
      rw [hdraft, Draft.frames_settle]
      refine .cons (haround.concat (.refl _) ?_ ?_) hfurther
      · rw [Item.parted_endAt]
        refine Item.parted_iff.mpr ⟨?_, hhere.below⟩
        rintro _ ⟨⟩ hwide
        exact hhere.done (alike.isNarrow_eq.trans hwide)
      · rintro - last - hgrows rfl
        cases hgrows
  | halted => exact h

end View.Parted
end Scan

/-! ## 4. Whole scans

The root is a branch as well, so its items are said separately. -/

namespace Lexer

open Scan

/-- **No two leaves of a source stand side by side that would have been one.** -/
theorem items_parted (lexer : Lexer) (bytes : Array UInt8) :
    Kind.Parted ((lexer.items { bytes := bytes }).map (·.label.kind)) ∧
      ∀ item ∈ lexer.items { bytes := bytes }, item.Parted := by
  have hstart : (initial .root { bytes := bytes }).view.Parted (blank { bytes := bytes }) :=
    .cons ⟨fun _ => .nil, nofun⟩ .nil
  obtain ⟨hroot, -, hparted⟩ := lexer.scan_preserves bytes hstart
    (fun state _ _ hlaid hstep h => h.step hlaid hstep (readNext_joins _ state))
    fun _ _ _ hrest hlaid hstep h => h.step hlaid hstep (hstep.joins_of_nil hrest)
  have hitems : Apart (lexer.scan .root { bytes := bytes }).frame.branch _ :=
    (List.forall₂_cons.mp hparted).1
  rw [hroot] at hitems
  exact ⟨hitems.done rfl, hitems.below⟩

end Lexer
end StyleLex
