/-
# What raw and unexpected leaves are made of

A leaf that grows takes its bytes one by one, each in a turn of the last reader.  The branch it is
in stays the same meanwhile, so every byte of such a leaf is one that this branch leaves to its last
reader, seen with the bytes behind it (`Lexer.items_leave`).  The pending leaf of a scan is taken to
end where the scan is (`View.Leaving`).

What a leaf of raw text may contain is asked of the branch around it: in a string, no quote; in a
comment, no end of the comment.  `Branch.Leaves` says which bytes ahead a branch leaves to its last
reader (`Proofs/Scan/Leftovers`), and here it is carried from turns to leaves.  A byte is looked at
together with the bytes behind it, for some ends are two bytes long.

In a turn the leaf gets one byte, and that byte was left to it.  The bytes that it had before were
left to it in earlier turns, in the same branch.
-/
import StyleLex.Proofs.Scan.Leftovers

namespace StyleLex

/-! ## 1. Items

A leaf that grows is looked at byte by byte, with the branch around it as a parameter; other items
say nothing here. -/

namespace Item

variable {dialect : Dialect} {input : List UInt8} {item : Item}

/-- The bytes of a leaf that grows were left to it by the branch around it. -/
def Left (dialect : Dialect) (input : List UInt8) (around : Branch) (item : Item) : Prop :=
  item.label.kind.grows = true → ∀ i, item.label.span.start.byte ≤ i →
    i < item.label.span.stop.byte → around.Leaves dialect (input.drop i)

/-- So it is everywhere below an item. -/
def LeftBelow (dialect : Dialect) (input : List UInt8) (item : Item) : Prop :=
  ∀ above ∈ item.subtrees, ∀ branch, above.label.kind = .branch branch →
    ∀ child ∈ above.children, Left dialect input branch child

/-- An item that may stand in a branch, as far as its bytes are concerned. -/
def LeftIn (dialect : Dialect) (input : List UInt8) (around : Branch) (item : Item) : Prop :=
  Left dialect input around item ∧ LeftBelow dialect input item

/-- What a hash has gathered does not matter. -/
theorem LeftIn.alike {around other : Branch} (h : LeftIn dialect input around item)
    (alike : around.Alike other) : LeftIn dialect input other item :=
  ⟨fun hgrows i hstart hstop => alike.leaves (h.1 hgrows i hstart hstop), h.2⟩

/-- A branch does not grow, and what is below it is below it still where it ends elsewhere. -/
theorem leftBelow_iff : LeftBelow dialect input item ↔
    (∀ branch, item.label.kind = .branch branch →
      ∀ child ∈ item.children, Left dialect input branch child) ∧
      ∀ child ∈ item.children, LeftBelow dialect input child :=
  Rose.forall_mem_subtrees

/-- Where an item ends does not matter for what is below it. -/
theorem leftBelow_endAt (stop : Position) :
    LeftBelow dialect input (Item.endAt stop item) ↔ LeftBelow dialect input item := by
  rw [leftBelow_iff, leftBelow_iff, kind_label_endAt, children_endAt]

end Item

/-! ## 2. Open branches

While a leaf is pending it covers the bytes up to the scan. -/

namespace Scan

variable {scope : Scope} {dialect : Dialect} {input : List UInt8} {view next : View}
  {start : Draft}

/-- What is complete in an open branch has the bytes that the branch left to it, and so has the
child read last, if it ends here. -/
structure View.Leaving (dialect : Dialect) (input : List UInt8) (start : Draft) (view : View) :
    Prop where
  frames : List.Forall₂
    (fun branch drafted => ∀ item ∈ drafted.done, Item.LeftIn dialect input branch item)
    ((view.frame :: view.outer).map (·.branch)) (view.draft start).frames
  loose : ∀ item ∈ (view.draft start).loose,
    Item.LeftIn dialect input view.frame.branch (Item.endAt view.position item)

namespace View.Leaving

/-- Completing the pending child leaves the branches further out alone. -/
theorem outer (h : view.Leaving dialect input start) (stop : Position) :
    List.Forall₂
      (fun branch drafted => ∀ item ∈ drafted.done, Item.LeftIn dialect input branch item)
      (view.outer.map (·.branch)) ((view.draft start).settle stop).outer := by
  rw [Draft.outer_settle]
  exact (List.forall₂_cons.mp h.frames).2

/-- It makes it a child of the innermost branch. -/
theorem settle (h : view.Leaving dialect input start) {branch : Branch}
    (alike : view.frame.branch.Alike branch) :
    ∀ item ∈ ((view.draft start).settle view.position).frame.done,
      Item.LeftIn dialect input branch item := by
  intro item hitem
  rw [Draft.done_frame_settle, List.mem_append, List.mem_map] at hitem
  rcases hitem with hitem | ⟨last, hlast, rfl⟩
  · exact ((List.forall₂_cons.mp h.frames).1 item hitem).alike alike
  · exact (h.loose last hlast).alike alike

/-- What a turn takes into a leaf that grows is one byte that was left to it. -/
theorem left_of_turn (hlaid : view.Laid dialect input start) (after : View) {n : Nat}
    (hnext : (view.consume scope n).position = after.position)
    (hrest : after.rest = (view.consume scope n).rest)
    (hleaves : view.Leaves dialect after) (hgrows : after.frame.pending.any Kind.grows = true)
    (i : Nat) (hstart : view.position.byte ≤ i) (hstop : i < after.position.byte) :
    view.frame.branch.Leaves dialect (input.drop i) := by
  cases hnarrow : view.frame.branch.isNarrow with
  | true => exact Branch.leaves_of_isNarrow hnarrow _
  | false =>
    obtain ⟨hleft, hone⟩ := hleaves hnarrow hgrows
    obtain ⟨-, hmoved, -⟩ := hlaid.consumed scope n
    have hlength : (view.rest.drop n).length = (view.rest.drop 1).length :=
      congrArg List.length (hrest.symm.trans hone)
    rw [List.length_drop, List.length_drop] at hlength
    obtain rfl : i = view.position.byte := by
      rw [← hnext, hmoved] at hstop
      omega
    rw [← hlaid.rest]
    exact hleft

/-- **Every step keeps the bytes of leaves**, if the turn takes what was left to it. -/
theorem step (h : view.Leaving dialect input start) (hlaid : view.Laid dialect input start)
    (hstep : Step scope view next) (hleaves : view.Leaves dialect next) :
    next.Leaving dialect input start := by
  cases hstep with
  | @leaf leaf valid branch n ahead positive alike sound =>
    refine ⟨?_, ?_⟩
    · rw [draft_consume, draft_addLeaf]
      exact .cons (h.settle alike) (h.outer _)
    · rw [draft_consume, draft_addLeaf]
      intro item hitem
      obtain rfl := List.mem_singleton.mp hitem
      refine ⟨fun hgrows i hstart hstop => alike.leaves ?_, Item.leftBelow_iff.mpr ⟨nofun, nofun⟩⟩
      exact left_of_turn hlaid ((view.addLeaf leaf valid branch).consume scope n) rfl rfl hleaves
        hgrows i hstart hstop
  | @grow ahead run =>
    refine ⟨h.frames, fun item hitem => ?_⟩
    rw [draft_consume] at hitem
    obtain ⟨hleft, hbelow⟩ := h.loose item hitem
    refine ⟨fun hgrows i hstart hstop => ?_, ?_⟩
    · obtain ⟨⟨id, kind, valid, span⟩, below⟩ := item
      -- a byte from before, or the one that this turn takes
      by_cases hi : i < view.position.byte
      · exact hleft hgrows i hstart hi
      · have hpending : view.frame.pending.any Kind.grows = true := by
          rcases run with hrun | hrun <;>
          · rw [hrun]
            rfl
        exact left_of_turn hlaid _ rfl rfl hleaves hpending i (Nat.le_of_not_lt hi) hstop
    · rw [Item.leftBelow_endAt] at hbelow ⊢
      exact hbelow
  | @opened branch ahead proper fits inside begins =>
    refine ⟨?_, ?_⟩
    · rw [draft_consume, draft_openBranch]
      exact .cons nofun (.cons (h.settle (.refl _)) (h.outer _))
    · rw [draft_consume, draft_openBranch]
      nofun
  | @closed branch valid n around further outer alike ends complete =>
    have houter := (List.forall₂_cons.mp h.frames).2
    rw [outer] at houter
    cases hdrafted : (view.draft start).outer with
    | nil =>
      rw [hdrafted] at houter
      cases houter
    | cons surround beyond =>
      rw [hdrafted] at houter
      have hdraft := draft_closed hdrafted branch valid around further scope n
      refine ⟨?_, ?_⟩
      · rw [hdraft]
        exact houter
      · rw [hdraft]
        intro item hitem
        obtain rfl := List.mem_singleton.mp hitem
        have hdone := h.settle alike
        refine ⟨nofun, Item.leftBelow_iff.mpr ⟨?_, fun child hchild => (hdone child hchild).2⟩⟩
        rintro _ ⟨⟩ child hchild
        exact (hdone child hchild).1
  | halted => exact ⟨h.frames, h.loose⟩

end View.Leaving
end Scan

/-! ## 3. Whole scans -/

namespace Lexer

open Scan

/-- **The bytes of every leaf that grows were left to it by the branch around it.** -/
theorem items_leave (lexer : Lexer) (bytes : Array UInt8) :
    ∀ item ∈ lexer.items { bytes := bytes },
      Item.LeftIn lexer.dialect bytes.toList .root item := by
  have hstart : (initial .root { bytes := bytes }).view.Leaving lexer.dialect bytes.toList
      (blank { bytes := bytes }) := ⟨.cons nofun .nil, nofun⟩
  obtain ⟨hroot, -, hleaving⟩ := lexer.scan_preserves bytes hstart
    (fun _ _ _ hlaid hstep h => h.step hlaid hstep
      (readNext_leaves _ fun hroot houter => hroot (hlaid.eq_root houter)))
    fun _ _ _ hrest hlaid hstep h => h.step hlaid hstep (hstep.leaves_of_nil hrest)
  have halike : (lexer.scan .root { bytes := bytes }).frame.branch.Alike .root := by
    rw [hroot]
    exact .refl _
  exact hleaving.settle halike

end Lexer
end StyleLex
