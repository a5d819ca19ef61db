/-
# What is known where a branch is opened

A reader that opens a branch knows the branch around it, the place and the bytes ahead, and nothing
of that changes later: the branch becomes an item of the one around it and begins where it was
opened.  So whatever holds at each opening holds of every item (`Lexer.items_opened`).  The open
branches of a scan keep it each for the one inside it, until that one is closed
(`View.Opened.step`).

The layout of a scan says where items stand, and its schema which ones stand where; both forget what
the reader saw when it opened a branch.  Here that is kept for a rule given by the caller.  Two uses
are made of it: what stands ahead where a branch begins (`Proofs/Scan/Beginnings`), and which forms
of fragments are found in which branch.

A rule speaks of the branch around as well, so a branch that is complete keeps it until it is an
item, and the item keeps it from then on.
-/
import StyleLex.Proofs.Scan.Adding
import StyleLex.Proofs.Scan.Splitting

namespace StyleLex

/-! ## 1. Rules

The place is given as an offset, since nothing else of a position depends on the source alone. -/

/-- What opening a branch makes sure of: `rule around place branch` says it of the branch, of the
one around it, and of the place where it begins. -/
abbrev OpeningRule := Branch → Nat → Branch → Prop

/-- What a hash gathers is no part of the rule. -/
structure OpeningRule.Steady (rule : OpeningRule) : Prop where
  alike : ∀ {around around' branch branch' : Branch} {place : Nat}, around.Alike around' →
    branch.Alike branch' → rule around place branch → rule around' place branch'

/-- An item that was opened in a branch, if it is one itself. -/
def Item.OpenedIn (rule : OpeningRule) (around : Branch) (item : Item) : Prop :=
  ∀ branch, item.label.kind = .branch branch → rule around item.label.span.start.byte branch

/-- Everything below an item was opened where it is. -/
def Item.Opened (rule : OpeningRule) (item : Item) : Prop :=
  ∀ above ∈ item.subtrees, ∀ around, above.label.kind = .branch around →
    ∀ child ∈ above.children, Item.OpenedIn rule around child

/-- An item that may stand in a branch, as far as the rule is concerned. -/
def Item.Obeys (rule : OpeningRule) (around : Branch) (item : Item) : Prop :=
  Item.OpenedIn rule around item ∧ Item.Opened rule item

variable {rule : OpeningRule}

/-- Where the item ends is no part of the rule. -/
theorem Item.Obeys.endAt {around : Branch} {item : Item} (h : Item.Obeys rule around item)
    (stop : Position) : Item.Obeys rule around (Item.endAt stop item) := by
  obtain ⟨label, below⟩ := item
  exact ⟨h.1, Rose.forall_mem_subtrees.mpr (Rose.forall_mem_subtrees.mp h.2)⟩

/-- Nor is what the branch around has gathered. -/
theorem Item.Obeys.alike {around around' : Branch} {item : Item}
    (h : Item.Obeys rule around item) (steady : rule.Steady) (alike : around.Alike around') :
    Item.Obeys rule around' item :=
  ⟨fun branch hkind => steady.alike alike (.refl _) (h.1 branch hkind), h.2⟩

/-! ## 2. Open branches

A branch that is open has obeyed the rule, though it is no item yet; so the invariant says it of
every two frames that follow each other. -/

namespace Scan

variable {scope : Scope} {dialect : Dialect} {input : List UInt8} {view next : View}
  {start : Draft}

/-- A branch that is open was opened in the one around it. -/
def Frame.OpenedIn (rule : OpeningRule) (inner around : Frame) : Prop :=
  rule around.branch inner.start.byte inner.branch

/-- The open branches, and what is complete in them, were opened as the rule says. -/
structure View.Opened (rule : OpeningRule) (start : Draft) (view : View) : Prop where
  chain : (view.frame :: view.outer).IsChain (Frame.OpenedIn rule)
  frames : List.Forall₂
    (fun branch drafted => ∀ item ∈ drafted.done, Item.Obeys rule branch item)
    ((view.frame :: view.outer).map (·.branch)) (view.draft start).frames
  loose : ∀ item ∈ (view.draft start).loose, Item.Obeys rule view.frame.branch item

/-- A branch is opened as the rule says. -/
def View.Keeps (rule : OpeningRule) (view next : View) : Prop :=
  view.Adds (fun kind => ∀ branch, kind = .branch branch →
    rule view.frame.branch view.position.byte branch) next

namespace View.Opened

/-- The branches further out do not see the pending child completed. -/
theorem outer (h : view.Opened rule start) (stop : Position) :
    List.Forall₂ (fun branch drafted => ∀ item ∈ drafted.done, Item.Obeys rule branch item)
      (view.outer.map (·.branch)) ((view.draft start).settle stop).outer := by
  rw [Draft.outer_settle]
  exact (List.forall₂_cons.mp h.frames).2

/-- The innermost one has a child more, which was opened as the rule says. -/
theorem settle (h : view.Opened rule start) (steady : rule.Steady) {branch : Branch}
    (alike : view.frame.branch.Alike branch) (stop : Position) :
    ∀ item ∈ ((view.draft start).settle stop).frame.done, Item.Obeys rule branch item := by
  intro item hitem
  rw [Draft.done_frame_settle, List.mem_append, List.mem_map] at hitem
  rcases hitem with hitem | ⟨last, hlast, rfl⟩
  · exact ((List.forall₂_cons.mp h.frames).1 item hitem).alike steady alike
  · exact ((h.loose last hlast).endAt stop).alike steady alike

/-- What the innermost branch gathers, and which child it read last, is no part of the rule. -/
theorem chain_alike (h : view.Opened rule start) (steady : rule.Steady) {branch : Branch}
    (alike : view.frame.branch.Alike branch) (pending : Option Kind) :
    (⟨branch, view.frame.start, pending⟩ :: view.outer).IsChain (Frame.OpenedIn rule) := by
  have hchain := h.chain
  cases houter : view.outer with
  | nil => exact .singleton _
  | cons around further =>
    rw [houter, List.isChain_cons_cons] at hchain
    exact List.isChain_cons_cons.mpr ⟨steady.alike (.refl _) alike hchain.1, hchain.2⟩

/-- A branch that closes was opened in the one around it. -/
theorem closing (h : view.Opened rule start) (steady : rule.Steady)
    (hlaid : view.Laid dialect input start) {around : Frame} {further : List Frame}
    (outer : view.outer = around :: further) {branch : Branch} (valid : Bool)
    (alike : view.frame.branch.Alike branch) :
    Item.Obeys rule around.branch
      (Draft.closing branch valid ((view.draft start).settle view.position).frame) := by
  have hchain := h.chain
  rw [outer, List.isChain_cons_cons] at hchain
  have hdone := h.settle steady alike view.position
  refine ⟨fun inner hkind => ?_, Rose.forall_mem_subtrees.mpr ⟨?_, fun child hchild =>
    (hdone child hchild).2⟩⟩
  · cases hkind
    have horigin := hlaid.stacked.fills.origin
    show rule around.branch
      ((view.draft start).settle view.position).frame.origin.span.start.byte branch
    rw [horigin]
    exact steady.alike (.refl _) alike hchain.1
  · intro inner hkind child hchild
    cases hkind
    exact (hdone child hchild).1

/-- **Every step keeps the rule**, if it opens branches as the rule says. -/
theorem step (h : view.Opened rule start) (steady : rule.Steady)
    (hlaid : view.Laid dialect input start) (hstep : Step scope view next)
    (hkeeps : view.Keeps rule next) : next.Opened rule start := by
  -- only opening asks for the rule; a closing hands on what the chain of open branches has kept
  cases hstep with
  | @leaf leaf valid branch n ahead positive alike sound =>
    refine ⟨h.chain_alike steady alike _, ?_, ?_⟩
    · rw [draft_consume, draft_addLeaf]
      exact .cons (h.settle steady alike _) (h.outer _)
    · rw [draft_consume, draft_addLeaf]
      intro item hitem
      obtain rfl := List.mem_singleton.mp hitem
      exact ⟨nofun, Rose.forall_mem_subtrees.mpr ⟨nofun, nofun⟩⟩
  | grow => exact ⟨h.chain, h.frames, h.loose⟩
  | @opened branch ahead proper fits inside begins =>
    have hrule := hkeeps _ _ rfl rfl branch rfl
    refine ⟨?_, ?_, ?_⟩
    · exact List.isChain_cons_cons.mpr ⟨hrule, h.chain_alike steady (.refl _) none⟩
    · rw [draft_consume, draft_openBranch]
      exact .cons nofun (.cons (h.settle steady (.refl _) _) (h.outer _))
    · rw [draft_consume, draft_openBranch]
      nofun
  | @closed branch valid n around further outer alike ends complete =>
    have houter := (List.forall₂_cons.mp h.frames).2
    have hchain := h.chain
    rw [outer] at houter hchain
    cases hdrafted : (view.draft start).outer with
    | nil =>
      rw [hdrafted] at houter
      cases houter
    | cons surround beyond =>
      rw [hdrafted] at houter
      have hdraft := draft_closed hdrafted branch valid around further scope n
      refine ⟨?_, ?_, ?_⟩
      · -- only the child that was read last is another one
        have haround := (List.isChain_cons_cons.mp hchain).2
        cases further with
        | nil => exact .singleton _
        | cons beyond further =>
          rw [List.isChain_cons_cons] at haround
          exact List.isChain_cons_cons.mpr haround
      · rw [hdraft]
        exact houter
      · rw [hdraft]
        intro item hitem
        obtain rfl := List.mem_singleton.mp hitem
        exact h.closing steady hlaid outer valid alike
  | halted => exact ⟨h.chain, h.frames, h.loose⟩

end View.Opened
end Scan

/-! ## 3. Whole scans

Every turn of a scan over a source has the bytes ahead that stand at its place, so the rule may
speak of the source instead of the bytes ahead. -/

namespace Lexer

open Scan

/-- **What holds wherever a branch is opened holds of every item**, the branch around it and the
place where it begins. -/
theorem items_opened (lexer : Lexer) (bytes : Array UInt8) {rule : OpeningRule}
    (steady : rule.Steady)
    (hkeeps : ∀ state : State, state.rest = bytes.toList.drop state.position.byte →
      state.rest ≠ [] → state.view.Keeps rule
        (readNext (lexer.scope { bytes := bytes }) state).view) :
    ∀ item ∈ lexer.items { bytes := bytes }, Item.Obeys rule .root item := by
  have hstart : (initial .root { bytes := bytes }).view.Opened rule (blank { bytes := bytes }) :=
    ⟨.singleton _, .cons nofun .nil, nofun⟩
  obtain ⟨hroot, -, hopened⟩ := lexer.scan_preserves bytes hstart
    (fun state _ ahead hlaid hstep h =>
      h.step steady hlaid hstep (hkeeps state hlaid.rest ahead))
    fun _ _ _ hrest hlaid hstep h => h.step steady hlaid hstep (hstep.adds_of_nil hrest)
  have halike : (lexer.scan .root { bytes := bytes }).frame.branch.Alike .root := by
    rw [hroot]
    exact .refl _
  exact hopened.settle steady halike _

end Lexer
end StyleLex
