/-
# Sources that are one node

Where a source has one item, the root has one child, which shows the item from the first byte to
the last (`Lexer.sole_shown`).

There are two ways to one item.  A source that the first turn takes to its end, as one leaf, has
that leaf for its item (`Lexer.items_of_leaf`).  And where the first turn opens an identifier and
every turn inside it takes a leaf, the item is the identifier with these leaves
(`Lexer.items_of_identifier`); what is known of the leaves so far and the bytes ahead is carried
from turn to turn (`View.Sole`).

This is the common part of three theorems that read something back from its text: numerals, names in
any spelling, and escapes in braces.  What is different about them is how the leaves of the
identifier are described and what is ahead, and this is the parameter `P` here.  It is asked for
three things: that it holds before anything was read, that a turn keeps it, and at the end that it
says what the leaves are.
-/
import StyleLex.Proofs.Scan.Splitting
import StyleLex.Proofs.Tiling

namespace StyleLex
namespace Lexer

open Scan

/-! ## 1. One child

From items to nodes, for the root and its only child. -/

variable {lexer : Lexer} {bytes : Array UInt8}

/-- **The node of the only item is the only child of the root**, and spans the source. -/
theorem sole_shown {item : Item} (hitems : lexer.items { bytes := bytes } = [item]) :
    ∃ node, (lexer.tokenizeBytes bytes).tree.children Tree.root = #[item.label.id] ∧
      (lexer.tokenizeBytes bytes).tree.node? item.label.id = some node ∧
      Tree.Shows bytes item node ∧ node.span.start.byte = 0 ∧ node.span.stop.byte = bytes.size ∧
      ∀ child ∈ item.children,
        (lexer.tokenizeBytes bytes).tree.Holds bytes (some item.label.id) child := by
  have hshown := lexer.tokenizeBytes_shown bytes
  rw [hitems] at hshown
  obtain ⟨root, hroot, -, -, -, -, hchildren⟩ := hshown.root
  have hheld := hshown.held item (List.mem_singleton_self item)
  obtain ⟨node, hnode, hshows⟩ := hheld.shows
  obtain ⟨hstart, hstop⟩ := hshown.abut
  refine ⟨node, ?_, hnode, hshows, ?_, ?_, (Tree.holds_iff.mp hheld).2⟩
  · rw [Tree.children, hroot, Option.map_some, Option.getD_some, hchildren]
    rfl
  · rw [hshows.span]
    exact hstart
  · rw [hshows.span]
    exact hstop

/-! ## 2. One leaf

With one turn there is no loop to reason about: the scan is finished behind it. -/

/-- **A leaf that is taken to the end is the only item.** -/
theorem items_of_leaf {leaf : Leaf} {n : Nat} (hbytes : bytes.toList ≠ [])
    (hn : bytes.toList.length ≤ n)
    (hread : readNext (lexer.scope { bytes := bytes }) (initial .root { bytes := bytes }) =
      (initial .root { bytes := bytes }).takeLeaf (lexer.scope { bytes := bytes }) leaf n) :
    ∃ item : Item, lexer.items { bytes := bytes } = [item] ∧ item.label.kind = .leaf leaf ∧
      item.label.valid = true := by
  have hrest : (initial .root { bytes := bytes }).rest = bytes.toList := Source.range_all bytes
  have hrunning : (initial .root { bytes := bytes }).finished = false :=
    running_iff.mpr ⟨by rwa [hrest], rfl⟩
  have hone : steps (lexer.scope { bytes := bytes }) 1 (initial .root { bytes := bytes }) =
      (initial .root { bytes := bytes }).takeLeaf (lexer.scope { bytes := bytes }) leaf n := by
    rw [steps_of_running _ _ hrunning, hread, steps]
  have hdone : ((initial .root { bytes := bytes }).takeLeaf
      (lexer.scope { bytes := bytes }) leaf n).finished = true :=
    finished_iff.mpr (Or.inl (List.drop_eq_nil_of_le (hrest ▸ hn)))
  have hscan : lexer.scan .root { bytes := bytes } =
      (initial .root { bytes := bytes }).takeLeaf (lexer.scope { bytes := bytes }) leaf n := by
    rw [scan_eq, run_eq (n := 1) (initial_fresh .root _) (by rw [hone, hdone]), hone]
    rfl
  refine ⟨.node ⟨1, .leaf leaf, true,
    ⟨Position.origin, (lexer.scan .root { bytes := bytes }).position⟩⟩ [], ?_, rfl, rfl⟩
  rw [items, draft, hscan]
  rfl

end Lexer

/-! ## 3. One identifier

Here the loop runs as long as there are leaves, so there is an invariant with three phases. -/

namespace Scan

/-- A scan of one identifier: before it, inside it, or behind it.  `P` holds of the children so far
and the bytes ahead. -/
inductive View.Sole (bytes : Array UInt8) (start : Draft) (P : List Item → List UInt8 → Prop)
    (view : View) : Prop where
  | before (root : view.frame.branch = .root) (outer : view.outer = []) (marks : view.marks = [])
      (running : view.halted = false) (whole : view.rest = bytes.toList)
  | inside {around : Frame} {surround : Draft.Frame}
      (branch : view.frame.branch = .identifier "") (outer : view.outer = [around])
      (gathered : P ((view.draft start).settle view.position).frame.done view.rest)
      (drafted : (view.draft start).outer = [surround]) (alone : surround.done = [])
  | behind {item : Item} (outer : view.outer = []) (rest : view.rest = [])
      (loose : (view.draft start).loose = [item]) (alone : (view.draft start).frame.done = [])
      (kind : item.label.kind = .branch (.identifier "")) (valid : item.label.valid = true)
      (gathered : P item.children [])

/-- Every turn in the identifier takes a leaf, and keeps `P`. -/
def Collects (scope : Scope) (P : List Item → List UInt8 → Prop) : Prop :=
  ∀ state : State, ∀ children, state.frame.branch = .identifier "" → state.rest ≠ [] →
    P children state.rest →
    ∃ leaf valid n, (readNext scope state).view =
        (state.view.addLeaf leaf valid (.identifier "")).consume scope n ∧
      ∀ id span, P (children ++ [.node ⟨id, .leaf leaf, valid, span⟩ []]) (state.rest.drop n)

variable {scope : Scope} {state closed : State} {view : View} {bytes : Array UInt8}
  {start : Draft} {P : List Item → List UInt8 → Prop}

/-- The first turn opens the identifier. -/
theorem View.Sole.opened (outer : view.outer = []) (marks : view.marks = [])
    (hbegins : P [] view.rest) :
    (view.openBranch (.identifier "")).Sole bytes (Lexer.blank { bytes := bytes }) P := by
  have hdraft : view.draft (Lexer.blank { bytes := bytes }) = Lexer.blank { bytes := bytes } := by
    rw [View.draft, marks]
    rfl
  have hopened : (view.openBranch (.identifier "")).outer =
      [{ view.frame with pending := none }] := by
    rw [View.openBranch, outer]
  have hdrafted :
      ((view.openBranch (.identifier "")).draft (Lexer.blank { bytes := bytes })).outer =
        [(Lexer.blank { bytes := bytes }).frame] := by
    rw [draft_openBranch, hdraft]
    rfl
  refine .inside rfl hopened ?_ hdrafted rfl
  rw [draft_openBranch, hdraft]
  exact hbegins

/-- **Every turn stays with the identifier.** -/
theorem readNext_sole (hcollects : Collects scope P) (hbegins : P [] bytes.toList)
    (hopens : state.frame.branch = .root → state.rest = bytes.toList →
      readNext scope state = state.openBranch (.identifier ""))
    (ahead : state.rest ≠ []) (h : state.view.Sole bytes (Lexer.blank { bytes := bytes }) P) :
    (readNext scope state).view.Sole bytes (Lexer.blank { bytes := bytes }) P := by
  cases h with
  | before root outer marks running whole =>
    rw [hopens root whole]
    exact .opened outer marks (whole ▸ hbegins)
  | inside branch outer gathered drafted alone =>
    obtain ⟨leaf, valid, n, hview, hmore⟩ := hcollects state _ branch ahead gathered
    rw [hview]
    refine .inside rfl outer ?_ ?_ alone
    · rw [draft_consume, draft_addLeaf]
      exact hmore _ _
    · rw [draft_consume, draft_addLeaf]
      exact (Draft.outer_settle _ _).trans drafted
  | behind outer rest => exact absurd rest ahead

/-- **The end of the input completes the identifier.** -/
theorem closeAtEnd?_sole (hrest : state.rest = []) (hclosed : state.closeAtEnd? = some closed)
    (h : state.view.Sole bytes start P) : closed.view.Sole bytes start P := by
  rcases closeAtEnd?_closes state with ⟨hnone, -⟩ | ⟨after, _, _, other, further, hafter, hother, -⟩
  · rw [hnone] at hclosed
    cases hclosed
  -- a branch that is open at the end is the identifier, for the root is not closed
  cases h with
  | before root outer =>
    rw [outer] at hother
    cases hother
  | @inside around surround branch outer gathered drafted alone =>
    have hclose : state.closeBranch? true = some closed := by
      rw [State.closeAtEnd?, show state.frame.branch = .identifier "" from branch] at hclosed
      exact hclosed
    obtain ⟨around', further', houter, hview⟩ := closeBranch?_eq_some hclose
    obtain ⟨rfl, rfl⟩ := List.cons.inj (outer.symm.trans houter)
    have hdraft : (state.view.closeBranch state.frame.branch true around []).draft start = _ :=
      (draft_closeBranch _ _ _ _ state.view start).trans (Draft.take_closed drafted _ _ _)
    rw [show state.view.rest = [] from hrest] at gathered
    have hloose : ((state.view.closeBranch state.frame.branch true around []).draft start).loose =
        [Draft.closing (.identifier "") true
          ((state.view.draft start).settle state.view.position).frame] := by
      rw [hdraft, show state.frame.branch = .identifier "" from branch]
      rfl
    rw [hview]
    refine .behind rfl hrest hloose ?_ rfl rfl gathered
    rw [hdraft]
    exact alone
  | behind outer =>
    rw [outer] at hother
    cases hother

end Scan

/-- **An identifier that is read to the end is the only item**, and has the leaves of its turns. -/
theorem Lexer.items_of_identifier {lexer : Lexer} {bytes : Array UInt8}
    {P : List Item → List UInt8 → Prop} (hbytes : bytes.toList ≠ []) (hbegins : P [] bytes.toList)
    (hopens : ∀ state : Scan.State, state.frame.branch = .root → state.rest = bytes.toList →
      Scan.readNext (lexer.scope { bytes := bytes }) state = state.openBranch (.identifier ""))
    (hcollects : Scan.Collects (lexer.scope { bytes := bytes }) P) :
    ∃ item : Item, lexer.items { bytes := bytes } = [item] ∧
      item.label.kind = .branch (.identifier "") ∧ item.label.valid = true ∧
      P item.children [] := by
  have hstart : (initial .root { bytes := bytes }).view.Sole bytes (blank { bytes := bytes }) P :=
    .before rfl rfl rfl rfl (Source.range_all bytes)
  obtain ⟨houter, hsole, hdone⟩ := Scan.run_states
    (P := fun state => state.view.Sole bytes (blank { bytes := bytes }) P)
    (initial_fresh .root { bytes := bytes }) hstart
    (fun state _ ahead _ h => Scan.readNext_sole hcollects hbegins (hopens state) ahead h)
    fun before after _ hrest hclosed h => Scan.closeAtEnd?_sole hrest hclosed h
  cases hsole with
  | before root outer marks running whole =>
    rcases hdone with hrest | hhalted
    · exact absurd (whole.symm.trans hrest) hbytes
    · exact absurd (hhalted.symm.trans running) (by decide)
  | inside branch outer => exact absurd (outer.symm.trans houter) (List.cons_ne_nil _ _)
  | @behind item outer rest loose alone kind valid gathered =>
    refine ⟨Item.endAt (lexer.scan .root { bytes := bytes }).position item, ?_, ?_, ?_, ?_⟩
    · have hitems : lexer.items { bytes := bytes } = _ ++ _ := Draft.done_frame_settle _ _
      rw [hitems]
      exact congrArg₂ (· ++ List.map (Item.endAt (lexer.scan .root { bytes := bytes }).position) ·)
        alone loose
    · rw [Item.kind_label_endAt]
      exact kind
    · obtain ⟨label, below⟩ := item
      exact valid
    · rw [Item.children_endAt]
      exact gathered

end StyleLex
