/-
# The open branches of a scan

Between two turns a scan holds one frame for each open branch, and the tree that its marks make has
one node for each of them.  `Aligned` says how these go together.  Every frame is in the context of
its node.  The nodes of the frames inside the caller's branch are new, and tied to nothing, while
what is below them is tied in; so is what was read last, if it may still grow.  Whatever else is
new is tied in, and the node tied in last is the tail of the assembly.

The scan goes from state to state (`Visits`): it makes the turns of the main loop, and then closes
what is still open.  What the frames say of the draft is kept by each step (`Traced.step`), what the
tree says of the draft is kept by each mark (`Realizes.takeAll`, `Realizes.bound_takeAll`), and in
every state the two are put together (`Lexer.aligned`).

A state in the middle of a scan is not visible from outside, and most invariants of a tree do not
hold of it: the nodes of open branches are in the tree already, but neither are they children of
anything nor are they on the thread.  `Aligned` says for every new node in which of three conditions
it is, and that the conditions exclude each other.

Three structures have to be kept together: the frames of the scan, the draft that its marks make,
and the tree that they make.  The draft is the one in the middle, and the other two never have to be
compared with each other directly.
-/
import StyleLex.Proofs.Scan.Drafting
import StyleLex.Proofs.Tree.Binding

namespace StyleLex

/-- The same branch is read in the same context, whatever a hash has gathered. -/
theorem Branch.Alike.context_eq {a b : Branch} (h : a.Alike b) : a.context = b.context := by
  cases h <;> rfl

namespace Scan

variable {scope : Scope} {first state : State} {view after : View} {start : Draft}

/-! ## 1. The states of a scan

The states of a scan are given as an inductive predicate rather than as a function of the number of
turns.  A statement about every state is then an induction with one case for each kind of turn. -/

/-- The states of a scan that begins in `first`: those between the turns of the main loop, and those
in which it closes what is still open at the end of the input. -/
inductive Visits (scope : Scope) (first : State) : State → Prop where
  | start : Visits scope first first
  | turn {state : State} (visited : Visits scope first state) (running : state.finished = false) :
      Visits scope first (readNext scope state)
  | close {state closed : State} (visited : Visits scope first state)
      (finished : state.finished = true) (closes : state.closeAtEnd? = some closed) :
      Visits scope first closed

/-- Every state of the main loop is visited. -/
theorem Visits.steps (n : Nat) : ∀ {state : State}, Visits scope first state →
    Visits scope first (steps scope n state) := by
  induction n with
  | zero => exact fun h => h
  | succ n ih =>
    intro state h
    rw [Scan.steps]
    split
    · exact h
    · rename_i hrunning
      exact ih (h.turn (Bool.eq_false_iff.mpr hrunning))

/-- A branch that is closed behind the main loop leaves the loop finished. -/
theorem finished_closeAtEnd? {closed : State} (hfinished : state.finished = true)
    (hclosed : state.closeAtEnd? = some closed) : closed.finished = true := by
  obtain ⟨-, hrest, hhalted⟩ := closeAtEnd?_inside hclosed
  rw [State.finished, hrest, hhalted]
  exact hfinished

/-- Every state of the closing is visited. -/
theorem Visits.closeAll (n : Nat) : ∀ {state : State}, Visits scope first state →
    state.finished = true → Visits scope first (closeAll n state) := by
  induction n with
  | zero => exact fun h _ => h
  | succ n ih =>
    intro state h hfinished
    rw [Scan.closeAll]
    split
    · rename_i closed hclosed
      exact ih (h.close hfinished hclosed) (finished_closeAtEnd? hfinished hclosed)
    · exact h

/-- So is the state in which the scan ends. -/
theorem visits_run (hfresh : first.Fresh) : Visits scope first (run scope first) :=
  (Visits.start.steps _).closeAll _ (hfresh.finished scope)

/-- **What every step preserves holds in every state of a scan.** -/
theorem Visits.preserves {P : View → Prop} (h : Visits scope first state) (hfresh : first.Fresh)
    (hfirst : P first.view)
    (hP : ∀ before after, Step scope before after → P before → P after) :
    state.view.Ready ∧ P state.view := by
  induction h with
  | start => exact ⟨hfresh.ready, hfirst⟩
  | @turn state _ running ih =>
    obtain ⟨ahead, hrun⟩ := running_iff.mp running
    have hstep := readNext_step scope ahead
    exact ⟨ih.1.step (Or.inl hrun) hstep, hP _ _ hstep ih.2⟩
  | @close state closed _ finished closes ih =>
    -- a scan halts in the caller's branch, which nothing closes
    have hrest : state.rest = [] := (finished_iff.mp finished).resolve_right fun hhalted =>
      (closeAtEnd?_inside closes).1 (ih.1.halted hhalted)
    have hstep := closeAtEnd?_step scope hrest closes
    exact ⟨ih.1.step (Or.inr hrest) hstep, hP _ _ hstep ih.2⟩

/-! ## 2. Frames and drafts

Frame by frame, from the inside out. -/

/-- A frame stands for a branch that began as `origin`. -/
def Frame.BeganAs (frame : Frame) (origin : Node) : Prop :=
  ∃ branch, origin.kind = .branch branch ∧ branch.Alike frame.branch

/-- The frames of a scan are those of its draft, and so is what was read last. -/
structure Traced (start : Draft) (view : View) : Prop where
  frames : List.Forall₂ Frame.BeganAs (view.frame :: view.outer)
    ((view.draft start).frames.map (·.origin))
  saved : ∀ frame ∈ view.outer, frame.pending = none
  focus : view.frame.pending = (view.draft start).pending.map (·.label.kind)

/-- It stands for that branch as long as the two are alike. -/
theorem Frame.BeganAs.congr {frame frame' : Frame} {origin : Node} (h : frame.BeganAs origin)
    (halike : frame.branch.Alike frame'.branch) : frame'.BeganAs origin := by
  obtain ⟨branch, hkind, hbegan⟩ := h
  exact ⟨branch, hkind, hbegan.trans halike⟩

/-- **Every step keeps the frames and the draft together.** -/
theorem Traced.step (h : Traced start view) (hstep : Step scope view after) :
    Traced start after := by
  have hsettled := (view.draft start).origins_settle view.position
  obtain ⟨hframes, hsaved, hfocus⟩ := h
  rw [← hsettled] at hframes
  -- a leaf or a branch that closes becomes what was read last; a branch that opens is one frame
  -- more
  cases hstep with
  | @leaf leaf valid branch n ahead positive alike sound =>
    refine ⟨?_, hsaved, ?_⟩
    · rw [draft_consume, draft_addLeaf]
      obtain ⟨hframe, houter⟩ := List.forall₂_cons.mp hframes
      exact .cons (hframe.congr alike) houter
    · rw [draft_consume, draft_addLeaf]
      rfl
  | grow => exact ⟨hsettled ▸ hframes, hsaved, hfocus⟩
  | @opened branch ahead proper fits inside begins =>
    refine ⟨?_, ?_, ?_⟩
    · rw [draft_consume, draft_openBranch]
      obtain ⟨hframe, houter⟩ := List.forall₂_cons.mp hframes
      exact .cons ⟨branch, rfl, .refl branch⟩ (.cons (hframe.congr (.refl _)) houter)
    · intro frame hframe
      rcases List.mem_cons.mp hframe with rfl | hframe
      · rfl
      · exact hsaved frame hframe
    · rw [draft_consume, draft_openBranch]
      rfl
  | @closed branch valid n around further outer alike ends complete =>
    obtain ⟨-, houter⟩ := List.forall₂_cons.mp hframes
    rw [outer, Draft.outer_settle] at houter
    cases hdrafted : (view.draft start).outer with
    | nil =>
      rw [hdrafted] at houter
      cases houter
    | cons surround beyond =>
      rw [hdrafted] at houter
      have hdraft := draft_closed hdrafted branch valid around further scope n
      obtain ⟨haround, hfurther⟩ := List.forall₂_cons.mp houter
      refine ⟨?_, ?_, ?_⟩
      · rw [hdraft]
        exact .cons (haround.congr (.refl _)) hfurther
      · intro frame hframe
        exact hsaved frame (outer ▸ List.mem_cons_of_mem around hframe)
      · rw [hdraft]
        rfl
  | halted => exact ⟨hsettled ▸ hframes, hsaved, hfocus⟩

end Scan

/-! ## 3. Frames and nodes

What is needed of the tree is in `Realizes` and in `Tree.Bound`: what is off the thread has no
links. -/

namespace Scan

/-- What the marks of a state make of a tree, if they add to the branch `base`. -/
def State.assembly (state : State) (bytes : Array UInt8) (given : Tree) (base : NodeId) :
    Assembly :=
  (Assembly.into given base).takeAll bytes state.marks.reverse

/-- The nodes that were tied in so far, in order. -/
def State.linked (state : State) (bytes : Array UInt8) (given : Tree) (base : NodeId) :
    List NodeId :=
  (Assembly.into given base).linkedBy bytes state.marks.reverse

/-- The open branches of a scan go together with the tree that it has made so far: `given` is the
tree of the call, `base` the branch that it adds to, and `linked` what was tied in so far. -/
structure Aligned (given : Tree) (base : NodeId) (state : State) (assembly : Assembly)
    (linked : List NodeId) : Prop where
  /-- Every frame reads in the context of its node. -/
  contexts : List.Forall₂
    (fun (frame : Frame) id => ∃ branch, assembly.tree.kind? id = some (.branch branch) ∧
      frame.branch.context = branch.context)
    (state.frame :: state.outer) assembly.path
  /-- The outermost one is that of the caller's branch. -/
  caller : assembly.path.getLast? = some base
  /-- Only the innermost frame may have a child to which the next byte belongs. -/
  saved : ∀ frame ∈ state.outer, frame.pending = none
  focus : assembly.pending.isSome = state.frame.pending.isSome
  /-- A branch that is open inside the caller's is new and tied to nothing; what is below it is
  tied in. -/
  inner : ∀ id ∈ assembly.inner, given.size ≤ id ∧ id < assembly.tree.size ∧
    assembly.tree.Untied id ∧ ∀ child ∈ assembly.tree.children id, assembly.tree.TiedBelow id child
  /-- The child read last is tied to nothing, and is no open branch. -/
  pending : ∀ id, assembly.pending = some id → given.size ≤ id ∧ id < assembly.tree.size ∧
    assembly.tree.Untied id ∧ id ∉ assembly.path
  /-- The tail is the node tied in last, or else the one behind which the call began. -/
  tail : assembly.tail = linked.getLast?.getD (given.threadAnchor base)
  /-- What was tied in stands on the thread, in one stretch behind that node. -/
  thread : ∃ before after, before.getLast? = some (given.threadAnchor base) ∧
    given.Chained none none (before ++ after) ∧
    assembly.tree.Chained none none (before ++ linked ++ after)
  /-- Every new node is either tied in, or the child read last, or an open branch. -/
  sorted : ∀ id, given.size ≤ id → id < assembly.tree.size →
    (assembly.tree.Tied id ∧ assembly.pending ≠ some id ∧ id ∉ assembly.inner) ∨
      (¬ assembly.tree.Tied id ∧ assembly.pending = some id ∧ id ∉ assembly.inner) ∨
      (¬ assembly.tree.Tied id ∧ assembly.pending ≠ some id ∧ id ∈ assembly.inner)

end Scan

namespace Realizes

open Scan

variable {source : Array UInt8} {site : Site} {assembly : Assembly} {draft : Draft}

/-- The open branches of an assembly are those of its draft. -/
theorem path_eq (h : Realizes source site assembly draft) :
    assembly.path = draft.frames.map (·.id) := by
  rw [Assembly.path, h.branch, h.outer]
  rfl

/-- So are those inside the one that is added to. -/
theorem inner_eq (h : Realizes source site assembly draft) :
    assembly.inner = draft.frames.dropLast.map (·.id) := by
  rw [Assembly.inner, h.path_eq, List.map_dropLast]

/-- Where the frames began as the branches of the draft did, they are in the contexts of its
nodes. -/
theorem contexts (h : Realizes source site assembly draft) {frames : List Frame}
    (hframes : List.Forall₂ Frame.BeganAs frames (draft.frames.map (·.origin))) :
    List.Forall₂ (fun frame id => ∃ branch, assembly.tree.kind? id = some (.branch branch) ∧
      frame.branch.context = branch.context) frames assembly.path := by
  rw [h.path_eq, List.forall₂_map_right_iff]
  rw [List.forall₂_map_right_iff] at hframes
  refine List.forall₂_iff_get.mpr ⟨hframes.length_eq, fun i hi hi' => ?_⟩
  obtain ⟨branch, hkind, halike⟩ := hframes.get hi hi'
  refine ⟨branch, ?_, halike.context_eq.symm⟩
  rw [Tree.kind?_eq, h.frames _ (List.get_mem _ _)]
  exact congrArg some hkind

/-- The open branches inside the one that is added to are new and tied to nothing, and what is below
them is tied in. -/
theorem inner_apart (h : Realizes source site assembly draft) (hsite : site.Sound)
    (hbound : assembly.tree.Bound (site.thread draft.links)) (hbefore : site.before ≠ [])
    {id : NodeId} (hid : id ∈ assembly.inner) :
    site.given.size ≤ id ∧ id < assembly.tree.size ∧ assembly.tree.Untied id ∧
      ∀ child ∈ assembly.tree.children id, assembly.tree.TiedBelow id child := by
  rw [h.inner_eq] at hid
  obtain ⟨frame, hframe, rfl⟩ := List.mem_map.mp hid
  obtain ⟨hnew, hlt⟩ := h.fresh_frame hsite hframe
  exact ⟨hnew, hlt, h.untied_frame hsite hbound hframe,
    fun child hchild => h.tiedBelow_frame hsite hbefore hframe hchild⟩

/-- The pending child is new and tied to nothing, and it is none of the open branches. -/
theorem pending_apart (h : Realizes source site assembly draft) (hsite : site.Sound)
    (hbound : assembly.tree.Bound (site.thread draft.links)) {id : NodeId}
    (hid : assembly.pending = some id) :
    site.given.size ≤ id ∧ id < assembly.tree.size ∧ assembly.tree.Untied id ∧
      id ∉ assembly.path := by
  rw [h.pending] at hid
  obtain ⟨item, hitem, rfl⟩ := Option.map_eq_some_iff.mp hid
  obtain ⟨hnew, hlt⟩ := h.fresh_pending hsite hitem
  refine ⟨hnew, hlt, h.untied_pending hsite hbound hitem, ?_⟩
  rw [h.path_eq]
  intro hin
  obtain ⟨frame, hframe, heq⟩ := List.mem_map.mp hin
  exact h.pending_ne hsite hitem hframe heq.symm

/-- **A new node is in one place only.** -/
theorem sorted (h : Realizes source site assembly draft) (hsite : site.Sound)
    (hbound : assembly.tree.Bound (site.thread draft.links)) (hbefore : site.before ≠ [])
    {id : NodeId} (hnew : site.given.size ≤ id) (hlt : id < assembly.tree.size) :
    (assembly.tree.Tied id ∧ assembly.pending ≠ some id ∧ id ∉ assembly.inner) ∨
      (¬ assembly.tree.Tied id ∧ assembly.pending = some id ∧ id ∉ assembly.inner) ∨
      (¬ assembly.tree.Tied id ∧ assembly.pending ≠ some id ∧ id ∈ assembly.inner) := by
  have hloose : assembly.pending = some id → ¬ assembly.tree.Tied id :=
    fun hsome => (h.pending_apart hsite hbound hsome).2.2.1.not_tied
  have hopen : id ∈ assembly.inner → ¬ assembly.tree.Tied id :=
    fun hin => (h.inner_apart hsite hbound hbefore hin).2.2.1.not_tied
  have hapart : assembly.pending = some id → id ∉ assembly.inner :=
    fun hsome hin => (h.pending_apart hsite hbound hsome).2.2.2 (List.dropLast_subset _ hin)
  rcases h.mem_places hnew hlt hsite with hlinked | hsome | hin
  · have htied := h.tied hsite hbefore hlinked
    exact Or.inl ⟨htied, fun hsome => hloose hsome htied, fun hin => hopen hin htied⟩
  · exact Or.inr (Or.inl ⟨hloose hsome, hsome, hapart hsome⟩)
  · rw [← h.inner_eq] at hin
    exact Or.inr (Or.inr ⟨hopen hin, fun hsome => hapart hsome hin, hin⟩)

end Realizes

/-! ## 4. Every state of a call

All is put together for one state, which is arbitrary. -/

/-- Every state of a scan is paced and traced by the draft of its marks. -/
theorem Scan.Visits.drafted {scope : Scope} {branch : Branch} {source : Source} {state : State}
    (h : Visits scope (Lexer.initial branch source) state) {origin : Node}
    (horigin : origin.kind = .branch branch) (given : Tree) (base : NodeId) :
    Paced (Draft.into given base origin) state.view ∧
      Traced (Draft.into given base origin) state.view := by
  have hfirst : Paced (Draft.into given base origin) (Lexer.initial branch source).view ∧
      Traced (Draft.into given base origin) (Lexer.initial branch source).view :=
    ⟨⟨trivial, rfl⟩,
      ⟨.cons ⟨branch, horigin, .refl branch⟩ .nil, fun _ hin => absurd hin List.not_mem_nil, rfl⟩⟩
  exact (h.preserves (P := fun view => Paced (Draft.into given base origin) view ∧
    Traced (Draft.into given base origin) view) (Lexer.initial_fresh branch source) hfirst
    fun _ _ hstep h => ⟨h.1.step hstep, h.2.step hstep⟩).2

namespace Lexer

open Scan

/-- **In every state of a scan the open branches stand in the tree as they should**, whatever branch
of an ordered tree the call adds to. -/
theorem aligned (lexer : Lexer) (source : Source) {given : Tree} {outline : Rose NodeId}
    (hordered : given.Ordered outline) {base : NodeId} {branch : Branch}
    (hkind : given.kind? base = some (.branch branch)) {state : State}
    (hvisits : Visits (lexer.scope source) (initial branch source) state) :
    Aligned given base state (state.assembly source.bytes given base)
      (state.linked source.bytes given base) := by
  obtain ⟨origin, hbody, horigin⟩ : ∃ origin, given.body? base = some origin ∧
      origin.kind = .branch branch := by
    rw [Tree.kind?_eq] at hkind
    exact Option.map_eq_some_iff.mp hkind
  obtain ⟨site, rfl, rfl, hsite⟩ := hordered.exists_site (Tree.lt_size_of_body? hbody)
  obtain ⟨hpaced, htraced⟩ := hvisits.drafted horigin site.given site.base
  have hstart : Realizes source.bytes site (Assembly.into site.given site.base)
      (Draft.into site.given site.base origin) := .start hbody hsite.thread hsite.tail
  have hunbound : site.given.Bound
      (site.thread (Draft.into site.given site.base origin).links) := by
    rw [Draft.links_into, Site.thread, List.append_nil, ← hsite.whole]
    exact hordered.bound
  have h := Realizes.takeAll hsite.sound _ hstart hpaced.admits
  have hbound := Realizes.bound_takeAll hsite.sound _ hstart hunbound hpaced.admits
  have hlinks := Realizes.links_takeAll hsite.sound _ hstart hpaced.admits
  rw [Draft.links_into, List.nil_append] at hlinks
  have hbefore : site.before ≠ [] := List.ne_nil_of_mem (List.mem_of_getLast? hsite.tail)
  have hframes := htraced.frames
  have hfocus := htraced.focus
  have hthread := h.thread
  have htail := h.tail_eq hsite.tail
  rw [hlinks] at hthread htail
  rw [View.draft] at hframes hfocus
  -- from here on only the draft of the state matters, not how it came about
  generalize (Draft.into site.given site.base origin).takeAll state.view.marks.reverse = draft
    at *
  exact
    { contexts := h.contexts hframes
      caller := Assembly.getLast?_path_takeAll _ _ _
      saved := htraced.saved
      focus := by
        have hpending := congrArg Option.isSome h.pending
        have hread := congrArg Option.isSome hfocus
        rw [Option.isSome_map] at hpending hread
        exact hpending.trans hread.symm
      inner := fun id hid => h.inner_apart hsite.sound hbound hbefore hid
      pending := fun id hid => h.pending_apart hsite.sound hbound hid
      tail := htail
      thread := ⟨site.before, site.after, hsite.tail, hsite.thread, hthread⟩
      sorted := fun id hnew hlt => h.sorted hsite.sound hbound hbefore hnew hlt }

/-- A scan goes from the state in which it begins to the one in which it ends. -/
theorem scan_visited (lexer : Lexer) (branch : Branch) (source : Source) :
    Visits (lexer.scope source) (initial branch source) (lexer.scan branch source) :=
  visits_run (initial_fresh branch source)

end Lexer

open Scan

/-- A parenthesis that nothing closes. -/
def parenthesis : Tree := session ⟨Dialect.standard, Fragments.empty⟩ { bytes := #[0x28] } []

/-- A brace and a name, to be read into the parenthesis. -/
def braceAhead : Source where
  bytes := #[0x7B, 0x61]

end StyleLex
