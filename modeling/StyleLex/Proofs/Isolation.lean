/-
# Tokens by themselves

A child of the root is read alike if nothing else is there: the bytes that it spans, read alone,
make a root with one child, and that child is the same, node by node, but for where it stands
(`Lexer.tokenizeBytes_isolated`).  Only a fragment is malformed then, for it ends with the input.

The scan passes where the child begins, and again where it ends.  In between it makes the marks of a
scan that begins there and is cut (`Scan.run_cut_cases`), but that the latter counts from there on.

The two scans do not count alike: the second one begins at byte zero with an empty tree.  A gauge
(`Gauge.since`) says how their counts are related, and an item is compared with another one by its
sketch, in which identifiers and bytes are counted from a given place on (`Item.sketch`).  Lines and
columns are left out of a sketch, since where a line begins depends on what is before the item.

A third difference is the end of the input.  The scan of the whole source sees what follows the item
and may wait for it; the scan of the part does not.  This matters for a fragment only, whose group
has been closed when the input ends but which has not been closed itself: for that case the item
carries a flag that may be replaced (`Item.flagged`).
-/
import StyleLex.Proofs.Increment
import StyleLex.Proofs.Scan.Trailing

namespace StyleLex

/-! ## 1. One scan and a part of it

The scan of the whole is cut into three: up to where the item begins, from there to where it ends,
and the rest.  The first is described by `Passes`, the second is compared with the scan of the part,
and the third is of no interest. -/

namespace Lexer

open Scan

variable {bytes : Array UInt8} {front back : List Item} {item : Item} {state : State}

/-- A scan of other bytes knows nothing behind its stop. -/
theorem scope_alone (lexer : Lexer) (span : Span) (b : List UInt8) (origin : Nat) :
    lexer.scope (.alone bytes span) =
      (Gauge.since (lexer.scope { bytes := bytes }) b origin).scope := by
  have hend : (Source.alone bytes span).bytes[(Source.alone bytes span).limit]? = none := by
    rw [show (Source.alone bytes span).limit = (Source.alone bytes span).bytes.size from
      Source.limit_all _ Position.origin]
    exact Array.getElem?_size
  show (⟨_, _, (Source.alone bytes span).bytes[(Source.alone bytes span).limit]?⟩ : Scope) =
    ⟨_, _, none⟩
  rw [hend]
  rfl

/-- Where a scan passes, a scan of the bytes from there on begins alike. -/
theorem alone_mirrors (lexer : Lexer) {span : Span} (hle : span.start.byte ≤ span.stop.byte)
    {b : List UInt8} (hb : bytes.toList.drop span.stop.byte = b)
    (hpasses : Passes (lexer.scope { bytes := bytes }) (Source.range { bytes := bytes })
      (blank { bytes := bytes }) state front)
    (hstart : state.position.byte = span.start.byte) :
    Mirrors (.since (lexer.scope { bytes := bytes }) b span.start.byte) state.marks state.forget
      (initial .root (.alone bytes span)) := by
  have hsplit : bytes.toList.drop span.stop.byte =
      (bytes.toList.drop span.start.byte).drop (span.stop.byte - span.start.byte) := by
    rw [List.drop_drop, Nat.add_sub_cancel' hle]
  refine mirrors_of_passes hpasses ?_ ?_
  · rw [hpasses.rest, hstart, Source.range_all, Source.alone, Source.range_all,
      Array.toList_extract, List.extract_eq_take_drop, ← hb, hsplit, List.take_append_drop]
  · show state.position.byte = 0 + span.start.byte
    rw [hstart, Nat.zero_add]

/-- The draft of a scan that passes trails an empty one. -/
theorem passes_trails (lexer : Lexer) (hpaced : Paced (blank { bytes := bytes }) state.view)
    (hpasses : Passes (lexer.scope { bytes := bytes }) (Source.range { bytes := bytes })
      (blank { bytes := bytes }) state front) (source : Source) (start : Nat) :
    ∃ nodes, ((state.view.draft (blank { bytes := bytes })).settle state.position).Trails nodes
      start front (blank source) := by
  have houter : (state.view.draft (blank { bytes := bytes })).outer = [] := by
    refine List.length_eq_zero_iff.mp (hpaced.depth.trans ?_)
    rw [show state.view.outer = [] from hpasses.outer]
    rfl
  have hnext : 1 ≤ (state.view.draft (blank { bytes := bytes })).next :=
    Draft.le_next_takeAll _ (blank { bytes := bytes })
  refine ⟨(state.view.draft (blank { bytes := bytes })).next - 1, ?_, ?_, ?_⟩
  · rw [Draft.next_settle]
    show _ = 1 + _
    omega
  · rw [Draft.frames, Draft.outer_settle, houter]
    refine .base ?_
    rw [hpasses.done]
    exact (List.append_nil _).symm
  · rw [Draft.loose_settle]
    rfl

/-- **What a scan adds from where it passes are the items of the scan with the same marks.** -/
theorem trailing_items (lexer : Lexer) {source : Source} {scope : Scope} {b : List UInt8}
    {nodes start : Nat} {draft : Draft} {p stop : Position} {new : List Mark}
    (htrails : (draft.settle p).Trails nodes start front (blank source))
    (hmarks : List.Forall₂ (Gauge.since scope b start).Marks new (lexer.scan .root source).marks)
    (hstop : stop.byte = (lexer.scan .root source).position.byte + start)
    (hbegun : (new = [] ∧ stop = p) ∨ ∃ newer first, new = newer ++ [first] ∧ first.place = p) :
    Item.sketches 0 0 ((draft.takeAll new.reverse).settle stop).frame.done =
      Item.sketches 0 0 front ++ Item.sketches nodes start (lexer.items source) := by
  have hreversed : (new.reverse = [] ∧ stop = p) ∨
      ∃ mark rest, new.reverse = mark :: rest ∧ mark.place = p := by
    rcases hbegun with ⟨rfl, hsame⟩ | ⟨newer, first, rfl, hplace⟩
    · exact Or.inl ⟨rfl, hsame⟩
    · exact Or.inr ⟨first, newer.reverse, List.reverse_concat, hplace⟩
  have hdone := (htrails.takeAll (List.forall₂_reverse_iff.mpr hmarks)).settle hstop
  rw [Draft.settle_takeAll hreversed] at hdone
  have houter : (lexer.draft (blank source) .root source).outer = [] :=
    (Draft.outer_settle _ _).trans (lexer.scan_admits .root source rfl).2
  have hframes := hdone.frames
  rw [show ((blank source).takeAll _).settle _ = lexer.draft (blank source) .root source from rfl,
    Draft.frames, Draft.frames, houter] at hframes
  generalize ((draft.takeAll new.reverse).settle stop).outer = outer at hframes
  cases hframes with
  | base done => exact done
  | inner _ _ _ _ further => exact absurd rfl further.ne_nil.2

/-- If that is one item more, it is the only item of the other scan. -/
theorem exists_only (lexer : Lexer) {source : Source} {scope : Scope} {b : List UInt8}
    {nodes start : Nat} {draft : Draft} {p stop : Position} {new : List Mark}
    (htrails : (draft.settle p).Trails nodes start front (blank source))
    (hmarks : List.Forall₂ (Gauge.since scope b start).Marks new (lexer.scan .root source).marks)
    (hstop : stop.byte = (lexer.scan .root source).position.byte + start)
    (hbegun : (new = [] ∧ stop = p) ∨ ∃ newer first, new = newer ++ [first] ∧ first.place = p)
    (hdone : ((draft.takeAll new.reverse).settle stop).frame.done = front ++ [item]) :
    ∃ only, lexer.items source = [only] ∧ item.sketch 0 0 = only.sketch nodes start := by
  have hitems := lexer.trailing_items htrails hmarks hstop hbegun
  rw [hdone, Item.sketches_append, List.append_cancel_left_eq] at hitems
  obtain ⟨only, rest, hsource, honly, hrest⟩ := List.map_eq_cons_iff.mp hitems.symm
  rw [List.map_eq_nil_iff.mp hrest] at hsource
  exact ⟨only, hsource, honly.symm⟩

/-- The marks that a scan makes from where it passes begin there. -/
theorem begun_new {start : Position} {old new : List Mark} {view : View}
    (h : Begun old start view) (hmarks : view.marks = new ++ old) :
    (new = [] ∧ view.position = start) ∨
      ∃ newer first, new = newer ++ [first] ∧ first.place = start := by
  rcases h with ⟨hnone, hposition, -⟩ | ⟨newer, first, hfirst, hplace⟩
  · refine Or.inl ⟨?_, hposition⟩
    exact List.append_left_eq_self.mp (hmarks.symm.trans hnone)
  · refine Or.inr ⟨newer, first, ?_, hplace⟩
    rw [hmarks, List.append_cons] at hfirst
    exact List.append_cancel_right hfirst

/-- Marks that were made later are taken later. -/
theorem draft_of_marks {draft : Draft} {old new : List Mark} {view : View}
    (hmarks : view.marks = new ++ old) :
    view.draft draft = (draft.takeAll old.reverse).takeAll new.reverse := by
  rw [View.draft, hmarks, List.reverse_append, Draft.takeAll, List.foldl_append]
  rfl

/-- An item of the root begins where the scan passes the items before it. -/
theorem start_eq (lexer : Lexer) (hitems : lexer.items { bytes := bytes } = front ++ item :: back)
    (hpasses : Passes (lexer.scope { bytes := bytes }) (Source.range { bytes := bytes })
      (blank { bytes := bytes }) state front) :
    state.position.byte = item.label.span.start.byte := by
  obtain ⟨-, -, habut, -⟩ := lexer.scan_laid { bytes := bytes } rfl (blank { bytes := bytes })
    rfl rfl rfl rfl
  rw [show (lexer.draft (blank { bytes := bytes }) .root { bytes := bytes }).frame.done = _ from
    hitems] at habut
  rw [hpasses.place]
  exact habut.front.eq_end.symm

/-- The scan of `bytes` stands where `item` begins, and has passed the items `front`. -/
structure Reaches (lexer : Lexer) (bytes : Array UInt8) (front : List Item) (item : Item)
    (state : State) : Prop where
  passes : Passes (lexer.scope { bytes := bytes }) (Source.range { bytes := bytes })
    (blank { bytes := bytes }) state front
  paced : Paced (blank { bytes := bytes }) state.view
  start : state.position.byte = item.label.span.start.byte
  proper : item.label.span.start.byte < item.label.span.stop.byte

/-- The scan of a source reaches each of its items. -/
theorem reaches_of_passes (lexer : Lexer)
    (hitems : lexer.items { bytes := bytes } = front ++ item :: back) {m : Nat}
    (hpasses : Passes (lexer.scope { bytes := bytes }) (Source.range { bytes := bytes })
      (blank { bytes := bytes })
      (steps (lexer.scope { bytes := bytes }) m (initial .root { bytes := bytes })) front) :
    lexer.Reaches bytes front item
      (steps (lexer.scope { bytes := bytes }) m (initial .root { bytes := bytes })) where
  passes := hpasses
  paced := (lexer.steps_laid { bytes := bytes } rfl m).2.2
  start := lexer.start_eq hitems hpasses
  proper := by
    have hitem : item ∈ lexer.items { bytes := bytes } := by simp [hitems]
    exact (lexer.sits_of_mem hitem).proper

/-- Another flag on the mark made last changes nothing about the one made first. -/
theorem begun_flag {start : Position} {mark mark' : Mark} {new : List Mark}
    (hplace : mark'.place = mark.place)
    (h : ∃ newer first, mark :: new = newer ++ [first] ∧ first.place = start) :
    ∃ newer first, mark' :: new = newer ++ [first] ∧ first.place = start := by
  obtain ⟨newer, first, hmarks, hfirst⟩ := h
  cases newer with
  | nil =>
    obtain ⟨rfl, rfl⟩ := List.cons.inj hmarks
    exact ⟨[], mark', rfl, hplace.trans hfirst⟩
  | cons newest newer =>
    obtain ⟨-, rfl⟩ := List.cons.inj hmarks
    exact ⟨mark' :: newer, first, rfl, hfirst⟩

/-- A branch that closes with another flag is that item with another flag. -/
theorem exists_only_flagged (lexer : Lexer) {source : Source} {scope : Scope} {b : List UInt8}
    {nodes start : Nat} {draft : Draft} {p stop : Position} {new : List Mark} {branch : Branch}
    {valid : Bool} (htrails : (draft.settle p).Trails nodes start front (blank source))
    (hmarks : List.Forall₂ (Gauge.since scope b start).Marks (.closed branch valid stop :: new)
      (lexer.scan .root source).marks)
    (hstop : stop.byte = (lexer.scan .root source).position.byte + start)
    (hbegun : ∃ newer first, Mark.closed branch true stop :: new = newer ++ [first] ∧
      first.place = p)
    (hopen : (draft.takeAll new.reverse).outer ≠ [])
    (hdone : ((draft.takeAll (.closed branch true stop :: new : List Mark).reverse).settle
      stop).frame.done = front ++ [item]) :
    item.label.kind = .branch branch ∧
      ∃ only, lexer.items source = [only] ∧
        (item.flagged valid).sketch 0 0 = only.sketch nodes start := by
  obtain ⟨around, further, houter⟩ := List.exists_cons_of_ne_nil hopen
  obtain ⟨closed, hclosed⟩ := Draft.done_closed houter branch stop stop
  rw [List.reverse_cons, Draft.takeAll_concat, (hclosed true).1] at hdone
  obtain ⟨hfront, hlast⟩ := List.append_inj' hdone rfl
  obtain rfl := (List.cons.inj hlast).1
  have hplace :
      Mark.place (.closed branch valid stop) = Mark.place (.closed branch true stop) := rfl
  refine ⟨?_, lexer.exists_only htrails hmarks hstop (Or.inr (begun_flag hplace hbegun)) ?_⟩
  · have hkind := (hclosed true).2
    cases closed
    exact hkind
  · rw [List.reverse_cons, Draft.takeAll_concat, (hclosed valid).1, hfront, Item.flagged_flagged]

variable {b : List UInt8} {final inner stopped : State}

/-- An item is the only item of its bytes if the scan makes its marks for them. -/
theorem only_of_mirrors (lexer : Lexer) (h : lexer.Reaches bytes front item state)
    (hbegun : Begun state.marks state.position final.view)
    (hmirror : Mirrors (.since (lexer.scope { bytes := bytes }) b item.label.span.start.byte)
      state.marks final (lexer.scan .root (.alone bytes item.label.span)))
    (hdone : ((final.view.draft (blank { bytes := bytes })).settle final.position).frame.done =
      front ++ [item]) :
    ∃ nodes only, lexer.items (.alone bytes item.label.span) = [only] ∧
      item.sketch 0 0 = only.sketch nodes item.label.span.start.byte := by
  obtain ⟨nodes, htrails⟩ := lexer.passes_trails h.paced h.passes (.alone bytes item.label.span)
    item.label.span.start.byte
  obtain ⟨new, hnew, hsame⟩ := hmirror.marks
  have hdraft : final.view.draft (blank { bytes := bytes }) = _ := draft_of_marks hnew
  rw [hdraft] at hdone
  exact ⟨nodes, lexer.exists_only htrails hsame hmirror.position (begun_new hbegun hnew) hdone⟩

/-- An item that closes with another flag for its bytes is, with that flag, their only item. -/
theorem only_of_closes (lexer : Lexer) (h : lexer.Reaches bytes front item state)
    (hbegun : Begun state.marks state.position final.view)
    (hpaced : Paced (blank { bytes := bytes }) final.view)
    (hmirror : Mirrors (.since (lexer.scope { bytes := bytes }) b item.label.span.start.byte)
      state.marks inner stopped)
    (hclose : inner.closeBranch? true = some final)
    (hclosed : stopped.closeBranch? false =
      some (lexer.scan .root (.alone bytes item.label.span)))
    (hdone : ((final.view.draft (blank { bytes := bytes })).settle final.position).frame.done =
      front ++ [item]) :
    item.label.kind = .branch inner.frame.branch ∧
      ∃ nodes only, lexer.items (.alone bytes item.label.span) = [only] ∧
        (item.flagged false).sketch 0 0 = only.sketch nodes item.label.span.start.byte := by
  obtain ⟨nodes, htrails⟩ := lexer.passes_trails h.paced h.passes (.alone bytes item.label.span)
    item.label.span.start.byte
  obtain ⟨new, hnew, hsame⟩ := hmirror.marks
  -- both scans make one more mark, which closes the fragment, with a flag of its own each
  obtain ⟨around, further, -, hview⟩ := closeBranch?_eq_some hclose
  obtain ⟨around', further', -, hview'⟩ := closeBranch?_eq_some hclosed
  have hmarks : final.view.marks =
      (.closed inner.frame.branch true inner.position :: new) ++ state.marks := by
    rw [hview, List.cons_append, ← hnew]
    rfl
  have hmarks' : (lexer.scan .root (.alone bytes item.label.span)).marks =
      .closed inner.frame.branch false stopped.position :: stopped.marks := by
    rw [hmirror.branch]
    exact congrArg View.marks hview'
  have hplace : final.position = inner.position := congrArg View.position hview
  have hplace' : (lexer.scan .root (.alone bytes item.label.span)).position = stopped.position :=
    congrArg View.position hview'
  -- the mark that closes the item was made in a branch inside the root
  have hadmits := hpaced.admits
  rw [hmarks, List.reverse_append, List.reverse_cons, ← List.append_assoc,
    Draft.admits_concat] at hadmits
  have hopen := hadmits.2
  rw [Draft.takeAll, List.foldl_append] at hopen
  rw [draft_of_marks hmarks, hplace] at hdone
  have hlast := List.Forall₂.cons
    (Gauge.Marks.closed inner.frame.branch false hmirror.position) hsame
  rw [← hmarks'] at hlast
  obtain ⟨hkind, hsketch⟩ := lexer.exists_only_flagged htrails hlast (hplace' ▸ hmirror.position)
    ((begun_new hbegun hmarks).resolve_left fun h => by cases h.1) hopen hdone
  exact ⟨hkind, nodes, hsketch⟩

/-- **The last item of a source is the only item of its bytes.** -/
theorem last_alone (lexer : Lexer) (hmade : lexer.fragments.Made)
    (hitems : lexer.items { bytes := bytes } = front ++ [item]) :
    ∃ nodes only, lexer.items (.alone bytes item.label.span) = [only] ∧
      item.sketch 0 0 = only.sketch nodes item.label.span.start.byte := by
  obtain ⟨m, hpasses⟩ := lexer.exists_passes rfl hitems (List.cons_ne_nil _ _)
  have hreaches := lexer.reaches_of_passes hitems hpasses
  have hstop := lexer.stop_last hitems
  have hwhole : lexer.scan .root { bytes := bytes } = _ :=
    run_forget (initial_fresh .root { bytes := bytes }) hpasses.root hpasses.outer
      hpasses.running hpasses.mark
  generalize steps (lexer.scope { bytes := bytes }) m (initial .root { bytes := bytes }) = state
    at *
  -- up to the end of the source nothing is cut off, and the two scans go on alike throughout
  have hfresh := State.forget_fresh hpasses.outer hpasses.running
  have hmirror := run_agrees hmade (lexer.alone_mirrors (b := []) (Nat.le_of_lt hreaches.proper)
    (by rw [hstop]; exact List.drop_eq_nil_of_le (by simp)) hpasses hreaches.start) hfresh
    hpasses.root (initial_fresh .root _)
  rw [← hwhole, ← scope_alone, ← scan_eq] at hmirror
  have hbegan : Begun state.marks state.position state.forget.view := Or.inl ⟨rfl, rfl, rfl⟩
  have hbegun : Begun state.marks state.position (lexer.scan .root { bytes := bytes }).view := by
    rw [hwhole]
    exact (run_induction hfresh hbegan fun _ _ _ _ hstep h => h.step hstep).2.1
  exact lexer.only_of_mirrors hreaches hbegun hmirror hitems

/-- **So is an item that something follows**, but that a fragment is malformed alone. -/
theorem cut_alone (lexer : Lexer) (hmade : lexer.fragments.Made)
    (hitems : lexer.items { bytes := bytes } = front ++ item :: back) (hback : back ≠ []) :
    ∃ nodes valid only, lexer.items (.alone bytes item.label.span) = [only] ∧
      (item.flagged valid).sketch 0 0 = only.sketch nodes item.label.span.start.byte ∧
      (valid = item.label.valid ∨
        ∃ branch, item.label.kind = .branch branch ∧ branch.isFragment = true) := by
  obtain ⟨m, hpasses⟩ := lexer.exists_passes rfl hitems (List.cons_ne_nil _ _)
  obtain ⟨n, hthere⟩ := lexer.exists_passes_next rfl hitems hback hpasses
  have hreaches := lexer.reaches_of_passes hitems hpasses
  obtain ⟨-, -, hpaced⟩ := lexer.steps_laid { bytes := bytes } rfl (m + (n + 1))
  rw [steps_add] at hpaced
  generalize steps (lexer.scope { bytes := bytes }) m (initial .root { bytes := bytes }) = state
    at *
  have hfresh := State.forget_fresh hpasses.outer hpasses.running
  have hrest : (steps (lexer.scope { bytes := bytes }) (n + 1) state).rest =
      bytes.toList.drop item.label.span.stop.byte := by
    rw [hthere.rest, hthere.stands.1, Source.range_all]
  have hb : bytes.toList.drop item.label.span.stop.byte ≠ [] := by
    rw [← hrest]
    exact (running_iff.mp hthere.running).1
  rw [steps_forget hpasses.root hpasses.running hpasses.mark] at hthere hpaced hrest
  have hbegan : Begun state.marks state.position state.forget.view := Or.inl ⟨rfl, rfl, rfl⟩
  have hsteps : ∀ before after : View, before.Ready → before.halted = false → before.rest ≠ [] →
      Step (lexer.scope { bytes := bytes }) before after →
      Begun state.marks state.position before → Begun state.marks state.position after :=
    fun _ _ _ _ _ hstep h => h.step hstep
  obtain ⟨-, hbegun⟩ := steps_induction hsteps (n + 1) state.forget hfresh.ready hbegan
  have hcases := run_cut_cases hmade
    (lexer.alone_mirrors (Nat.le_of_lt hreaches.proper) rfl hpasses hreaches.start)
    (initial_fresh .root _) (.of_root hpasses.outer hpasses.root) hfresh.halted hb hrest
    hthere.outer
  rw [← scope_alone, ← scan_eq] at hcases
  -- the scan of the part stops like that of the whole, or inside a fragment that the latter closes
  rcases hcases with hmirror | ⟨inner, stopped, hfragment, hmirror, hclose, hclosed⟩
  · obtain ⟨nodes, only, honly, hsketch⟩ :=
      lexer.only_of_mirrors hreaches hbegun hmirror hthere.done
    exact ⟨nodes, _, only, honly, by rw [Item.flagged_self]; exact hsketch, Or.inl rfl⟩
  · obtain ⟨hkind, nodes, only, honly, hsketch⟩ :=
      lexer.only_of_closes hreaches hbegun hpaced hmirror hclose hclosed hthere.done
    exact ⟨nodes, false, only, honly, hsketch, Or.inr ⟨_, hkind, hfragment⟩⟩

/-- **An item of a source is the only item of its bytes**, but a fragment is malformed alone. -/
theorem item_alone (lexer : Lexer) (hmade : lexer.fragments.Made)
    (hitem : item ∈ lexer.items { bytes := bytes }) :
    ∃ nodes valid only, lexer.items (.alone bytes item.label.span) = [only] ∧
      (item.flagged valid).sketch 0 0 = only.sketch nodes item.label.span.start.byte ∧
      (valid = item.label.valid ∨
        ∃ branch, item.label.kind = .branch branch ∧ branch.isFragment = true) := by
  obtain ⟨front, back, hitems⟩ := List.append_of_mem hitem
  -- the last item is not cut, and every other one is
  by_cases hback : back = []
  · rw [hback] at hitems
    obtain ⟨nodes, only, honly, hsketch⟩ := lexer.last_alone hmade hitems
    exact ⟨nodes, _, only, honly, by rw [Item.flagged_self]; exact hsketch, Or.inl rfl⟩
  · exact lexer.cut_alone hmade hitems hback

end Lexer

/-! ## 2. One tree and a part of it

From items back to trees.  Both trees show their items, so a node of the part is found in the whole
at the identifier that the sketch gives it. -/

/-- Is it an interpolation or an annotation? -/
def Kind.isFragment : Kind → Bool
  | .branch form => form.isFragment
  | .leaf _ => false

/-- `node` is in the tree of some bytes what `there` is in the tree of more bytes, where so many
more nodes and bytes stand before it. -/
structure Node.Repeats (node : Node) (nodes bytes : Nat) (there : Node) : Prop where
  kind : node.kind = there.kind
  start : there.span.start.byte = node.span.start.byte + bytes
  stop : there.span.stop.byte = node.span.stop.byte + bytes
  children : there.children = node.children.map (· + nodes)

/-- A node that shows an item repeats one that shows the item further on. -/
theorem Tree.Shows.repeats {whole alone : Array UInt8} {item sub : Item} {there node : Node}
    {nodes start stop : Nat} {valid : Bool} (hthere : Tree.Shows whole item there)
    (hnode : Tree.Shows alone sub node) (hle : start ≤ stop)
    (halone : whole.extract start stop = alone)
    (hsketch : (item.flagged valid).sketch 0 0 = sub.sketch nodes start)
    (hinside : ∀ inner ∈ sub.subtrees, inner.label.span.stop.byte ≤ alone.size) :
    node.Repeats nodes start there ∧ node.valid = valid := by
  have hkind := Item.kind_eq hle halone hsketch hinside
  obtain ⟨label, below⟩ := item
  obtain ⟨label', below'⟩ := sub
  obtain ⟨hlabel, hbelow⟩ := Item.sketch_eq_iff.mp hsketch
  obtain ⟨-, -, hvalid, hstart, hstop⟩ := Label.behind_eq_iff.mp hlabel
  refine ⟨⟨?_, ?_, ?_, ?_⟩, hnode.valid.trans hvalid.symm⟩
  · rw [hnode.kind, hthere.kind, ← hkind]
    rfl
  · rw [hnode.span, hthere.span]
    exact hstart
  · rw [hnode.span, hthere.span]
    exact hstop
  · rw [hnode.children, hthere.children, List.map_toArray, List.map_map]
    exact congrArg List.toArray (Item.ids_of_sketches hbelow)

/-- A fragment that ends where the input does is malformed. -/
theorem Item.Sits.malformed {dialect : Dialect} {input : List UInt8} {item : Item}
    (h : Item.Sits dialect input item) (hstop : item.label.span.stop.byte = input.length)
    (hfragment : item.label.kind.isFragment = true) : item.label.valid = false := by
  cases h with
  | leaf => cases hfragment
  | branch proper inside named abut closing ends =>
    obtain ⟨hnone, hvalid, -⟩ := ends.of_fragment hfragment
    refine Bool.eq_false_iff.mpr fun htrue => (hvalid.mp htrue).1 ?_
    have hend := Nat.le_antisymm closing (Nat.sub_eq_zero_iff_le.mp hnone)
    exact List.drop_eq_nil_of_le (hstop ▸ hend ▸ Nat.le_refl _)

/-- The value of a name makes it no fragment. -/
theorem Item.isFragment_kind (source : Array UInt8) (item : Item) :
    (item.kind source).isFragment = item.label.kind.isFragment := by
  obtain ⟨⟨id, kind, valid, span⟩, below⟩ := item
  cases kind with
  | leaf leaf => rfl
  | branch branch => exact Branch.isFragment_withValue _ _

/-- The only item of a source is malformed if it is a fragment. -/
theorem Shown.malformed {dialect : Dialect} {bytes : Array UInt8} {tree : Tree} {only : Item}
    (h : Shown dialect bytes tree [only]) (hfragment : only.label.kind.isFragment = true) :
    only.label.valid = false := by
  have hsits := h.laid only List.mem_cons_self only (Rose.mem_subtrees_self only)
  refine hsits.malformed ?_ hfragment
  rw [Array.length_toList]
  exact h.abut.2

/-- What is inside an item with another flag is inside the item, but for the flag of the item
itself. -/
theorem Item.exists_flagged {item like : Item} {valid : Bool}
    (h : like ∈ (item.flagged valid).subtrees) :
    ∃ own ∈ item.subtrees, Item.flagged like.label.valid own = like ∧
      (own = item ∨ own = like) := by
  obtain ⟨label, below⟩ := item
  rcases Rose.mem_subtrees.mp h with rfl | hbelow
  · exact ⟨_, Rose.mem_subtrees_self _, rfl, Or.inl rfl⟩
  · exact ⟨like, Rose.mem_subtrees.mpr (Or.inr hbelow), like.flagged_self, Or.inr rfl⟩

section Repeats

variable {dialect : Dialect} {bytes part : Array UInt8} {tree alone : Tree} {items : List Item}
  {item only : Item} {nodes start stop : Nat} {valid : Bool}

/-- **Below the root of a part, every node repeats one of the whole**, if the item of the part has
the sketch of an item of the whole but for its flag. -/
theorem Shown.repeats (hwhole : Shown dialect bytes tree items) (hitem : item ∈ items)
    (halone : Shown dialect part alone [only]) (hle : start ≤ stop)
    (hpart : bytes.extract start stop = part)
    (hsketch : (item.flagged valid).sketch 0 0 = only.sketch nodes start) {i : NodeId}
    {node : Node} (hi : alone.node? i = some node) (hne : i ≠ Tree.root) :
    ∃ there, tree.node? (i + nodes) = some there ∧ node.Repeats nodes start there ∧
      node.valid = if i = only.label.id then valid else there.valid := by
  obtain ⟨sub, hsub, rfl, hshows, -, -⟩ := halone.exists_item hi hne
  rw [Rose.subtreesAll_cons, Rose.subtreesAll_nil, List.append_nil] at hsub
  obtain ⟨like, hlike, hsame⟩ := Item.exists_like hsketch hsub
  obtain ⟨own, hown, hflagged, hcases⟩ := Item.exists_flagged hlike
  obtain ⟨parent, hholds⟩ := (hwhole.held item hitem).of_mem hown
  obtain ⟨there, hthere, hownshows⟩ := hholds.shows
  have hinside : ∀ inner ∈ sub.subtrees, inner.label.span.stop.byte ≤ part.size := by
    intro inner hinner
    have hin := Rose.mem_subtrees_trans hinner hsub
    rw [← Array.length_toList]
    exact (halone.laid only List.mem_cons_self inner hin).inside
  rw [← hflagged] at hsame
  obtain ⟨hrepeats, hvalid⟩ := hownshows.repeats hshows hle hpart hsame hinside
  have hnumber : own.label.id = sub.label.id + nodes := by
    have hlabels := Item.label_of_sketch hsame
    rw [Item.label_flagged] at hlabels
    exact (Label.behind_eq_iff.mp hlabels).1
  have htops := Item.label_of_sketch hsketch
  rw [Item.label_flagged] at htops
  obtain ⟨hid, -, htopvalid, -, -⟩ := Label.behind_eq_iff.mp htops
  refine ⟨there, hnumber ▸ hthere, hrepeats, ?_⟩
  by_cases htop : sub.label.id = only.label.id
  · obtain ⟨top, hnode, htopshows⟩ := (halone.held only List.mem_cons_self).shows
    rw [← htop, hi, Option.some.injEq] at hnode
    rw [if_pos htop, hnode, htopshows.valid, ← htopvalid]
  · rcases hcases with rfl | rfl
    · exact absurd (Nat.add_right_cancel (hnumber.symm.trans hid)) htop
    · rw [if_neg htop, hvalid, hownshows.valid]

end Repeats

namespace Lexer

/-- **Tokens are read alike by themselves.**  The bytes of a child of the root, alone, make a root
with one child, and every node below that root is the node of the child with the same kind and flag,
the same children in the same order, and the same bytes, counted from where the child begins.
Only the child itself, if it is a fragment, is malformed alone whatever it was. -/
theorem tokenizeBytes_isolated {dialect : Dialect} {lexer : Lexer}
    (hlexer : ofDialect dialect = .ok lexer) (bytes : Array UInt8) {id : NodeId} {child : Node}
    (hchild : id ∈ (lexer.tokenizeBytes bytes).tree.children Tree.root)
    (hnode : (lexer.tokenizeBytes bytes).tree.node? id = some child) {alone : Tree}
    (halone : (lexer.tokenizeBytes
      (bytes.extract child.span.start.byte child.span.stop.byte)).tree = alone) :
    ∃ first nodes, alone.children Tree.root = #[first] ∧ first + nodes = id ∧
      ∀ i node, i ≠ Tree.root → alone.node? i = some node →
        ∃ there, (lexer.tokenizeBytes bytes).tree.node? (i + nodes) = some there ∧
          node.Repeats nodes child.span.start.byte there ∧
          node.valid =
            if i = first ∧ child.kind.isFragment = true then false else there.valid := by
  obtain ⟨item, hitem, rfl, hshows⟩ := lexer.exists_item_of_mem_children hchild hnode
  obtain ⟨nodes, valid, only, honly, hsketch, hflag⟩ :=
    lexer.item_alone (ofDialect_made hlexer) hitem
  have hproper := (lexer.sits_of_mem hitem).proper
  rw [hshows.span] at halone ⊢
  have hshown : Shown lexer.dialect
      (bytes.extract item.label.span.start.byte item.label.span.stop.byte) alone [only] := by
    rw [← halone, ← honly]
    exact lexer.tokenizeBytes_shown _
  have hlabel := Item.label_of_sketch hsketch
  rw [Item.label_flagged] at hlabel
  obtain ⟨hid, hkind, hvalid, -, -⟩ := Label.behind_eq_iff.mp hlabel
  have hfragment : child.kind.isFragment = item.label.kind.isFragment := by
    rw [hshows.kind, Item.isFragment_kind]
  obtain ⟨root, hroot, -, -, -, -, hchildren⟩ := hshown.root
  refine ⟨only.label.id, nodes, ?_, hid.symm, ?_⟩
  · rw [Tree.children, hroot]
    exact hchildren
  intro i node hne hi
  obtain ⟨there, hthere, hrepeats, hsame⟩ := (lexer.tokenizeBytes_shown bytes).repeats hitem hshown
    (Nat.le_of_lt hproper) rfl hsketch hi hne
  refine ⟨there, hthere, hrepeats, hsame.trans ?_⟩
  by_cases htop : i = only.label.id
  · obtain rfl : child = there := by
      rw [htop, ← hid, hnode] at hthere
      exact Option.some.inj hthere
    rw [if_pos htop]
    cases hcase : child.kind.isFragment with
    | true =>
      rw [if_pos ⟨htop, rfl⟩, ← hshown.malformed (hkind ▸ hfragment ▸ hcase)]
      exact hvalid
    | false =>
      rw [if_neg fun h => Bool.false_ne_true h.2, hshows.valid]
      refine hflag.resolve_right ?_
      rintro ⟨branch, hbranch, hmalformed⟩
      rw [hfragment, hbranch] at hcase
      exact Bool.false_ne_true (hcase.symm.trans hmalformed)
  · rw [if_neg htop, if_neg fun h => htop h.1]

/-- A lexer of plain CSS with interpolations between `#{` and `}`. -/
def interpolating : Lexer :=
  ((ofDialect { Dialect.standard with quasiDefinitions := [{}] }).toOption).getD
    ⟨Dialect.standard, Fragments.empty⟩

/-- An interpolation between two separators is well-formed there, and malformed by itself; the
identifier inside its group is well-formed in both. -/
theorem interpolation_isolated :
    ∃ lexer child first nodes,
      ofDialect { Dialect.standard with quasiDefinitions := [{}] } = .ok lexer ∧
      (lexer.tokenizeBytes #[0x3B, 0x23, 0x7B, 0x61, 0x7D, 0x3B]).tree.node? 2 = some child ∧
      child.valid = true ∧ child.span.start.byte = 1 ∧ child.span.stop.byte = 5 ∧
      (lexer.tokenizeBytes #[0x23, 0x7B, 0x61, 0x7D]).tree.children Tree.root = #[first] ∧
      first + nodes = 2 ∧
      ∀ i node, i ≠ Tree.root →
        (lexer.tokenizeBytes #[0x23, 0x7B, 0x61, 0x7D]).tree.node? i = some node →
        ∃ there, (lexer.tokenizeBytes #[0x3B, 0x23, 0x7B, 0x61, 0x7D, 0x3B]).tree.node?
            (i + nodes) = some there ∧
          node.Repeats nodes 1 there ∧ node.valid = if i = first then false else there.valid := by
  have hlexer : ofDialect { Dialect.standard with quasiDefinitions := [{}] } =
      .ok interpolating := by rfl
  have hchild : 2 ∈ (interpolating.tokenizeBytes
      #[0x3B, 0x23, 0x7B, 0x61, 0x7D, 0x3B]).tree.children Tree.root :=
    Array.mem_toList_iff.mp (by decide)
  have hthere : ((interpolating.tokenizeBytes
      #[0x3B, 0x23, 0x7B, 0x61, 0x7D, 0x3B]).tree.node? 2).map (fun node =>
        (node.kind.isFragment, node.valid, node.span.start.byte, node.span.stop.byte)) =
      some (true, true, 1, 5) := by decide
  obtain ⟨child, hnode, hfacts⟩ := Option.map_eq_some_iff.mp hthere
  simp only [Prod.mk.injEq] at hfacts
  obtain ⟨hfragment, hvalid, hstart, hstop⟩ := hfacts
  obtain ⟨first, nodes, hfirst, hsum, hall⟩ :=
    tokenizeBytes_isolated hlexer #[0x3B, 0x23, 0x7B, 0x61, 0x7D, 0x3B] hchild hnode
      (congrArg (fun part => (interpolating.tokenizeBytes part).tree)
        (show _ = #[0x23, 0x7B, 0x61, 0x7D] by rw [hstart, hstop]; rfl))
  simp only [hstart, hfragment, and_true] at hall
  exact ⟨interpolating, child, first, nodes, hlexer, hnode, hvalid, hstart, hstop, hfirst, hsum,
    hall⟩

end Lexer
end StyleLex
