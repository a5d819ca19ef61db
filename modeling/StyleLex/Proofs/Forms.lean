/-
# Fragments have the shape of their forms

A fragment takes nothing when it is opened.  Its operators and its group are read by the readers of
those, one after the other, and it closes as soon as a group is complete.  Nevertheless they are
those of its form (`Lexer.fragments_formed`): in front of the source stand the operators that were
read and the opening bracket of the group, and in front of it stands the pattern of the form, and
no two patterns share a place.

What opens a fragment, and a group, is known where it is opened (`Fragments.Opening`).

The difficulty is that a fragment is opened by one decision and filled by others.  The table is
asked when the fragment opens, and says that a pattern is ahead.  Then single operators are read,
each without regard to the pattern, and the fragment could in principle read more of them, or fewer,
than the pattern has.  It does not, as the pattern ends with an opening bracket and no operator is
one: whatever reads operators up to a bracket reads this pattern.  Uniqueness of the pattern at a
place is all that is used (`IsPattern.eq_of_starts`).
-/
import StyleLex.Proofs.Dialects
import StyleLex.Proofs.Scan.Opened
import StyleLex.Proofs.Scan.Taking
import StyleLex.Proofs.Schema

namespace StyleLex

/-! ## 1. Where fragments are opened

A rule for openings says of each branch what is true at the place where it is opened, and is checked
reader by reader.  Of a fragment it says that the table has its form there. -/

/-- A fragment is opened where the tables have its form for the context and the bytes ahead, and a
group where its opening bracket is. -/
def Fragments.Opening (fragments : Fragments) (input : List UInt8) : OpeningRule
  | around, place, .quasi form =>
    fragments.quasiAt? around.context (input.drop place) = some form
  | _, place, Branch.annotation form placement =>
    fragments.annotationAt? (input.drop place) = some (form, placement)
  | _, place, .group bracket => (input.drop place).head? = some bracket.opener
  | _, _, _ => True

/-- What is true where a branch was opened stays true while it is read. -/
theorem Fragments.opening_steady (fragments : Fragments) (input : List UInt8) :
    (fragments.Opening input).Steady := by
  refine ⟨fun {around around' branch branch' place} haround hbranch h => ?_⟩
  cases hbranch with
  | refl =>
    cases haround with
    | refl => exact h
    | hash => cases branch <;> exact h
  | hash => trivial

namespace Scan

variable {scope : Scope} {state after : State} {input : List UInt8}

/-- The reader of interpolations opens what the table gives it. -/
theorem readQuasiOpening_opens (hrest : state.rest = input.drop state.position.byte)
    (h : readQuasiOpening scope state = some after) :
    state.view.Keeps (scope.fragments.Opening input) after.view := by
  obtain ⟨entry, hfound, rfl⟩ := Option.map_eq_some_iff.mp h
  refine openBranch_adds fun branch hbranch => ?_
  cases hbranch
  show scope.fragments.quasiAt? state.context (input.drop state.position.byte) = _
  rw [Fragments.quasiAt?, ← hrest, hfound]
  rfl

/-- So does the reader of annotations. -/
theorem readAnnotationOpening_opens (hrest : state.rest = input.drop state.position.byte)
    (h : readAnnotationOpening scope state = some after) :
    state.view.Keeps (scope.fragments.Opening input) after.view := by
  obtain ⟨entry, hfound, rfl⟩ := Option.map_eq_some_iff.mp h
  refine openBranch_adds fun branch hbranch => ?_
  cases hbranch
  show scope.fragments.annotationAt? (input.drop state.position.byte) = _
  rw [Fragments.annotationAt?, ← hrest, hfound]
  rfl

/-- The reader of groups opens one where its bracket is. -/
theorem readGroupOpening_opens (hrest : state.rest = input.drop state.position.byte)
    (h : readGroupOpening scope state = some after) :
    state.view.Keeps (scope.fragments.Opening input) after.view := by
  unfold readGroupOpening at h
  split at h
  · rename_i b tail hahead
    obtain ⟨bracket, hbracket, rfl⟩ := Option.map_eq_some_iff.mp h
    refine enter_adds (fun branch hbranch => ?_) 1
    cases hbranch
    show (input.drop state.position.byte).head? = some bracket.opener
    rw [← hrest, hahead, Bracket.opener_of_ofOpener? hbracket]
    rfl
  · cases h

/-- **Fragments and groups are opened where they stand.** -/
theorem readNext_opens (scope : Scope) (hrest : state.rest = input.drop state.position.byte) :
    state.view.Keeps (scope.fragments.Opening input) (readNext scope state).view := by
  have hleaf : ∀ leaf : Leaf, ∀ branch, Kind.leaf leaf = .branch branch →
      scope.fragments.Opening input state.view.frame.branch state.view.position.byte branch := by
    intro leaf branch hbranch
    cases hbranch
  -- all other branches may be opened anywhere, as far as this rule goes
  have hother : ∀ other : Branch, other.isFragment = false →
      (Kind.branch other).isGroup = false → ∀ branch, Kind.branch other = .branch branch →
      scope.fragments.Opening input state.view.frame.branch state.view.position.byte branch := by
    intro other hfragment hgroup branch hbranch
    cases hbranch
    cases other with
    | group bracket => cases hgroup
    | quasi form => cases hfragment
    | annotation form placement => cases hfragment
    | _ => trivial
  refine readNext_of_readers
    (P := fun after => state.view.Keeps (scope.fragments.Opening input) after.view)
    (adds_of_marks rfl) ?_
  simp only [readers, List.forall_mem_cons]
  exact ⟨fun _ => readBlank_adds (hleaf _), fun _ => readNumeral_adds fun _ => hleaf _,
    fun _ => readCdx_adds fun _ => hleaf _, fun _ => readSeparator_adds fun _ => hleaf _,
    fun _ => readOperator_adds fun _ => hleaf _, fun _ => readEscape_adds fun _ => hleaf _,
    fun _ => readContinuation_adds (hleaf _), fun _ => readRaw_adds (hleaf _),
    fun _ => readUnexpected_adds (hleaf _), fun _ => readGroupOpening_opens hrest,
    fun _ => readGroupClosing_adds, fun _ => readQuotedOpening_adds fun _ => hother _ rfl rfl,
    fun _ => readQuotedClosing_adds, fun _ => readUrlOpening_adds (hother _ rfl rfl),
    fun _ => readUrlClosing_adds, fun _ => readCommentOpening_adds fun _ => hother _ rfl rfl,
    fun _ => readUrlComment_adds fun _ => hother _ rfl rfl,
    fun _ => readBlockOpening_adds fun _ => hother _ rfl rfl, fun _ => readBlockClosing_adds,
    fun _ => readLineClosing_adds, fun _ => readQuasiOpening_opens hrest,
    fun _ => readAnnotationOpening_opens hrest, fun _ => readFragmentClosing_adds,
    fun _ => readIdentifierOpening_adds (hother _ rfl rfl), fun _ => readIdentifierClosing_adds,
    fun _ => readNameRun_adds (hleaf _),
    fun _ => readHashOpening_adds fun _ _ => hother _ rfl rfl,
    fun _ => readHashEscape_adds fun _ => hleaf _, fun _ => readHashRun_adds (hleaf _),
    fun _ => readHashClosing_adds_none, List.forall_mem_nil _⟩

end Scan

/-! ## 2. The items of a fragment

The children of a fragment are operators and one group, by the schema.  Reading them off the source
gives a row of bytes, and this row is compared with the pattern. -/

/-- A bracket is known by its opener. -/
theorem Bracket.opener_injective {bracket other : Bracket} (h : bracket.opener = other.opener) :
    bracket = other := by
  have hopens := congrArg Bracket.ofOpener? h
  simpa [Bracket.ofOpener?_opener] using hopens

namespace Item

variable {dialect : Dialect} {input : List UInt8}

/-- **Operators that follow each other are the bytes where they stand.** -/
theorem operators_spell : ∀ {a c : Nat} {items : List Item}, Abut a items c →
    (∀ item ∈ items, item.label.kind.isOperator = true) →
    (∀ item ∈ items, Says dialect input item) →
    ∃ operators : List UInt8, items.map (·.label.kind) = operators.map (.leaf <| .operator ·) ∧
      (∀ b ∈ operators, Byte.isOperator b = true) ∧ input.drop a = operators ++ input.drop c
  | _, _, [], habut, _, _ => ⟨[], rfl, nofun, congrArg input.drop habut⟩
  | a, c, item :: rest, habut, hoperators, hspoken => by
    obtain ⟨more, hkinds, hmore, hbytes⟩ := operators_spell habut.2
      (fun item hin => hoperators item (List.mem_cons_of_mem _ hin))
      fun item hin => hspoken item (List.mem_cons_of_mem _ hin)
    obtain ⟨b, hkind⟩ : ∃ b, item.label.kind = .leaf (.operator b) := by
      have hfirst := hoperators item List.mem_cons_self
      unfold Kind.isOperator at hfirst
      split at hfirst
      · exact ⟨_, ‹_›⟩
      · cases hfirst
    obtain ⟨n, htakes, hstop⟩ := (hspoken item List.mem_cons_self).leaf _ hkind
    rw [habut.1] at htakes hstop
    cases htakes with
    | operator ahead operates =>
      have hlt : a < input.length := by
        rw [List.head?_drop] at ahead
        exact (List.getElem?_eq_some_iff.mp ahead).1
      have hcons : input.drop a = b :: input.drop (a + 1) := by
        rw [List.drop_eq_getElem_cons hlt] at ahead ⊢
        rw [Option.some.inj ahead]
      refine ⟨b :: more, ?_, List.forall_mem_cons.mpr ⟨operates, hmore⟩, ?_⟩
      · rw [List.map_cons, hkind, hkinds]
        rfl
      · rw [hcons, show a + 1 = item.label.span.stop.byte by omega, hbytes]
        rfl

/-- The shape of a fragment: the operators and the bracket of its form.  The pattern of the form
stands where the fragment begins, and the fragment ends with its group. -/
structure Formed (input : List UInt8) (item : Item) (form : String) (operators : List UInt8)
    (bracket : Bracket) : Prop where
  spelled : Utf8.encode form = operators ++ [bracket.opener, bracket.closer]
  stands : operators ++ [bracket.opener] <+: input.drop item.label.span.start.byte
  children : ∃ front group, item.children = front ++ [group] ∧
    front.map (·.label.kind) = operators.map (.leaf <| .operator ·) ∧
    group.label.kind = .branch (.group bracket) ∧
    item.label.span.stop.byte = group.label.span.stop.byte

/-- **A fragment that was opened where a form stands has the shape of that form.** -/
theorem formed {nesting : Bool} {fragments : Fragments} {item : Item} {branch : Branch}
    {form : String} (hkind : item.label.kind = .branch branch)
    (hfragment : branch.isFragment = true) (hschematic : item.Schematic nesting)
    (hsits : Sits dialect input item) (hspoken : ∀ child ∈ item.children, Says dialect input child)
    (hopened : ∀ child ∈ item.children, OpenedIn (fragments.Opening input) branch child)
    (hstands : Stands form (input.drop item.label.span.start.byte)) :
    ∃ operators bracket, Formed input item form operators bracket := by
  obtain ⟨⟨id, kind, valid, span⟩, below⟩ := item
  obtain rfl : kind = .branch branch := hkind
  have hshape : branch.Shape nesting (below.map (·.label.kind)) :=
    hschematic _ (Rose.mem_subtrees_self _)
  obtain ⟨kinds, bracket, hkinds, hoperators⟩ := hshape.fragment hfragment
  obtain ⟨front, back, rfl, rfl, hback⟩ := List.map_eq_append_iff.mp hkinds
  obtain ⟨group, rfl, hgroup⟩ := List.map_eq_singleton_iff.mp hback
  cases hsits with
  | @branch _ _ _ _ _ inner proper inside named abut closing ends =>
    obtain ⟨hfront, hlast⟩ := abut_split abut
    rw [Branch.openerLength_of_isFragment hfragment, Nat.add_zero] at hfront
    obtain ⟨operators, hfrontkinds, hall, hbytes⟩ := operators_spell hfront
      (fun child hchild => hoperators _ (List.mem_map_of_mem hchild))
      fun child hchild => hspoken child (List.mem_append_left _ hchild)
    have hopener : (input.drop group.label.span.start.byte).head? = some bracket.opener :=
      hopened group (List.mem_append_right _ (List.mem_singleton_self group)) _ hgroup
    obtain ⟨tail, hahead⟩ := List.head?_eq_some_iff.mp hopener
    have hread : operators ++ [bracket.opener] <+: input.drop span.start.byte :=
      ⟨tail, by rw [hbytes, hahead, List.append_assoc, List.singleton_append]⟩
    -- the pattern of the form stands there too
    obtain ⟨pattern, hpattern, hstanding⟩ := hstands
    obtain rfl := (isPattern_of_patternOf hpattern).eq_of_starts ⟨operators, bracket, rfl, hall⟩
      hstanding hread
    obtain ⟨operators', bracket', hsame, hform, -⟩ := patternOf_eq_ok hpattern
    obtain ⟨-, hopeners⟩ := List.append_inj' hsame rfl
    obtain rfl := Bracket.opener_injective (List.singleton_inj.mp hopeners)
    refine ⟨operators, bracket, ?_, hread, front, group, rfl, hfrontkinds, hgroup, ?_⟩
    · rw [hform, List.append_assoc, List.singleton_append]
    · have hnothing := (ends.of_fragment hfragment).1
      show span.stop.byte = _
      omega

end Item

/-! ## 3. Forms that are defined

From the tables back to the definitions: an entry is there because some definition put it there. -/

/-- `dialect.Defines around branch form`: the dialect has the form of a fragment in this branch.  An
interpolation is defined for the context, and an annotation, with its placement, for roots and
groups. -/
inductive Dialect.Defines (dialect : Dialect) (around : Branch) : Branch → String → Prop where
  | interpolated {form : String} (interpolates : dialect.Interpolates around.context form) :
      Defines dialect around (.quasi form) form
  | annotated {form : String} {placement : Placement}
      (placed : dialect.placementOf? form = some placement)
      (outside : around = .root ∨ ∃ bracket, around = .group bracket) :
      Defines dialect around (Branch.annotation form placement) form

/-- A value changes nothing of what is defined. -/
theorem Dialect.Defines.withValue {dialect : Dialect} {around branch : Branch} {form : String}
    (h : dialect.Defines around branch form) (value : String) :
    dialect.Defines (Tree.withValue value around) branch form := by
  have hcontext : (Tree.withValue value around).context = around.context := by
    cases around <;> rfl
  cases h with
  | interpolated interpolates => exact .interpolated (hcontext ▸ interpolates)
  | annotated placed outside =>
    refine .annotated placed ?_
    rcases outside with rfl | ⟨bracket, rfl⟩
    · exact Or.inl rfl
    · exact Or.inr ⟨bracket, rfl⟩

/-- Only roots and groups hold annotations. -/
theorem Branch.group_of_holds {nesting : Bool} {around : Branch} {form : String}
    {placement : Placement}
    (h : around.holds nesting (.branch (Branch.annotation form placement)) = true) :
    around = .root ∨ ∃ bracket, around = .group bracket := by
  cases around with
  | root => exact Or.inl rfl
  | group bracket => exact Or.inr ⟨bracket, rfl⟩
  | comment form => cases form <;> cases h
  | _ => cases h

/-- **What opens a fragment is a form that is defined and stands there.** -/
theorem Fragments.Opening.defined {dialect : Dialect} {lexer : Lexer}
    (hlexer : Lexer.ofDialect dialect = .ok lexer) {nesting : Bool} {input : List UInt8}
    {around branch : Branch} {place : Nat}
    (h : lexer.fragments.Opening input around place branch) (hfragment : branch.isFragment = true)
    (hheld : around.holds nesting (.branch branch) = true) :
    ∃ form, dialect.Defines around branch form ∧ Stands form (input.drop place) := by
  have hmade := Lexer.ofDialect_made hlexer
  obtain ⟨hinterpolates, hplacement⟩ :=
    Fragments.ofDialect_defined (Lexer.fragments_of_ofDialect hlexer)
  cases branch with
  | quasi form =>
    obtain ⟨hdefined, hstands⟩ := (Fragments.quasiAt?_eq_some hmade).mp h
    exact ⟨form, .interpolated ((hinterpolates _ _).mp hdefined), hstands⟩
  | annotation form placement =>
    have hfound : lexer.fragments.annotationAt? (input.drop place) = some (form, placement) := h
    have hstands : Stands form (input.drop place) := by
      obtain ⟨entry, hentry, heq⟩ := Option.map_eq_some_iff.mp hfound
      obtain ⟨rfl, -⟩ := Prod.mk.inj heq
      refine ⟨entry.pattern, hmade.annotations entry (List.mem_of_find?_eq_some hentry), ?_⟩
      exact List.isPrefixOf_iff_prefix.mp (by simpa using List.find?_some hentry)
    rw [Fragments.annotationAt?_of_stands hmade hstands] at hfound
    obtain ⟨found, hplaced, heq⟩ := Option.map_eq_some_iff.mp hfound
    obtain ⟨-, rfl⟩ := Prod.mk.inj heq
    exact ⟨form, .annotated ((hplacement form).symm.trans hplaced) (Branch.group_of_holds hheld),
      hstands⟩
  | _ => cases hfragment

/-! ## 4. The tree of a source

A fragment is never the root, so there is a branch around it, and the definition is one for the
context of that branch. -/

/-- A fragment has the shape of its form: the form without its last byte stands where the fragment
begins, the children are the operators of the form and then the group of its bracket, and the
fragment ends where that group does. -/
structure Tree.Formed (tree : Tree) (bytes : Array UInt8) (node : Node) (form : String)
    (operators : List UInt8) (bracket : Bracket) : Prop where
  spelled : Utf8.encode form = operators ++ [bracket.opener, bracket.closer]
  stands : (Utf8.encode form).dropLast <+: bytes.toList.drop node.span.start.byte
  children : node.children.toList.map tree.kind? =
    operators.map (fun b => some (.leaf (.operator b))) ++ [some (.branch (.group bracket))]
  ends : ∃ (last : NodeId) (group : Node), node.children.back? = some last ∧
    tree.node? last = some group ∧ node.span.stop.byte = group.span.stop.byte

/-- A node that shows a fragment has its shape. -/
theorem Tree.Formed.of_item {tree : Tree} {bytes : Array UInt8} {node : Node} {item : Item}
    {form : String} {operators : List UInt8} {bracket : Bracket}
    (h : item.Formed bytes.toList form operators bracket) (hshows : Shows bytes item node)
    (hheld : ∀ child ∈ item.children, tree.Holds bytes (some item.label.id) child) :
    tree.Formed bytes node form operators bracket := by
  obtain ⟨front, group, hchildren, hfront, hgroup, hstop⟩ := h.children
  have hkinds : item.children.map (Item.kind bytes) =
      operators.map (.leaf <| .operator ·) ++ [.branch (.group bracket)] := by
    have hvalued : ∀ child : Item, ∀ kind : Kind, child.label.kind = kind →
        child.kind bytes = kind.valued (Item.textAll bytes child.children) := by
      rintro child _ rfl
      exact Item.kind_eq_valued bytes child
    rw [hchildren, List.map_append, List.map_singleton, hvalued group _ hgroup]
    refine congrArg (· ++ _) ?_
    rw [← hfront]
    refine List.map_congr_left fun child hchild => ?_
    have hoperator : child.label.kind ∈ operators.map (Kind.leaf <| .operator ·) :=
      hfront ▸ List.mem_map_of_mem hchild
    obtain ⟨b, -, hb⟩ := List.mem_map.mp hoperator
    rw [hvalued child _ hb.symm, ← hb]
    rfl
  refine ⟨h.spelled, ?_, ?_, ?_⟩
  · rw [h.spelled, List.append_cons, List.dropLast_concat, hshows.span]
    exact h.stands
  · rw [Tree.map_kind?_children hshows.children hheld, hkinds, List.map_append, List.map_map]
    rfl
  · have hlast : group ∈ item.children := hchildren ▸ List.mem_append_right _ (by simp)
    obtain ⟨found, hfound, hshown⟩ := (hheld group hlast).shows
    refine ⟨group.label.id, found, ?_, hfound, ?_⟩
    · rw [hshows.children, hchildren, List.back?_toArray, List.map_append, List.map_singleton,
        List.getLast?_concat]
    · rw [hshows.span, hshown.span]
      exact hstop

/-- Where an item stands: the branch around it, which holds it and in which it was opened. -/
theorem Shown.exists_around {nesting : Bool} {dialect : Dialect} {bytes : Array UInt8}
    {tree : Tree} {items : List Item} {rule : OpeningRule} (h : Shown dialect bytes tree items)
    (hschematic : ∀ item ∈ items, item.label.kind.inGroup = true ∧ item.Schematic nesting)
    (hobeys : ∀ item ∈ items, Item.Obeys rule .root item) {item : Item}
    (hitem : item ∈ Rose.subtreesAll items) :
    ∃ (parent : NodeId) (around : Branch) (value : String),
      tree.parent? item.label.id = some parent ∧
      tree.kind? parent = some (.branch (Tree.withValue value around)) ∧
      around.holds nesting item.label.kind = true ∧ Item.OpenedIn rule around item := by
  rcases Rose.mem_or_exists_parentAll hitem with htop | ⟨above, habove, hchild⟩
  · obtain ⟨root, hroot, hrootkind, -⟩ := h.root
    refine ⟨Tree.root, .root, "", (h.held item htop).parent?_label, ?_, (hschematic item htop).1,
      (hobeys item htop).1⟩
    rw [Tree.kind?, hroot, Option.map_some, hrootkind]
    rfl
  · obtain ⟨top, htop, hin⟩ := Rose.mem_subtreesAll.mp habove
    obtain ⟨node, hnode, hshows, hheld⟩ := h.exists_node habove
    have hown := (hschematic top htop).2 above hin
    cases hkind : above.label.kind with
    | leaf leaf =>
      rw [hkind] at hown
      rw [show above.children = [] from hown] at hchild
      cases hchild
    | branch around =>
      rw [hkind] at hown
      refine ⟨above.label.id, around, Item.textAll bytes above.children,
        (hheld item hchild).parent?_label, ?_, hown.held _ (List.mem_map_of_mem hchild),
        (hobeys top htop).2 above hin around hkind item hchild⟩
      rw [Tree.kind?, hnode, Option.map_some, hshows.kind, Item.kind_eq_valued, hkind]
      rfl

namespace Lexer

/-- **Every fragment of a source has the shape of its form**, and the form is defined where the
fragment stands. -/
theorem fragments_formed {dialect : Dialect} {lexer : Lexer}
    (hlexer : Lexer.ofDialect dialect = .ok lexer) {bytes : Array UInt8} {id : NodeId}
    {node : Node} {branch : Branch}
    (hnode : (lexer.tokenizeBytes bytes).tree.node? id = some node)
    (hkind : node.kind = .branch branch) (hfragment : branch.isFragment = true) :
    ∃ (parent : NodeId) (around : Branch) (form : String) (operators : List UInt8)
      (bracket : Bracket),
      (lexer.tokenizeBytes bytes).tree.parent? id = some parent ∧
      (lexer.tokenizeBytes bytes).tree.kind? parent = some (.branch around) ∧
      dialect.Defines around branch form ∧
      (lexer.tokenizeBytes bytes).tree.Formed bytes node form operators bracket := by
  have hshown := lexer.tokenizeBytes_shown bytes
  have hne : id ≠ Tree.root := by
    rintro rfl
    obtain ⟨root, hroot, hrootkind, -⟩ := hshown.root
    rw [hnode, Option.some.injEq] at hroot
    rw [← hroot, hkind, Kind.branch.injEq] at hrootkind
    exact Branch.ne_root_of_isFragment hfragment hrootkind
  obtain ⟨item, hitem, rfl, hshows, hsits, hheld⟩ := hshown.exists_item hnode hne
  -- a fragment has no value, so the item is of the kind of its node
  have hlabel : item.label.kind = .branch branch := by
    have hvalued := hshows.kind.symm.trans hkind
    rw [Item.kind_eq_valued] at hvalued
    cases hinner : item.label.kind with
    | leaf leaf =>
      rw [hinner] at hvalued
      cases hvalued
    | branch inner =>
      rw [hinner] at hvalued
      obtain rfl := Kind.branch.inj hvalued
      rw [Branch.isFragment_withValue] at hfragment
      cases inner <;> first | rfl | cases hfragment
  obtain ⟨-, hschematic⟩ := scan_schematic (ofDialect_made hlexer) { bytes := bytes }
    (blank { bytes := bytes }) rfl rfl rfl
  have hobeys := lexer.items_opened bytes (lexer.fragments.opening_steady bytes.toList)
    fun state hrest _ => Scan.readNext_opens (lexer.scope { bytes := bytes }) hrest
  obtain ⟨parent, around, value, hparent, haround, hholds, hopened⟩ :=
    hshown.exists_around hschematic hobeys hitem
  rw [hlabel] at hholds
  -- the definition that the fragment was opened by
  obtain ⟨form, hdefined, hstands⟩ :=
    (hopened branch hlabel).defined hlexer hfragment hholds
  obtain ⟨top, htop, hin⟩ := Rose.mem_subtreesAll.mp hitem
  have hread := Item.read_iff.mp fun sub hsub =>
    lexer.items_read bytes top htop sub (Rose.mem_subtrees_trans hsub hin)
  obtain ⟨operators, bracket, hformed⟩ := Item.formed hlabel hfragment
    (fun sub hsub => (hschematic top htop).2 sub (Rose.mem_subtrees_trans hsub hin)) hsits
    (fun child hchild => (Item.read_iff.mp (hread.2 child hchild)).1)
    ((hobeys top htop).2 item hin branch hlabel) hstands
  exact ⟨parent, Tree.withValue value around, form, operators, bracket, hparent, haround,
    hdefined.withValue value, .of_item hformed hshows hheld⟩

/-- An annotation of three operators and a group: `@!#(a)`. -/
theorem long_annotation_formed :
    ∃ (lexer : Lexer) (node : Node), Lexer.ofDialect
        { Dialect.standard with annotationDefinitions := [⟨.inner, "@!#()"⟩] } = .ok lexer ∧
      (lexer.tokenizeBytes #[0x40, 0x21, 0x23, 0x28, 0x61, 0x29]).tree.node? 1 = some node ∧
      node.kind = .branch (Branch.annotation "@!#()" .inner) ∧
      ∃ (parent : NodeId) (around : Branch) (form : String) (operators : List UInt8)
        (bracket : Bracket),
        (lexer.tokenizeBytes #[0x40, 0x21, 0x23, 0x28, 0x61, 0x29]).tree.parent? 1 = some parent ∧
        (lexer.tokenizeBytes #[0x40, 0x21, 0x23, 0x28, 0x61, 0x29]).tree.kind? parent =
          some (.branch around) ∧
        Dialect.Defines { Dialect.standard with annotationDefinitions := [⟨.inner, "@!#()"⟩] }
          around (Branch.annotation "@!#()" .inner) form ∧
        (lexer.tokenizeBytes #[0x40, 0x21, 0x23, 0x28, 0x61, 0x29]).tree.Formed
          #[0x40, 0x21, 0x23, 0x28, 0x61, 0x29] node form operators bracket := by
  obtain ⟨lexer, hlexer, hkind⟩ : ∃ lexer, Lexer.ofDialect
        { Dialect.standard with annotationDefinitions := [⟨.inner, "@!#()"⟩] } = .ok lexer ∧
      (lexer.tokenizeBytes #[0x40, 0x21, 0x23, 0x28, 0x61, 0x29]).tree.kind? 1 =
        some (.branch (Branch.annotation "@!#()" .inner)) := ⟨_, rfl, by decide +kernel⟩
  obtain ⟨node, hnode, hbranch⟩ := Option.map_eq_some_iff.mp hkind
  exact ⟨lexer, node, hlexer, hnode, hbranch, fragments_formed hlexer hnode hbranch rfl⟩

end Lexer
end StyleLex
