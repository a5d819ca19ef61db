/-
# Each malformed construct is reported once

A report has one diagnostic for each outermost malformed node.  From any malformed node the way up
through malformed nodes ends at one of them, and at one only, since a node has one parent.

That they come in the order of the source, and no two of them begin at one place, needs more than
the order of the walk: a name or a fragment begins where its first child does.  But such a branch
holds no other one, so of two nodes that begin at one place the second is right below the first
(`Item.precedes_below`), and then the two are not both outermost.

The three numbers that a report is judged by are made at different places: the flag of a report is a
count over the tree, its diagnostics are a list, and the recoveries were counted by the scan.  That
they are zero together is the claim of `Report.TellsOnce`, and it goes through one statement, that
no node is malformed.

A recovery and a diagnostic are not one to one.  A run of unexpected bytes may have several
recoveries, and a branch that was cut off inside another one has a recovery of its own but no
diagnostic.
-/
import StyleLex.Proofs.Counts
import StyleLex.Proofs.ExitStatus
import StyleLex.Proofs.Schema
import StyleLex.Proofs.Tree.Shape

namespace StyleLex

/-! ## 1. Where items begin

Items are listed in the order of the walk, and it is shown that their beginnings ascend strictly, up
to one exception.  The exception is carried along in the order itself (`Item.Precedes`). -/

/-- A branch that may begin where its first child does holds no other one. -/
theorem Branch.openerLength_pos_of_held {nesting : Bool} {branch inner : Branch}
    (h : branch.isName = true ∨ branch.isFragment = true)
    (hheld : branch.holds nesting (.branch inner) = true) : 0 < inner.openerLength := by
  cases branch with
  | identifier | hash => cases inner <;> cases hheld
  | quasi | annotation =>
    cases inner with
    | group bracket => exact Nat.one_pos
    | _ => cases hheld
  | _ => exact absurd h (by simp [isName, isFragment])

namespace Item

variable {dialect : Dialect} {input : List UInt8} {nesting : Bool}

/-- One item begins before another one, or right above it. -/
def Precedes (a b : Item) : Prop :=
  a.label.span.start.byte < b.label.span.start.byte ∨ b ∈ a.children

mutual

/-- Everything in an item begins between its two ends. -/
theorem start_bounds : ∀ {item : Item}, Laid dialect input item → ∀ sub ∈ item.subtrees,
    item.label.span.start.byte ≤ sub.label.span.start.byte ∧
      sub.label.span.start.byte < item.label.span.stop.byte
  | .node label below, h, sub, hsub => by
    obtain ⟨hsits, hbelow⟩ := laid_iff.mp h
    rcases Rose.mem_subtrees.mp hsub with rfl | hin
    · exact ⟨Nat.le_refl _, hsits.proper⟩
    · cases hsits with
      | leaf => cases hin
      | branch proper inside named abut closing ends =>
        obtain ⟨hfirst, hlast⟩ := start_boundsAll abut hbelow sub hin
        simp only [Rose.label_node]
        omega

/-- So does everything in several items. -/
theorem start_boundsAll : ∀ {a b : Nat} {items : List Item}, Abut a items b →
    (∀ item ∈ items, Laid dialect input item) → ∀ sub ∈ Rose.subtreesAll items,
    a ≤ sub.label.span.start.byte ∧ sub.label.span.start.byte < b
  | a, b, item :: rest, habut, h, sub, hsub => by
    have hself := h item List.mem_cons_self
    have hrest := fun item hin => h item (List.mem_cons_of_mem _ hin)
    have hfirst := habut.1
    have hle := habut.2.le fun item hin => (laid_iff.mp (hrest item hin)).1
    rw [Rose.subtreesAll_cons, List.mem_append] at hsub
    rcases hsub with hin | hin
    · have hbounds := start_bounds hself sub hin
      omega
    · have hbounds := start_boundsAll habut.2 hrest sub hin
      have hproper := (laid_iff.mp hself).1.proper
      omega

end

/-- **What is in an item begins behind it, or is right below it.** -/
theorem precedes_below {item : Item} (h : Laid dialect input item)
    (hschema : item.Schematic nesting) : ∀ sub ∈ Rose.subtreesAll item.children,
      item.Precedes sub := by
  intro sub hsub
  obtain ⟨hsits, hbelow⟩ := laid_iff.mp h
  have hshape := hschema item (Rose.mem_subtrees_self item)
  cases hsits with
  | leaf => cases hsub
  | @branch id branch valid span below inner proper inside named abut closing ends =>
    simp only [Rose.label_node, Rose.children_node] at hshape hbelow hsub
    have hfirst := (start_boundsAll abut hbelow sub hsub).1
    -- behind an opener everything begins further on; without one, the first child may begin at the
    -- same place
    rcases Nat.eq_zero_or_pos branch.openerLength with hzero | hpos
    · obtain ⟨child, hchild, hin⟩ := Rose.mem_subtreesAll.mp hsub
      rcases Rose.mem_subtrees.mp hin with rfl | hdeep
      · exact Or.inr hchild
      · -- the child has something below it, so it is a branch, and it has an opener
        have hlaid := hbelow child hchild
        have hstart := (start_boundsAll abut hbelow child
          (Rose.mem_subtreesAll.mpr ⟨child, hchild, Rose.mem_subtrees_self child⟩)).1
        obtain ⟨hsits, hinside⟩ := laid_iff.mp hlaid
        have hheld := hshape.held _ (List.mem_map_of_mem hchild)
        cases hsits with
        | leaf => cases hdeep
        | @branch id' around valid' span' below' inner' proper' inside' named' abut' =>
          have hopener := Branch.openerLength_pos_of_held
            (Branch.isNarrow_of_openerLength hzero named) hheld
          have hbounds := (start_boundsAll abut' hinside sub hdeep).1
          simp only [Rose.label_node] at hstart
          left
          simp only [Rose.label_node]
          omega
    · left
      simp only [Rose.label_node]
      omega

mutual

/-- **Items begin one behind the other**, but for what is right below a name or a fragment. -/
theorem pairwise_precedes : ∀ {item : Item}, Laid dialect input item → item.Schematic nesting →
    item.subtrees.Pairwise Precedes
  | .node label below, h, hschema => by
    rw [Rose.subtrees, List.pairwise_cons]
    refine ⟨precedes_below h hschema, ?_⟩
    obtain ⟨hsits, hbelow⟩ := laid_iff.mp h
    have hinside := (Rose.forall_mem_subtrees.mp hschema).2
    cases hsits with
    | leaf => exact List.Pairwise.nil
    | branch proper inside named abut => exact pairwise_precedesAll abut hbelow hinside

/-- So do the items in several. -/
theorem pairwise_precedesAll : ∀ {a b : Nat} {items : List Item}, Abut a items b →
    (∀ item ∈ items, Laid dialect input item) → (∀ item ∈ items, item.Schematic nesting) →
    (Rose.subtreesAll items).Pairwise Precedes
  | _, _, [], _, _, _ => List.Pairwise.nil
  | a, b, item :: rest, habut, h, hschema => by
    have hself := h item List.mem_cons_self
    have hrest := fun item hin => h item (List.mem_cons_of_mem _ hin)
    rw [Rose.subtreesAll_cons, List.pairwise_append]
    refine ⟨pairwise_precedes hself (hschema item List.mem_cons_self),
      pairwise_precedesAll habut.2 hrest fun item hin => hschema item (List.mem_cons_of_mem _ hin),
      ?_⟩
    intro first hfirst second hsecond
    have hbefore := (start_bounds hself first hfirst).2
    have hbehind := (start_boundsAll habut.2 hrest second hsecond).1
    exact Or.inl (Nat.lt_of_lt_of_le hbefore hbehind)

end
end Item

/-! ## 2. The way up

A climb from a malformed node stops at the first node above which nothing is malformed. -/

namespace Tree

variable {tree : Tree} {outline : Rose NodeId} {id top : NodeId}

/-- Is the node with this id malformed? -/
def MalformedAt (tree : Tree) (id : NodeId) : Prop :=
  ∃ node, tree.node? id = some node ∧ node.valid = false

/-- The way up from a node to `top` leads through malformed nodes only; both ends are malformed. -/
inductive MalformedUpTo (tree : Tree) (top : NodeId) : NodeId → Prop where
  | self (h : tree.MalformedAt top) : MalformedUpTo tree top top
  | up {id parent : NodeId} (h : tree.MalformedAt id) (hparent : tree.parent? id = some parent)
      (above : MalformedUpTo tree top parent) : MalformedUpTo tree top id

/-- A malformed node right below one that is not, or below none. -/
structure OutermostAt (tree : Tree) (id : NodeId) : Prop where
  malformed : tree.MalformedAt id
  below : ∀ parent, tree.parent? id = some parent → ¬ tree.MalformedAt parent

/-- The node that one starts from is malformed. -/
theorem MalformedUpTo.malformed (h : tree.MalformedUpTo top id) : tree.MalformedAt id := by
  cases h with
  | self h => exact h
  | up h => exact h

/-- The way up ends at one outermost node. -/
theorem MalformedUpTo.unique {other : NodeId} (h : tree.MalformedUpTo top id)
    (htop : tree.OutermostAt top) (h' : tree.MalformedUpTo other id)
    (hother : tree.OutermostAt other) : top = other := by
  induction h with
  | self =>
    cases h' with
    | self => rfl
    | up _ hparent above => exact absurd above.malformed (htop.below _ hparent)
  | up _ hparent above ih =>
    cases h' with
    | self => exact absurd above.malformed (hother.below _ hparent)
    | up _ hparent' above' =>
      obtain rfl := Option.some.inj (hparent.symm.trans hparent')
      exact ih above'

/-- **From every malformed node the way up ends at an outermost one.** -/
theorem Ordered.exists_outermost (h : tree.Ordered outline) (hid : tree.MalformedAt id) :
    ∃ top, tree.OutermostAt top ∧ tree.MalformedUpTo top id := by
  induction id using Nat.strongRecOn with
  | ind id ih =>
    by_cases habove : ∃ parent, tree.parent? id = some parent ∧ tree.MalformedAt parent
    · obtain ⟨parent, hparent, hmalformed⟩ := habove
      obtain ⟨top, htop, hway⟩ := ih parent (h.parent_lt hparent) hmalformed
      exact ⟨top, htop, .up hid hparent hway⟩
    · exact ⟨id, ⟨hid, fun parent hparent hbad => habove ⟨parent, hparent, hbad⟩⟩, .self hid⟩

/-- A node begins before another one. -/
def StartsBefore (tree : Tree) (id other : NodeId) : Prop :=
  ∃ node node', tree.node? id = some node ∧ tree.node? other = some node' ∧
    node.span.start.byte < node'.span.start.byte

/-- What the report asks of a node is whether its parent is malformed. -/
theorem isOutermost_iff : Report.isOutermost tree id = true ↔
    ∀ parent, tree.parent? id = some parent → ¬ tree.MalformedAt parent := by
  rw [Report.isOutermost]
  cases hparent : tree.parent? id with
  | none => simp
  | some parent =>
    cases hnode : tree.node? parent with
    | none => simp [MalformedAt, hnode]
    | some node => simp [MalformedAt, hnode]

/-- A node is filtered if it is malformed. -/
theorem any_invalid_iff :
    ((tree.node? id).any fun node => !node.valid) = true ↔ tree.MalformedAt id := by
  cases hnode : tree.node? id with
  | none => simp [MalformedAt, hnode]
  | some node => simp [MalformedAt, hnode]

/-- The malformed nodes of an ordered tree are all listed. -/
theorem Ordered.mem_invalid (h : tree.Ordered outline) :
    id ∈ tree.invalid ↔ tree.MalformedAt id := by
  rw [invalid, Array.mem_filter, any_invalid_iff, ← Array.mem_toList_iff, h.walk_eq,
    and_iff_right_iff_imp]
  rintro ⟨node, hnode, -⟩
  exact h.mem_preorder.mpr (lt_size_of_node? hnode)

/-- No node is malformed if none is malformed at its place. -/
theorem not_malformed_iff : ¬ tree.Malformed ↔ ∀ id, ¬ tree.MalformedAt id := by
  simp [Malformed, MalformedAt]

end Tree

namespace Shown

variable {dialect : Dialect} {bytes : Array UInt8} {tree : Tree} {items : List Item}
  {nesting : Bool}

/-- **The nodes of a source begin one behind the other**, but for those right below a node. -/
theorem pairwise_starts (h : Shown dialect bytes tree items)
    (hschema : ∀ item ∈ items, item.Schematic nesting) :
    (Item.ids items).Pairwise fun id other =>
      tree.StartsBefore id other ∨ tree.parent? other = some id := by
  have hitems := Item.pairwise_precedesAll h.abut h.laid hschema
  have hids : Item.ids items = (Rose.subtreesAll items).map (·.label.id) := by
    rw [Item.ids, Rose.preorderAll, List.map_map]
    rfl
  rw [hids, List.pairwise_map]
  refine hitems.imp_of_mem fun {a b} ha hb hprecedes => ?_
  obtain ⟨node, hnode, hshows, hheld⟩ := h.exists_node ha
  obtain ⟨node', hnode', hshows', -⟩ := h.exists_node hb
  rcases hprecedes with hlt | hin
  · exact Or.inl ⟨node, node', hnode, hnode', by rwa [hshows.span, hshows'.span]⟩
  · exact Or.inr (hheld b hin).parent?_label

end Shown

/-! ## 3. Reports

A report is made of a tree and of the numbers of a call; here both are those of the same call. -/

namespace Report

variable {report : Report} {outline : Rose NodeId}

/-- A report tells every malformed construct once, at its outermost point. -/
structure TellsOnce (report : Report) : Prop where
  /-- Nothing is malformed if there is nothing to tell. -/
  clean : report.isClean = true ↔ report.diagnostics = []
  /-- And then the scan had nothing to recover from. -/
  recovered : report.diagnostics = [] ↔ report.metrics.recoveries = 0
  /-- There is one diagnostic for each node that is listed. -/
  each : report.diagnostics.length = report.invalidRoots.size
  /-- The outermost malformed nodes are listed, and no others. -/
  listed : ∀ id, id ∈ report.invalidRoots ↔ report.tree.OutermostAt id
  /-- A malformed node stands for one that is listed. -/
  reached : ∀ id, report.tree.MalformedAt id →
    ∃! top, top ∈ report.invalidRoots ∧ report.tree.MalformedUpTo top id
  once : report.invalidRoots.toList.Nodup
  /-- They are listed in the order in which they begin. -/
  inOrder : report.invalidRoots.toList.Pairwise report.tree.StartsBefore

/-- What is listed is what is outermost and malformed. -/
theorem mem_invalidRoots (h : report.tree.Ordered outline) {id : NodeId} :
    id ∈ report.invalidRoots ↔ report.tree.OutermostAt id := by
  rw [invalidRoots, Array.mem_filter, h.mem_invalid, Tree.isOutermost_iff]
  exact ⟨fun hlisted => ⟨hlisted.1, hlisted.2⟩, fun houter => ⟨houter.malformed, houter.below⟩⟩

/-- There is one diagnostic for each. -/
theorem length_diagnostics (h : report.tree.Ordered outline) :
    report.diagnostics.length = report.invalidRoots.size := by
  have hall : (report.invalidRoots.toList.filterMap report.tree.node?).length =
      report.invalidRoots.toList.length := by
    refine List.filterMap_length_eq_length.mpr fun id hid => ?_
    obtain ⟨node, hnode, -⟩ := ((mem_invalidRoots h).mp (Array.mem_toList_iff.mp hid)).malformed
    rw [hnode]
    rfl
  rw [diagnostics, List.length_map, hall, Array.length_toList]

/-- **There is something to tell if and only if some node is malformed.** -/
theorem diagnostics_eq_nil_iff (h : report.tree.Ordered outline) :
    report.diagnostics = [] ↔ ¬ report.tree.Malformed := by
  rw [← List.length_eq_zero_iff, length_diagnostics h, Tree.not_malformed_iff,
    Array.size_eq_zero_iff, Array.eq_empty_iff_forall_not_mem]
  constructor
  · intro hnone id hid
    obtain ⟨top, htop, -⟩ := h.exists_outermost hid
    exact hnone top ((mem_invalidRoots h).mpr htop)
  · exact fun hnone id hid => hnone id ((mem_invalidRoots h).mp hid).malformed

/-- So every malformed node stands for one that is listed. -/
theorem existsUnique_outermost (h : report.tree.Ordered outline) {id : NodeId}
    (hid : report.tree.MalformedAt id) :
    ∃! top, top ∈ report.invalidRoots ∧ report.tree.MalformedUpTo top id := by
  obtain ⟨top, htop, hway⟩ := h.exists_outermost hid
  refine ⟨top, ⟨(mem_invalidRoots h).mpr htop, hway⟩, ?_⟩
  rintro other ⟨hother, hway'⟩
  exact hway'.unique ((mem_invalidRoots h).mp hother) hway htop

/-- **The outermost malformed nodes begin one behind the other**: of two nodes where that is not
so, one is right below the other. -/
theorem pairwise_invalidRoots (h : report.tree.Ordered outline) {ids : List NodeId}
    (hwalk : (report.tree.preorder Tree.root).toList = Tree.root :: ids)
    (hroot : ¬ report.tree.MalformedAt Tree.root)
    (hstarts : ids.Pairwise fun id other =>
      report.tree.StartsBefore id other ∨ report.tree.parent? other = some id) :
    report.invalidRoots.toList.Pairwise report.tree.StartsBefore := by
  have hlist : report.invalidRoots.toList.Sublist ids := by
    rw [invalidRoots, Tree.invalid, Array.toList_filter, Array.toList_filter, hwalk,
      List.filter_cons_of_neg (by rwa [Tree.any_invalid_iff])]
    exact List.filter_sublist.trans List.filter_sublist
  refine (hstarts.sublist hlist).imp_of_mem fun {id other} hid hother hstart => ?_
  refine hstart.resolve_right fun hparent => ?_
  have hmalformed := ((mem_invalidRoots h).mp (Array.mem_toList_iff.mp hid)).malformed
  exact ((mem_invalidRoots h).mp (Array.mem_toList_iff.mp hother)).below id hparent hmalformed

/-- What is left to prove of a report on an ordered tree. -/
theorem TellsOnce.of_ordered (h : report.tree.Ordered outline)
    (hclean : report.isClean = true ↔ ¬ report.tree.Malformed)
    (hrecovered : report.metrics.recoveries = 0 ↔ ¬ report.tree.Malformed)
    (hstarts : report.invalidRoots.toList.Pairwise report.tree.StartsBefore) :
    report.TellsOnce where
  clean := hclean.trans (diagnostics_eq_nil_iff h).symm
  recovered := (diagnostics_eq_nil_iff h).trans hrecovered.symm
  each := length_diagnostics h
  listed _ := mem_invalidRoots h
  reached _ hid := existsUnique_outermost h hid
  once := by
    refine hstarts.imp fun {id other} hstart heq => ?_
    obtain ⟨node, node', hnode, hnode', hlt⟩ := hstart
    rw [heq, hnode', Option.some.injEq] at hnode
    exact absurd hlt (hnode ▸ Nat.lt_irrefl _)
  inOrder := hstarts

end Report

namespace Lexer

/-- **A scan recovers from something if and only if it leaves a malformed node.** -/
theorem recoveries_eq_zero_iff (lexer : Lexer) (source : Source) :
    (lexer.tokenize source).metrics.recoveries = 0 ↔ ¬ (lexer.tokenize source).tree.Malformed := by
  have hnew := Tree.ordered_new source.filename source.start
  have horigin : (Tree.new source.filename source.start).body? Tree.root =
      some (Lexer.rootOf source) := rfl
  have hordered := lexer.extend_ordered hnew horigin .root source
  obtain ⟨htold, hflagged⟩ := lexer.extend_told hnew horigin .root source rfl
  obtain ⟨root, hroot, hvalid, -⟩ := lexer.exists_root_valid source
  have hadmits : Service.admits ⟨.lines, .warning⟩ .warning = true := by decide
  have hdiagnosed := Diagnosed.of_told (lexer.warnings_trace hadmits source ⟨0⟩ _)
    (List.length_reverse).symm (fun id hid => hordered.mem_production hid) htold hflagged
  refine hdiagnosed.clean.trans ?_
  constructor
  · rintro hall ⟨id, node, hnode, hinvalid⟩
    rcases Nat.eq_zero_or_pos id with rfl | hid
    · rw [show Tree.root = 0 from rfl] at hroot
      obtain rfl := Option.some.inj (hroot.symm.trans hnode)
      exact Bool.false_ne_true (hinvalid.symm.trans hvalid)
    · exact Bool.false_ne_true (hinvalid.symm.trans (hall id hid node hnode))
  · intro hnone id _ node hnode
    exact Bool.of_not_eq_false fun hinvalid => hnone ⟨id, node, hnode, hinvalid⟩

/-- The nodes of a source begin one behind the other, but for those right below a node. -/
theorem items_start (lexer : Lexer) (hmade : lexer.fragments.Made) (filename : Option String)
    (bytes : Array UInt8) :
    (Item.ids (lexer.items { bytes := bytes })).Pairwise fun id other =>
      (lexer.tokenize { bytes := bytes, filename := filename }).tree.StartsBefore id other ∨
        (lexer.tokenize { bytes := bytes, filename := filename }).tree.parent? other = some id := by
  have hschema : ∀ item ∈ lexer.items { bytes := bytes },
      item.label.kind.inGroup = true ∧ item.Schematic lexer.dialect.extendedComments :=
    (scan_schematic hmade { bytes := bytes }
      (Draft.into (Tree.new none Position.origin) Tree.root (rootOf { bytes := bytes }))
      rfl rfl rfl).2
  exact (lexer.tokenize_shown filename bytes).pairwise_starts fun item hitem =>
    (hschema item hitem).2

/-- **The report on a source tells every malformed construct once.** -/
theorem report_tells (lexer : Lexer) (hmade : lexer.fragments.Made) (path : String)
    (filename : Option String) (bytes : Array UInt8) :
    (Report.ofOutcome path bytes
      (lexer.tokenize { bytes := bytes, filename := filename })).TellsOnce := by
  obtain ⟨outline, h, hrange⟩ := lexer.tokenize_ordered { bytes := bytes, filename := filename }
  have hshown := lexer.tokenize_shown filename bytes
  have hrecovered := lexer.recoveries_eq_zero_iff { bytes := bytes, filename := filename }
  have hstarts := lexer.items_start hmade filename bytes
  generalize lexer.tokenize { bytes := bytes, filename := filename } = outcome at *
  obtain ⟨root, hroot, -, hvalid, -⟩ := hshown.root
  have hsound : ∀ node, outcome.tree.node? Tree.root = some node → node.valid = true := by
    intro node hnode
    obtain rfl := Option.some.inj (hroot.symm.trans hnode)
    exact hvalid
  refine .of_ordered h (Tree.isClean_ofTree_iff h hsound) hrecovered ?_
  refine Report.pairwise_invalidRoots h (h.walk_eq.trans (hrange.trans hshown.ids.symm)) ?_ hstarts
  rintro ⟨node, hnode, hinvalid⟩
  exact Bool.false_ne_true (hinvalid.symm.trans (hsound node hnode))

end Lexer

/-- **The report on a file tells every malformed construct once.** -/
theorem FileRun.report_tells_once {dialect : Dialect} {path : String} {entry : Entry}
    {run : FileRun} (h : ofEntry dialect path entry = .ok run) : run.report.TellsOnce := by
  obtain ⟨hlexer, houtcome⟩ := outcome_of_ofEntry h
  rw [report, houtcome]
  exact run.lexer.report_tells (Lexer.ofDialect_made hlexer) run.file.info.path (some run.path)
    run.file.bytes

/-- A file with a closer that nothing opened, and a string inside two parentheses, all of them
open at its end. -/
def FileRun.unclosedString : Entry :=
  .file { path := "a.css", size := 4, content := .ok #[0x5D, 0x28, 0x28, 0x22] }

/-- The scan recovers from four things, and two are told: the closer and the outer parenthesis. -/
theorem FileRun.unclosed_string_told_once :
    ∃ run, ofEntry Dialect.standard "a.css" unclosedString = .ok run ∧ run.report.TellsOnce ∧
      run.report.metrics.recoveries = 4 ∧ run.report.invalidRoots = #[1, 2] := by
  have hrun : ofEntry Dialect.standard "a.css" unclosedString = .ok _ := rfl
  exact ⟨_, hrun, report_tells_once hrun, by decide +kernel, by decide +kernel⟩

end StyleLex
