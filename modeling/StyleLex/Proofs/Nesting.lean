/-
# Where block comments end

A block comment inside another one is a branch of its own, and closes itself.  Nevertheless the
outer one ends where a count of the markers says, with no tree: up at each opener, if the dialect
nests comments, and down at each closer (`commentEnd?`).  For a comment that is complete leaves the
count as it was, raw text has no marker in it, and there is nothing else in a comment unless
fragments are defined (`Item.count_eq`, by induction on what is inside).  A comment that the end of
the input cuts off is one that the count leaves open, at whatever depth that is.

Where a source begins with an opener its first child is such a comment
(`Lexer.tokenizeBytes_leadsWithComment`).

The count is the specification.  It reads the bytes once, knows nothing of escapes, of branches or
of recovery, and has one number for its state.  A tree nests instead of counting, so the proof is by
induction on items: entering a comment that is complete and leaving it again brings the count back
to where it was.

Fragments are excluded because the text of an interpolation may hold markers that do not count.  The
claim is about dialects that define none.
-/
import StyleLex.Proofs.Children
import StyleLex.Proofs.Forms
import StyleLex.Proofs.Scan.Heading
import StyleLex.Proofs.Scan.Opening

namespace StyleLex

/-! ## 1. Counting

The count goes from a place of the input on, so that it can be compared at the beginning and at
the end of an item. -/

/-- Where a block comment ends by the count of its markers, of which `depth` are open: it begins
before `place`, and the input goes on there as given. -/
def commentEnd? (nesting : Bool) : Nat → Nat → List UInt8 → Option Nat
  | 0, place, _ => some place
  | _ + 1, _, [] | _ + 1, _, [_] => none
  | depth + 1, place, a :: b :: rest =>
    if nesting && a == Byte.slash && b == Byte.asterisk then
      commentEnd? nesting (depth + 2) (place + 2) rest
    else if a == Byte.asterisk && b == Byte.slash then
      commentEnd? nesting depth (place + 2) rest
    else commentEnd? nesting (depth + 1) (place + 1) (b :: rest)

variable {dialect : Dialect} {input : List UInt8} {nesting : Bool} {depth i j : Nat}

/-- The count from a place of the input on. -/
def commentEndFrom? (nesting : Bool) (input : List UInt8) (depth place : Nat) : Option Nat :=
  commentEnd? nesting depth place (input.drop place)

/-- With no comment open the end has been found. -/
theorem commentEndFrom?_zero (nesting : Bool) (input : List UInt8) (i : Nat) :
    commentEndFrom? nesting input 0 i = some i := by
  rw [commentEndFrom?, commentEnd?]

/-- Behind the end of the input nothing is closed. -/
theorem commentEndFrom?_of_le (h : input.length ≤ i) :
    commentEndFrom? nesting input (depth + 1) i = none := by
  rw [commentEndFrom?, List.drop_eq_nil_of_le h, commentEnd?]

/-- Two bytes that are ahead are the first two. -/
theorem drop_of_pair {a b : UInt8} (h : [a, b] <+: input.drop i) :
    input.drop i = a :: b :: input.drop (i + 2) := by
  obtain ⟨tail, htail⟩ := h
  rw [← List.drop_drop, ← htail]
  rfl

/-- An opener is counted up where comments nest. -/
theorem commentEndFrom?_opener (h : [Byte.slash, Byte.asterisk] <+: input.drop i) :
    commentEndFrom? true input (depth + 1) i = commentEndFrom? true input (depth + 2) (i + 2) := by
  rw [commentEndFrom?, drop_of_pair h, commentEnd?, if_pos (by decide)]
  rfl

/-- A closer is counted down. -/
theorem commentEndFrom?_closer (h : [Byte.asterisk, Byte.slash] <+: input.drop i) :
    commentEndFrom? nesting input (depth + 1) i = commentEndFrom? nesting input depth (i + 2) := by
  have hslash : (Byte.asterisk == Byte.slash) = false := by decide
  rw [commentEndFrom?, drop_of_pair h, commentEnd?, hslash, Bool.and_false, Bool.false_and,
    if_neg Bool.false_ne_true, if_pos (by decide)]
  rfl

/-- A byte that is left in a comment begins no marker. -/
theorem commentEndFrom?_left (h : (Branch.comment .block).Leaves dialect (input.drop i)) :
    commentEndFrom? dialect.extendedComments input (depth + 1) i =
      commentEndFrom? dialect.extendedComments input (depth + 1) (i + 1) := by
  obtain ⟨hcloser, hopener⟩ := h
  rw [commentEndFrom?, commentEndFrom?, ← List.drop_drop]
  match hrest : input.drop i with
  | [] | [_] => rfl
  | a :: b :: rest =>
    rw [hrest] at hcloser hopener
    have hup : ¬ (dialect.extendedComments && a == Byte.slash && b == Byte.asterisk) = true := by
      intro hpair
      simp only [Bool.and_eq_true, beq_iff_eq] at hpair
      obtain ⟨⟨hnesting, rfl⟩, rfl⟩ := hpair
      exact hopener hnesting ⟨rest, rfl⟩
    have hdown : ¬ (a == Byte.asterisk && b == Byte.slash) = true := by
      intro hpair
      simp only [Bool.and_eq_true, beq_iff_eq] at hpair
      obtain ⟨rfl, rfl⟩ := hpair
      exact hcloser ⟨rest, rfl⟩
    rw [commentEnd?, if_neg hup, if_neg hdown]
    rfl

/-- So a run of such bytes leaves the count as it was. -/
theorem commentEndFrom?_run (hle : i ≤ j)
    (h : ∀ k, i ≤ k → k < j → (Branch.comment .block).Leaves dialect (input.drop k)) :
    commentEndFrom? dialect.extendedComments input (depth + 1) i =
      commentEndFrom? dialect.extendedComments input (depth + 1) j := by
  induction j, hle using Nat.le_induction with
  | base => rfl
  | succ j hle ih =>
    rw [ih fun k hk hlt => h k hk (Nat.lt_succ_of_lt hlt)]
    exact commentEndFrom?_left (h j hle (Nat.lt_succ_self j))

/-- **The count goes on behind a comment that is closed**, and comes to no end in one that the input
cuts off. -/
theorem Ends.count {last : Option Kind} {valid : Bool} {inner stop : Nat}
    (h : Ends dialect (.comment .block) last (input.drop inner) valid (stop - inner))
    (nesting : Bool) (depth : Nat) (hle : inner ≤ stop) :
    commentEndFrom? nesting input (depth + 1) inner =
        (if valid then commentEndFrom? nesting input depth stop else none) ∧
      (valid = false → input.length ≤ stop) := by
  obtain ⟨n, rfl⟩ := Nat.exists_eq_add_of_le hle
  rw [Nat.add_sub_cancel_left] at h
  generalize hrest : input.drop inner = rest at h
  -- a comment ends with its closer, or with the input
  cases h with
  | closer own ahead =>
    cases own
    exact ⟨commentEndFrom?_closer (hrest ▸ ahead), nofun⟩
  | fragment fragment => cases fragment
  | unterminated =>
    have hend := List.drop_eq_nil_iff.mp hrest
    exact ⟨commentEndFrom?_of_le hend, fun _ => hend⟩

/-! ## 2. Items in comments

By mutual recursion on an item and on what is below it: raw text is a row of bytes that begin no
marker, and a comment is its opener, what is below it, and its closer. -/

namespace Item

/-- What stands in a block comment if no fragments are defined. -/
structure InComment (dialect : Dialect) (input : List UInt8) (item : Item) : Prop where
  known : Known dialect input (.comment .block) item
  plain : ∀ branch, item.label.kind = .branch branch → branch.isFragment = false

/-- That it is so in every block comment of an item. -/
def Commented (dialect : Dialect) (input : List UInt8) (item : Item) : Prop :=
  ∀ above ∈ item.subtrees, above.label.kind = .branch (.comment .block) →
    ∀ child ∈ above.children, InComment dialect input child

/-- By what is right below an item, and what is further down. -/
theorem commented_iff {item : Item} : Commented dialect input item ↔
    (item.label.kind = .branch (.comment .block) →
      ∀ child ∈ item.children, InComment dialect input child) ∧
      ∀ child ∈ item.children, Commented dialect input child :=
  Rose.forall_mem_subtrees

/-- It is raw text, or a comment, where comments nest. -/
theorem InComment.kind {item : Item} (h : InComment dialect input item) :
    item.label.kind = .leaf .raw ∨
      item.label.kind = .branch (.comment .block) ∧ dialect.extendedComments = true := by
  have hheld := h.known.held
  have hplain := h.plain
  generalize item.label.kind = kind at *
  unfold Branch.holds at hheld
  dsimp only at hheld
  split at hheld
  · exact Or.inl rfl
  · cases hplain _ rfl
  · exact Or.inr ⟨rfl, hheld⟩
  · cases hheld

/-- A block comment is counted by its flag, if what stands in it leaves the count as it was. -/
theorem count_block {item : Item} (hsits : Sits dialect input item)
    (hkind : item.label.kind = .branch (.comment .block))
    (hbelow : ∀ a b, Abut a item.children b → ∀ depth,
      commentEndFrom? dialect.extendedComments input (depth + 1) a =
        commentEndFrom? dialect.extendedComments input (depth + 1) b) (depth : Nat) :
    commentEndFrom? dialect.extendedComments input (depth + 1) (item.label.span.start.byte + 2) =
        (if item.label.valid then
          commentEndFrom? dialect.extendedComments input depth item.label.span.stop.byte
        else none) ∧
      (item.label.valid = false → input.length ≤ item.label.span.stop.byte) := by
  cases hsits with
  | leaf => cases hkind
  | @branch id branch valid span below inner proper inside named abut closing ends =>
    obtain rfl : branch = .comment .block := Kind.branch.inj hkind
    obtain ⟨hcount, hcut⟩ := ends.count dialect.extendedComments depth closing
    exact ⟨(hbelow _ _ abut depth).trans hcount, hcut⟩

mutual

/-- **What stands in a comment leaves the count as it was.** -/
theorem count_eq : ∀ {item : Item}, InComment dialect input item → Commented dialect input item →
    ∀ depth, commentEndFrom? dialect.extendedComments input (depth + 1)
        item.label.span.start.byte =
      commentEndFrom? dialect.extendedComments input (depth + 1) item.label.span.stop.byte
  | .node label below, h, hcommented, depth => by
    have hsits := h.known.sits
    -- raw text has no marker in it; a comment brings the count up and down again
    rcases h.kind with hraw | ⟨hcomment, hnesting⟩
    · exact commentEndFrom?_run (Nat.le_of_lt hsits.proper)
        (h.known.left (congrArg Kind.grows hraw))
    · obtain ⟨hchildren, hbelow⟩ := commented_iff.mp hcommented
      obtain ⟨hcount, hcut⟩ := count_block hsits hcomment
        (fun a b habut => countAll_eq habut (hchildren hcomment) hbelow) (depth + 1)
      have hopener : [Byte.slash, Byte.asterisk] <+: input.drop label.span.start.byte :=
        h.known.begun _ hcomment
      rw [hnesting] at hcount ⊢
      rw [Rose.label_node] at hcount hcut ⊢
      rw [commentEndFrom?_opener hopener, hcount]
      cases hvalid : label.valid with
      | true => exact if_pos rfl
      | false =>
        rw [if_neg Bool.false_ne_true]
        exact (commentEndFrom?_of_le (hcut hvalid)).symm

/-- So do several, one after the other. -/
theorem countAll_eq : ∀ {a b : Nat} {items : List Item}, Abut a items b →
    (∀ item ∈ items, InComment dialect input item) →
    (∀ item ∈ items, Commented dialect input item) →
    ∀ depth, commentEndFrom? dialect.extendedComments input (depth + 1) a =
      commentEndFrom? dialect.extendedComments input (depth + 1) b
  | _, _, [], habut, _, _, _ => by rw [habut]
  | a, b, item :: rest, habut, h, hcommented, depth => by
    obtain ⟨hstart, habut⟩ := habut
    rw [← hstart, count_eq (h item List.mem_cons_self) (hcommented item List.mem_cons_self)]
    exact countAll_eq habut (fun other hin => h other (List.mem_cons_of_mem _ hin))
      (fun other hin => hcommented other (List.mem_cons_of_mem _ hin)) depth

end

end Item

/-! ## 3. Sources that begin with a comment

The opener of a comment at the beginning of a source is read as one, because no other reader accepts
a slash there before it is tried. -/

namespace Scan

variable {scope : Scope} {state : State}

/-- **In the root an opener opens a comment.** -/
theorem readNext_comment (hroot : state.frame.branch = .root)
    (hopener : [Byte.slash, Byte.asterisk] <+: state.rest) :
    readNext scope state = state.enter scope (.comment .block) 2 := by
  have hcontext : state.context = .root := congrArg Branch.context hroot
  obtain ⟨tail, hrest⟩ := hopener
  have hblank : readBlank scope state = none := by
    rw [readBlank, ← hrest]
    rfl
  have hnumeral : readNumeral scope state = none := by
    rw [readNumeral, ← hrest]
    exact congrArg (Option.map _)
      (Numeral.read?_of_lead _ _ (by decide) (by decide) (by decide))
  have hurl : readUrlOpening scope state = none := by
    have hletter : Byte.isLetterOf 0x75 Byte.slash = false := by decide
    have hbegins : beginsUrl state.rest = false := by
      rw [← hrest]
      rcases tail with _ | ⟨c, _ | ⟨d, more⟩⟩
      · rfl
      · rfl
      · simp [beginsUrl, hletter]
    rw [readUrlOpening, hbegins, Bool.and_false]
    rfl
  have hcomment :
      readCommentOpening scope state = some (state.enter scope (.comment .block) 2) := by
    have hpair := facingPair_iff.mpr ⟨tail, hrest⟩
    rw [readCommentOpening, readBlockOpening, hpair, hcontext]
    rfl
  rw [readNext, hcontext, readersOf]
  simp only [findSome?_or, hblank, hnumeral, hurl, hcomment, Option.none_or, Option.some_or,
    Option.getD_some]

end Scan

namespace Lexer

open Scan

variable {dialect : Dialect} {lexer : Lexer} {bytes : Array UInt8}

/-- Without definitions there are no forms. -/
theorem fragments_eq_empty (hlexer : Lexer.ofDialect dialect = .ok lexer)
    (hquasi : dialect.quasiDefinitions = []) (hannotations : dialect.annotationDefinitions = []) :
    lexer.fragments = .empty := by
  have hbuilt := Lexer.fragments_of_ofDialect hlexer
  rw [Fragments.ofDialect, hquasi, hannotations] at hbuilt
  exact (Except.ok.inj hbuilt).symm

/-- And without forms there are no fragments. -/
theorem items_unfragmented (hempty : lexer.fragments = .empty) (bytes : Array UInt8) :
    ∀ item ∈ lexer.items { bytes := bytes },
      Item.Obeys (fun _ _ branch => branch.isFragment = false) .root item := by
  refine lexer.items_opened bytes ⟨fun _ halike h => halike.isFragment_eq ▸ h⟩
    fun state hrest _ mark kind hmarks hkind branch hbranch => ?_
  have hopening : lexer.fragments.Opening _ _ _ branch :=
    readNext_opens (lexer.scope { bytes := bytes }) hrest mark kind hmarks hkind branch hbranch
  rw [hempty] at hopening
  cases branch with
  | quasi form =>
    change Fragments.empty.quasiAt? _ _ = some form at hopening
    rw [Fragments.quasiAt?, Fragments.quasiFor_empty] at hopening
    cases hopening
  | annotation form placement => cases hopening
  | _ => rfl

/-- So everything in a comment is raw text or another comment. -/
theorem items_commented (hempty : lexer.fragments = .empty) (bytes : Array UInt8) :
    ∀ item ∈ lexer.items { bytes := bytes },
      Item.Commented lexer.dialect bytes.toList item := by
  have hmade : lexer.fragments.Made := hempty ▸ Fragments.empty_made
  intro item hitem above habove hcomment child hchild
  exact ⟨((lexer.items_known hmade bytes).2 item hitem above habove _ hcomment).each child hchild,
    (items_unfragmented hempty bytes item hitem).2 above habove _ hcomment child hchild⟩

/-- The first item of a source that begins with an opener. -/
theorem exists_comment (hopener : [Byte.slash, Byte.asterisk] <+: bytes.toList) :
    ∃ item further, lexer.items { bytes := bytes } = item :: further ∧
      item.label.kind = .branch (.comment .block) := by
  have hne : bytes.toList ≠ [] := by
    intro hnil
    rw [hnil] at hopener
    cases List.prefix_nil.mp hopener
  obtain ⟨item, further, hitems, own, hkind, halike⟩ := lexer.exists_first hne
    fun state hroot hrest => readNext_comment hroot (hrest ▸ hopener)
  cases halike
  exact ⟨item, further, hitems, hkind⟩

end Lexer

/-! ## 4. The tree of a source

The first child of the root shows the first item, and that is the comment. -/

/-- The first child of the root is a block comment that ends by the count of its markers: where no
comment is open any more, or else, malformed, with the source.  If comments do not nest there is
nothing but raw text in it. -/
structure Tree.LeadsWithComment (tree : Tree) (dialect : Dialect) (bytes : Array UInt8)
    (node : Node) : Prop where
  first : ∃ id, (tree.children Tree.root)[0]? = some id ∧ tree.node? id = some node
  kind : node.kind = .branch (.comment .block)
  start : node.span.start.byte = 0
  stop : node.span.stop.byte =
    (commentEnd? dialect.extendedComments 1 2 (bytes.toList.drop 2)).getD bytes.size
  valid : node.valid = (commentEnd? dialect.extendedComments 1 2 (bytes.toList.drop 2)).isSome
  plain : dialect.extendedComments = false → ∀ child ∈ node.children,
    ∃ found, tree.node? child = some found ∧ found.kind = .leaf .raw ∧ found.children = #[]

/-- Raw text is a node without children. -/
theorem Tree.Shows.raw {bytes : Array UInt8} {item : Item} {node : Node}
    (h : Tree.Shows bytes item node) (hkind : item.label.kind = .leaf .raw)
    (hsits : Item.Sits dialect input item) : node.kind = .leaf .raw ∧ node.children = #[] := by
  cases hsits with
  | leaf =>
    obtain rfl := Kind.leaf.inj hkind
    exact ⟨h.kind, h.children⟩
  | branch => cases hkind

namespace Lexer

variable {dialect : Dialect} {lexer : Lexer} {bytes : Array UInt8}

/-- The end of a comment that begins the source. -/
theorem comment_ends {item : Item} (hsits : Item.Sits dialect bytes.toList item)
    (hkind : item.label.kind = .branch (.comment .block))
    (hcommented : Item.Commented dialect bytes.toList item)
    (hstart : item.label.span.start.byte = 0) :
    item.label.span.stop.byte =
        (commentEnd? dialect.extendedComments 1 2 (bytes.toList.drop 2)).getD bytes.size ∧
      item.label.valid =
        (commentEnd? dialect.extendedComments 1 2 (bytes.toList.drop 2)).isSome := by
  obtain ⟨hchildren, hbelow⟩ := Item.commented_iff.mp hcommented
  obtain ⟨hcount, hcut⟩ := Item.count_block hsits hkind
    (fun a b habut => Item.countAll_eq habut (hchildren hkind) hbelow) 0
  rw [hstart] at hcount
  change commentEnd? _ 1 2 (bytes.toList.drop 2) = _ at hcount
  rw [hcount]
  cases hvalid : item.label.valid with
  | true =>
    rw [if_pos rfl, commentEndFrom?_zero]
    exact ⟨rfl, rfl⟩
  | false =>
    have hinside := hsits.inside
    have hend := hcut hvalid
    rw [Array.length_toList] at hinside hend
    exact ⟨Nat.le_antisymm hinside hend, rfl⟩

/-- **Block comments end by the count of their markers.** -/
theorem tokenizeBytes_leadsWithComment (hlexer : Lexer.ofDialect dialect = .ok lexer)
    (hquasi : dialect.quasiDefinitions = []) (hannotations : dialect.annotationDefinitions = [])
    (hopener : [Byte.slash, Byte.asterisk] <+: bytes.toList) :
    ∃ node, (lexer.tokenizeBytes bytes).tree.LeadsWithComment dialect bytes node := by
  obtain rfl : lexer.dialect = dialect := Lexer.dialect_of_ofDialect hlexer
  have hshown := lexer.tokenizeBytes_shown bytes
  obtain ⟨item, further, hitems, hkind⟩ := lexer.exists_comment hopener
  have hitem : item ∈ lexer.items { bytes := bytes } := by
    rw [hitems]
    exact List.mem_cons_self
  have hcommented :=
    items_commented (fragments_eq_empty hlexer hquasi hannotations) bytes item hitem
  have hheld := Tree.holds_iff.mp (hshown.held item hitem)
  obtain ⟨node, hnode, hshows⟩ := (hshown.held item hitem).shows
  have habut := hshown.abut
  rw [hitems] at habut
  obtain ⟨hstop, hvalid⟩ := comment_ends (hshown.laid item hitem item (Rose.mem_subtrees_self item))
    hkind hcommented habut.1
  refine ⟨node, ⟨item.label.id, ?_, hnode⟩, ?_, ?_, ?_, ?_, fun hflat child hchild => ?_⟩
  · obtain ⟨root, hroot, -, -, -, -, hchildren⟩ := hshown.root
    rw [Tree.children, hroot, Option.map_some, Option.getD_some, hchildren, hitems]
    rfl
  · rw [hshows.kind, Item.kind_eq_valued, hkind]
    rfl
  · rw [hshows.span]
    exact habut.1
  · rw [hshows.span]
    exact hstop
  · rw [hshows.valid]
    exact hvalid
  · obtain ⟨below, hbelow, rfl⟩ : ∃ below ∈ item.children, below.label.id = child := by
      simpa [hshows.children] using hchild
    have hin := (Item.commented_iff.mp hcommented).1 hkind below hbelow
    obtain ⟨found, hfound, hshown⟩ := (hheld.2 below hbelow).shows
    rcases hin.kind with hraw | ⟨-, hnesting⟩
    · exact ⟨found, hfound, hshown.raw hraw hin.known.sits⟩
    · cases hflat.symm.trans hnesting

/-- A comment in a comment: `/*/**/*/b`.  The inner one would end the outer one if it were none. -/
theorem nested_comment_leads :
    ∃ lexer node, Lexer.ofDialect Dialect.extended = .ok lexer ∧
      (lexer.tokenizeBytes
        #[0x2F, 0x2A, 0x2F, 0x2A, 0x2A, 0x2F, 0x2A, 0x2F, 0x62]).tree.LeadsWithComment
        Dialect.extended #[0x2F, 0x2A, 0x2F, 0x2A, 0x2A, 0x2F, 0x2A, 0x2F, 0x62] node ∧
      node.span.stop.byte = 8 ∧
      commentEnd? Dialect.standard.extendedComments 1 2 [0x2F, 0x2A, 0x2A, 0x2F, 0x2A, 0x2F, 0x62] =
        some 6 := by
  obtain ⟨lexer, hlexer⟩ : ∃ lexer, Lexer.ofDialect Dialect.extended = .ok lexer := ⟨_, rfl⟩
  have hopener : [Byte.slash, Byte.asterisk] <+:
      (#[0x2F, 0x2A, 0x2F, 0x2A, 0x2A, 0x2F, 0x2A, 0x2F, 0x62] : Array UInt8).toList := by decide
  obtain ⟨node, hleads⟩ := tokenizeBytes_leadsWithComment hlexer rfl rfl hopener
  refine ⟨lexer, node, hlexer, hleads, ?_, by decide⟩
  rw [hleads.stop]
  decide

end Lexer
end StyleLex
