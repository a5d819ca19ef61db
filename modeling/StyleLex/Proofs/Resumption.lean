/-
# A hash in two calls

A hash that is cut may be resumed: the first call stops inside it, and the second one adds the rest
of it to its node.  That is not the same as reading it at once, for a hash is settled at the end of
each call, and its parts are decoded one by one.  The two agree in everything but what the cut takes
away (`Lexer.hash_resumed`): the text, if the cut is inside a character; and the color, if the first
part has not as many digits as a color, for then it is none, and its digits are dropped for good.

Either way the text is one run of name bytes behind the sign.  Read at once, the run is the only
child (`Item.hash_run`); the first call takes the front of it (`Lexer.items_upTo`), and the second
one the back (`Lexer.scan_inHash`).

A cut can fall anywhere behind the sign, and what is read before it and behind it need not be what
would have been read there at once.  Two facts keep the cases down.  A hash with no escapes in it
has one child, so there is one place for the cut to be in; and name bytes are told from others one
by one, so that each part of the run is a run.

The color is lost where the first part is no color, because a hash that settles forgets its digits
unless they make a color.  When the second call goes on, it begins with what the first one kept.
Nothing is lost where the whole is no color either.  That is why the condition speaks of the number
of bytes in front of the cut.
-/
import StyleLex.Proofs.Added
import StyleLex.Proofs.Hashes
import StyleLex.Proofs.Reads
import StyleLex.Proofs.Scan.Runs
import StyleLex.Proofs.Scan.Taking
import StyleLex.Proofs.Schema
import StyleLex.Proofs.Token.Boundary
import StyleLex.Proofs.Token.Colors

namespace StyleLex

open Scan

/-! ## 1. At once

From the outside in: the node is a hash, its item has only raw text below it, and raw text in a name
covers a whole run. -/

/-- Raw text in a name covers its run, and none follows it. -/
theorem Item.wholeRun_alone {dialect : Dialect} {input : List UInt8} {a b : Nat}
    {items : List Item} (habut : Item.Abut a items b)
    (hsits : ∀ item ∈ items, Item.Sits dialect input item)
    (hruns : ∀ item ∈ items, Item.WholeRun input item)
    (hraw : ∀ item ∈ items, item.label.kind = .leaf .raw) (hne : items ≠ []) :
    ∃ item, items = [item] ∧ item.label.span.start.byte = a ∧ item.label.span.stop.byte = b ∧
      b = a + ((input.drop a).takeWhile Byte.isName).length := by
  obtain ⟨first, further, rfl⟩ := List.exists_cons_of_ne_nil hne
  obtain ⟨hstart, hrest⟩ := habut
  have hfirst := hruns first List.mem_cons_self (hraw first List.mem_cons_self)
  rw [hstart] at hfirst
  cases further with
  | nil => exact ⟨first, rfl, hstart, hrest, by rw [← hfirst]; exact Eq.symm hrest⟩
  | cons second beyond =>
    have hin : second ∈ first :: second :: beyond := by simp
    have hsecond := hruns second hin (hraw second hin)
    -- behind a whole run no name byte stands
    have hnone := takeWhile_behind_run Byte.isName (input.drop a)
    rw [List.drop_drop, ← hfirst, ← hrest.1] at hnone
    rw [hnone] at hsecond
    exact absurd hsecond (Nat.ne_of_gt (hsits second hin).proper)

/-- **A hash with nothing but raw text in it has one child**, which covers the run behind its sign,
and it ends with that. -/
theorem Item.hash_run {dialect : Dialect} {input : List UInt8} {item : Item} {hash : Hash}
    (hkind : item.label.kind = .branch (.hash hash)) (hlaid : Item.Laid dialect input item)
    (htold : Item.Says dialect input item) (hne : item.children ≠ [])
    (hraw : ∀ child ∈ item.children, child.label.kind = .leaf .raw) :
    ∃ child, item.children = [child] ∧
      child.label.span.start.byte = item.label.span.start.byte + 1 ∧
      child.label.span.stop.byte = item.label.span.stop.byte ∧
      item.label.span.stop.byte = item.label.span.start.byte + 1 +
        ((input.drop (item.label.span.start.byte + 1)).takeWhile Byte.isName).length := by
  obtain ⟨hsits, hbelow⟩ := Item.laid_iff.mp hlaid
  obtain ⟨⟨id, kind, valid, span⟩, below⟩ := item
  obtain rfl : kind = .branch (.hash hash) := hkind
  cases hsits with
  | @branch _ _ _ _ _ inner proper inside named abut closing ends =>
    have hends : span.stop.byte - inner = 0 := ends.of_name rfl
    obtain rfl : inner = span.stop.byte := by omega
    exact Item.wholeRun_alone abut (fun child hchild => (Item.laid_iff.mp (hbelow child hchild)).1)
      (htold.name _ rfl rfl).2 hraw hne

/-- Raw text has the text that its span covers. -/
theorem Item.textAll_raw {source : Array UInt8} {item : Item}
    (hraw : item.label.kind = .leaf .raw) (further : List Item) :
    Item.textAll source (item :: further) =
      item.label.span.read source ++ Item.textAll source further := by
  obtain ⟨⟨id, kind, valid, span⟩, below⟩ := item
  obtain rfl : kind = .leaf .raw := hraw
  rfl

/-- A node that is a hash shows an item that is one. -/
theorem Item.exists_hash {source : Array UInt8} {item : Item} {hash : Hash}
    (h : item.kind source = .branch (.hash hash)) :
    hash.value = Item.textAll source item.children ∧
      ∃ found, item.label.kind = .branch (.hash found) := by
  obtain ⟨⟨id, kind, valid, span⟩, below⟩ := item
  cases kind with
  | leaf leaf => cases h
  | branch branch =>
    cases branch with
    | hash found =>
      cases h
      exact ⟨rfl, found, rfl⟩
    | _ => cases h

namespace Lexer

variable {lexer : Lexer} {bytes : Array UInt8} {id : NodeId} {node : Node} {hash : Hash}
  {run after : List UInt8} {cut : Nat}

/-- The tree of some bytes begins with a hash that has no escapes. -/
structure BeginsWithHash (lexer : Lexer) (bytes : Array UInt8) (id : NodeId) (node : Node)
    (hash : Hash) : Prop where
  first : ((lexer.tokenizeBytes bytes).tree.children Tree.root)[0]? = some id
  there : (lexer.tokenizeBytes bytes).tree.node? id = some node
  kind : node.kind = .branch (.hash hash)
  plain : ∀ child ∈ node.children, ∀ escape,
    (lexer.tokenizeBytes bytes).tree.kind? child ≠ some (.leaf (.escape escape))

/-- The bytes are a sign, a run of name bytes, and what does not go on with the name. -/
structure SignedRun (bytes : Array UInt8) (run after : List UInt8) : Prop where
  whole : bytes.toList = Byte.hash :: (run ++ after)
  names : ∀ b ∈ run, Byte.isName b = true
  complete : ¬ NameAhead after

/-- The first item is that of the hash. -/
theorem BeginsWithHash.exists_item (h : lexer.BeginsWithHash bytes id node hash) :
    ∃ (item : Item) (further : List Item), lexer.items { bytes := bytes } = item :: further ∧
      item.label.id = id ∧ Tree.Shows bytes item node := by
  have hshown := lexer.tokenizeBytes_shown bytes
  obtain ⟨root, hroot, -, -, -, -, hchildren⟩ := hshown.root
  have hfirst := h.first
  rw [Tree.children, hroot, Option.map_some, Option.getD_some, hchildren] at hfirst
  cases hitems : lexer.items { bytes := bytes } with
  | nil =>
    rw [hitems] at hfirst
    cases hfirst
  | cons item further =>
    rw [hitems] at hfirst
    obtain rfl : item.label.id = id := Option.some.inj hfirst
    have hitem : item ∈ lexer.items { bytes := bytes } := by
      rw [hitems]
      exact List.mem_cons_self
    obtain ⟨found, hfound, hshows⟩ := (hshown.held item hitem).shows
    obtain rfl := Option.some.inj (hfound.symm.trans h.there)
    exact ⟨item, further, rfl, rfl, hshows⟩

/-- All its children are raw text, and there are some. -/
theorem BeginsWithHash.raw (h : lexer.BeginsWithHash bytes id node hash)
    (hmade : lexer.fragments.Made) {item : Item} (hitem : item ∈ lexer.items { bytes := bytes })
    (hshows : Tree.Shows bytes item node) {found : Hash}
    (hkind : item.label.kind = .branch (.hash found)) :
    item.children ≠ [] ∧ ∀ child ∈ item.children, child.label.kind = .leaf .raw := by
  obtain ⟨-, hitems⟩ := lexer.scan_schematic hmade { bytes := bytes } (blank { bytes := bytes })
    rfl rfl rfl
  have hshape := (hitems item hitem).2 item (Rose.mem_subtrees_self item)
  rw [hkind] at hshape
  have hheld := (lexer.tokenizeBytes_shown bytes).held item hitem
  refine ⟨fun hnil => hshape.name rfl (by rw [hnil]; rfl), fun child hchild => ?_⟩
  have hname : child.label.kind.inName = true := hshape.held _ (List.mem_map_of_mem hchild)
  obtain ⟨below, hbelow, hshown⟩ := ((Tree.holds_iff.mp hheld).2 child hchild).shows
  have hin : child.label.id ∈ node.children := by
    rw [hshows.children]
    exact List.mem_toArray.mpr (List.mem_map_of_mem hchild)
  have hplain := h.plain _ hin
  rw [Tree.kind?, hbelow, Option.map_some, hshown.kind] at hplain
  obtain ⟨⟨own, kind, valid, span⟩, beyond⟩ := child
  rw [Rose.label_node] at hname ⊢
  cases kind with
  | branch branch => cases hname
  | leaf leaf =>
    cases leaf with
    | raw => rfl
    | escape escape => exact absurd rfl (hplain escape)
    | _ => cases hname

/-- It is the first node that is read. -/
theorem BeginsWithHash.id_eq (h : lexer.BeginsWithHash bytes id node hash) : id = 1 := by
  obtain ⟨item, further, hitems, rfl, -⟩ := h.exists_item
  have hids := (lexer.tokenizeBytes_shown bytes).ids
  have hsplit : Item.ids (item :: further) =
      item.label.id :: (Item.ids item.children ++ Item.ids further) := by
    rw [← List.singleton_append, Item.ids_append, Item.ids_singleton, List.cons_append]
  rw [hitems, hsplit] at hids
  have hsecond := congrArg (fun ids => ids[1]?) hids.symm
  obtain ⟨hlt, heq⟩ := List.getElem?_eq_some_iff.mp hsecond
  rw [List.getElem_range] at heq
  exact heq.symm

/-- **Read at once, the hash is its sign and a run**, and its value is the text of the run. -/
theorem BeginsWithHash.reads (h : lexer.BeginsWithHash bytes id node hash)
    (hmade : lexer.fragments.Made) :
    ∃ run after, SignedRun bytes run after ∧ node.span.start.byte = 0 ∧
      node.span.stop.byte = run.length + 1 ∧ hash.value = Utf8.decode run := by
  have hshown := lexer.tokenizeBytes_shown bytes
  obtain ⟨item, further, hitems, rfl, hshows⟩ := h.exists_item
  have hitem : item ∈ lexer.items { bytes := bytes } := by
    rw [hitems]
    exact List.mem_cons_self
  obtain ⟨hvalue, found, hkind⟩ := Item.exists_hash (hshows.kind.symm.trans h.kind)
  obtain ⟨hne, hraw⟩ := h.raw hmade hitem hshows hkind
  have hsign := (lexer.hashes_classified { bytes := bytes } h.there h.kind).2.sign
  have habut := hshown.abut
  have htold := lexer.items_read bytes item hitem item (Rose.mem_subtrees_self item)
  obtain ⟨child, hchildren, hfirst, hlast, hwhole⟩ :=
    Item.hash_run hkind (hshown.laid item hitem) htold hne hraw
  rw [hitems] at habut
  have hstart : item.label.span.start.byte = 0 := habut.1
  rw [hshows.span] at hsign ⊢
  rw [hstart] at hsign hfirst hwhole ⊢
  have hhead : bytes.toList.head? = some Byte.hash := by
    rw [List.head?_eq_getElem?, Array.getElem?_toList]
    exact hsign
  obtain ⟨tail, hbytes⟩ := List.head?_eq_some_iff.mp hhead
  obtain ⟨run, after, rfl, hrun, hnames⟩ := exists_run tail
  rw [hbytes, Nat.zero_add, List.drop_succ_cons, List.drop_zero, hrun, Nat.add_comm] at hwhole
  have hslice : child.label.span.slice bytes = run := by
    rw [Span.slice, hfirst, hlast, hwhole, Array.toList_extract, List.extract_eq_take_drop, hbytes,
      Nat.zero_add, List.drop_succ_cons, List.drop_zero, Nat.add_sub_cancel, List.take_left]
  have hahead : bytes.toList.drop item.label.span.stop.byte = after := by
    rw [hwhole, hbytes, List.drop_succ_cons, List.drop_left]
  refine ⟨run, after, ⟨hbytes, hnames, hahead ▸ (htold.name _ hkind rfl).1⟩, rfl, hwhole, ?_⟩
  rw [hvalue, hchildren, Item.textAll_raw (hraw child (by rw [hchildren]; exact
    List.mem_cons_self)), Span.read, hslice]
  exact String.append_empty

/-! ## 2. The first call

The first call ends with the hash, so its source is a sign and a run up to the end of the input. -/

/-- **A hash that ends with the input is one item**, with one run in it. -/
theorem items_upTo (hmade : lexer.fragments.Made) (hcut : cut ≤ bytes.size)
    (hfront : bytes.toList.take cut = Byte.hash :: run) (hne : run ≠ [])
    (hnames : ∀ b ∈ run, Byte.isName b = true) :
    ∃ settled valid, ∃ p q : Position, p.byte = 1 ∧ q.byte = cut ∧
      lexer.items (.upTo bytes cut) =
        [.node ⟨1, .branch (.hash settled), valid, ⟨Position.origin, q⟩⟩
          [.node ⟨2, .leaf .raw, true, ⟨p, q⟩⟩ []]] := by
  have hrest : (initial .root (.upTo bytes cut)).rest = Byte.hash :: run :=
    (Source.range_upTo hcut).trans hfront
  have hforms : (lexer.scope (.upTo bytes cut)).fragments.Made := hmade
  obtain ⟨hash, settled, valid, around, hview⟩ :=
    run_hash hforms (initial_fresh .root (.upTo bytes cut)) rfl hrest hne hnames
  have hfirst : (((initial .root (.upTo bytes cut)).view.openBranch (.hash hash)).consume
      (lexer.scope (.upTo bytes cut)) 1).position.byte = 1 := by
    refine (View.byte_consume _ 1 _).trans ?_
    show 0 + min 1 (initial .root (.upTo bytes cut)).rest.length = 1
    rw [hrest, List.length_cons]
    omega
  refine ⟨settled, valid, _, _, hfirst, (lexer.scan_upTo hcut).2, ?_⟩
  have hitems : lexer.items (.upTo bytes cut) =
      (fun view : View => ((view.draft (blank (.upTo bytes cut))).settle view.position).frame.done)
        (Scan.run (lexer.scope (.upTo bytes cut)) (initial .root (.upTo bytes cut))).view := rfl
  have hposition : (lexer.scan .root (.upTo bytes cut)).position = _ := congrArg View.position hview
  obtain ⟨b, tail, rfl⟩ := List.exists_cons_of_ne_nil hne
  rw [hitems, hview, hposition]
  rfl

/-- The node that the first call leaves: a hash up to the cut, with one run in it. -/
structure Cut (lexer : Lexer) (bytes : Array UInt8) (cut : Nat) (run : List UInt8) (node : Node)
    (hash : Hash) : Prop where
  there : (lexer.tokenize (.upTo bytes cut)).tree.node? 1 = some node
  kind : node.kind = .branch (.hash hash)
  start : node.span.start.byte = 0
  stop : node.span.stop.byte = cut
  value : hash.value = Utf8.decode run
  classified : hash.Classified bytes 0 hash.value node.valid
  inside : ∃ span, span.read bytes = Utf8.decode run ∧ node.children = #[2] ∧
    (lexer.tokenize (.upTo bytes cut)).tree.Holds bytes (some 1)
      (.node ⟨2, .leaf .raw, true, span⟩ [])

/-- **The first call leaves such a node.** -/
theorem exists_cut (hmade : lexer.fragments.Made) (hcut : cut ≤ bytes.size)
    (hfront : bytes.toList.take cut = Byte.hash :: run) (hne : run ≠ [])
    (hnames : ∀ b ∈ run, Byte.isName b = true) :
    ∃ node hash, lexer.Cut bytes cut run node hash := by
  obtain ⟨settled, valid, p, q, hp, hq, hitems⟩ := items_upTo hmade hcut hfront hne hnames
  obtain ⟨hheld, -, -⟩ := lexer.tokenize_grown (.upTo bytes cut)
  rw [hitems] at hheld
  have hholds := hheld _ (List.mem_singleton_self _)
  obtain ⟨node, hnode, hshows⟩ := hholds.shows
  have hchild := (Tree.holds_iff.mp hholds).2 _ (List.mem_singleton_self _)
  have hread : Span.read ⟨p, q⟩ bytes = Utf8.decode run := by
    rw [Span.read, Span.slice, hp, hq, Array.toList_extract, List.extract_eq_take_drop,
      ← List.drop_take, hfront, List.drop_succ_cons, List.drop_zero]
  have hkind : node.kind = .branch (.hash { settled with value := Utf8.decode run }) := by
    rw [hshows.kind, ← hread]
    show Kind.branch (.hash { settled with value := Span.read ⟨p, q⟩ bytes ++ "" }) = _
    rw [String.append_empty]
  obtain ⟨-, hclassified⟩ := lexer.hashes_classified (.upTo bytes cut) hnode hkind
  rw [hshows.span] at hclassified
  exact ⟨node, _, hnode, hkind, by rw [hshows.span]; rfl, by rw [hshows.span]; exact hq, rfl,
    hclassified, _, hread, hshows.children, hchild⟩

/-! ## 3. The second call

The second scan begins in the middle of a name, with a hash that has been settled already.  It does
not ask where the name began. -/

end Lexer

/-- A call leaves the texts below its branch, and adds those of its items. -/
theorem Added.joinedText_target {source : Array UInt8} {p : NodeId} {final : State}
    {items below : List Item} {tree tree' : Tree} (h : Added source p final items tree tree')
    (hchildren : (tree.children p).toList = below.map (·.label.id))
    (hbelow : ∀ item ∈ below, tree.Holds source (some p) item)
    (hapart : p ∉ Item.ids below) :
    tree'.joinedText source p = Item.textAll source (below ++ items) := by
  have hlist : (tree'.children p).toList = (below ++ items).map (·.label.id) := by
    rw [h.children_target, Array.toList_append, hchildren, List.map_append]
  have hkept : ∀ item ∈ below, tree'.Holds source (some p) item := by
    refine fun item hitem => (hbelow item hitem).of_body?_eq fun id hid => ?_
    have hne : id ≠ p := by
      rintro rfl
      exact hapart (Item.ids_subset hitem hid)
    obtain ⟨sub, hsub, rfl⟩ := Item.mem_ids.mp hid
    rw [Rose.subtreesAll_cons, Rose.subtreesAll_nil, List.append_nil] at hsub
    obtain ⟨parent, hholds⟩ := (hbelow item hitem).of_mem hsub
    obtain ⟨⟨kept, hthere, -⟩, -⟩ := Tree.holds_iff.mp hholds
    exact h.kept _ (Tree.lt_size_of_body? hthere) hne
  have hheld : ∀ item ∈ below ++ items, tree'.Holds source (some p) item := by
    intro item hitem
    rcases List.mem_append.mp hitem with hold | hnew
    · exact hkept item hold
    · exact h.held item hnew
  exact Tree.joinedText_eq hlist hheld

/-- A hash that was added to is settled, and has its new value. -/
theorem Node.finish_hash {node : Node} {before : Hash} (hkind : node.kind = .branch (.hash before))
    (hash : Hash) (value : String) (stop : Position) :
    node.finish (.hash hash) value stop =
      { node with
        kind := .branch (.hash { hash.settle with value := value })
        valid := hash.settle.isValid
        span := ⟨node.span.start, stop⟩ } := by
  obtain ⟨kind⟩ := node
  obtain rfl : kind = .branch (.hash before) := hkind
  rfl

namespace Lexer

variable {lexer : Lexer} {bytes : Array UInt8} {id : NodeId} {node : Node} {part : Hash}
  {run after : List UInt8} {cut : Nat}

/-- A branch that is there can be resumed. -/
theorem resume_eq (lexer : Lexer) {tree : Tree} {branch : Branch}
    (hnode : tree.node? id = some node) (hkind : node.kind = .branch branch) (source : Source) :
    lexer.resume tree id source = .ok (lexer.extend tree id branch source) := by
  have hbranch : branchToResume tree id = .ok branch := by
    rw [branchToResume, Tree.kind?, hnode, Option.map_some, hkind]
  rw [resume, hbranch]
  rfl

/-- **In a hash that is resumed, a scan takes the rest of the run**, and its items have the text of
that. -/
theorem scan_inHash (lexer : Lexer) (part : Hash) {p : Position}
    (hahead : bytes.toList.drop p.byte = run ++ after) (hnames : ∀ b ∈ run, Byte.isName b = true)
    (hcomplete : ¬ NameAhead after) (start : Draft) (hpending : start.pending = none)
    (hdone : start.frame.done = []) :
    (lexer.scan (.hash part) (.since bytes p)).frame.branch =
        .hash (run.foldl Hash.accumulate part) ∧
      (lexer.scan (.hash part) (.since bytes p)).position.byte = p.byte + run.length ∧
      Item.textAll bytes (lexer.draft start (.hash part) (.since bytes p)).frame.done =
        Utf8.decode run := by
  have hrest : (initial (.hash part) (.since bytes p)).rest = run ++ after :=
    (Source.range_since bytes p).trans hahead
  obtain ⟨halted, hview⟩ : ∃ halted,
      (Scan.run (lexer.scope (.since bytes p)) (initial (.hash part) (.since bytes p))).view = _ :=
    run_inHash (initial_fresh (.hash part) (.since bytes p)) rfl hrest hnames hcomplete
  refine ⟨?_, ?_, ?_⟩
  · exact (congrArg (fun view : View => view.frame.branch) hview).trans (View.branch_hashRun rfl)
  · exact (congrArg (fun view : View => view.position.byte) hview).trans (View.byte_hashRun hrest)
  · have hitems : (lexer.draft start (.hash part) (.since bytes p)).frame.done =
        (fun view : View => ((view.draft start).settle view.position).frame.done)
          (Scan.run (lexer.scope (.since bytes p)) (initial (.hash part) (.since bytes p))).view :=
      rfl
    rw [hitems, hview]
    refine (View.textAll_hashRun _ part (initial_ahead (.hash part) (.since bytes p)) hrest
      start).trans ?_
    show Item.textAll bytes (start.settle p).frame.done ++ _ = _
    rw [Draft.done_frame_settle, hdone, Draft.loose_of_none hpending]
    exact String.empty_append

/-- **The second call adds the rest of the run to that node**, and settles it again. -/
theorem Cut.resumed {back : List UInt8} (h : lexer.Cut bytes cut run node part)
    (hahead : bytes.toList.drop cut = back ++ after) (hnames : ∀ b ∈ back, Byte.isName b = true)
    (hcomplete : ¬ NameAhead after) :
    ∃ outcome final,
      lexer.resume (lexer.tokenize (.upTo bytes cut)).tree 1 (.since bytes node.span.stop) =
        .ok outcome ∧
      outcome.tree.node? 1 = some final ∧
      final.kind = .branch (.hash { (back.foldl Hash.accumulate part).settle with
        value := Utf8.decode run ++ Utf8.decode back }) ∧
      final.span.start.byte = 0 ∧ final.span.stop.byte = cut + back.length ∧
      final.valid = (back.foldl Hash.accumulate part).settle.isValid := by
  have hfaithful := lexer.tokenize_faithful (.upTo bytes cut)
  obtain ⟨outline, hordered⟩ := hfaithful.ordered
  have horigin := Tree.body?_of_node? h.there
  have hadded := lexer.extend_added hordered hfaithful.names horigin h.kind
    (.since bytes node.span.stop)
  rw [← h.stop] at hahead
  obtain ⟨hbranch, hposition, htext⟩ := lexer.scan_inHash part hahead hnames hcomplete
    (Draft.into (lexer.tokenize (.upTo bytes cut)).tree 1 node.body) rfl rfl
  generalize (lexer.draft _ (.hash part) _).frame.done = items at *
  generalize lexer.scan (.hash part) (.since bytes node.span.stop) = last at *
  obtain ⟨origin, began, hwas, hkind, -, hbecame⟩ := hadded.target
  obtain rfl := Option.some.inj (hwas.symm.trans horigin)
  obtain ⟨span, hread, hchildren, hholds⟩ := h.inside
  have hlist : ((lexer.tokenize (.upTo bytes cut)).tree.children 1).toList =
      [(.node ⟨2, .leaf .raw, true, span⟩ [] : Item)].map (·.label.id) := by
    rw [Tree.children, h.there, Option.map_some, Option.getD_some, hchildren]
    rfl
  -- the texts below the hash are the run of the first call and that of the second
  have hjoined : _ = Item.textAll bytes (.node ⟨2, .leaf .raw, true, span⟩ [] :: items) :=
    hadded.joinedText_target hlist (List.forall_mem_singleton.mpr hholds) (by simp [Item.ids])
  rw [Item.textAll_raw rfl, Rose.label_node, hread, htext] at hjoined
  rw [hjoined, hbranch, Node.finish_hash] at hbecame
  case hkind => exact h.kind
  obtain ⟨final, hfinal, hbody⟩ := Tree.exists_of_body? hbecame
  have hspan : final.span = ⟨node.span.start, last.position⟩ := congrArg Node.span hbody
  refine ⟨_, final, lexer.resume_eq h.there h.kind _, hfinal, congrArg Node.kind hbody, ?_, ?_,
    congrArg Node.valid hbody⟩
  · rw [hspan]
    exact h.start
  · rw [hspan, ← h.stop]
    exact hposition

/-! ## 4. Both

The text is put together from the two parts, and the hash from its accumulated digits.  Each of the
two comparisons has its own condition. -/

end Lexer

namespace Hash

variable {source : Array UInt8} {place : Nat} {text : String} {valid : Bool} {hash part : Hash}
  {run front back : List UInt8}

/-- A hash that is classified is settled. -/
theorem Classified.settled (h : hash.Classified source place (Utf8.decode run) valid) :
    hash.Settled run := by
  refine Settled.congr ?_ (Utf8.sameDigits_decode run)
  cases hcolor : hash.color with
  | unchecked => exact absurd hcolor h.checked
  | valid => exact Or.inl ⟨hcolor, h.color.mp hcolor, h.digits hcolor⟩
  | invalid =>
    refine Or.inr ⟨hcolor, fun hspells => ?_, h.dropped hcolor⟩
    exact absurd (hcolor.symm.trans (h.color.mpr hspells)) (by decide)

/-- A hash that is classified has the flag that it is classified by. -/
theorem Classified.isValid_eq (h : hash.Classified source place text valid) :
    hash.isValid = valid := by
  rw [Bool.eq_iff_iff, h.valid, isValid, Bool.or_eq_true, beq_iff_eq]

/-- Hashes that begin at one place are names alike. -/
theorem Begun.isName_eq (h : hash.Begun source place) (hpart : part.Begun source place) :
    part.isName = hash.isName :=
  Bool.eq_iff_iff.mpr (hpart.isName.trans h.isName.symm)

/-- **A hash that is settled again is what it would be at once**, if its first part has as many
bytes as a color, or if the whole is no color. -/
theorem Settled.resumed_eq (hpart : part.Settled front) (h : hash.Settled (front ++ back))
    (hcut : front.length ∈ colorDigitCounts ∨ hash.color = .invalid) :
    (back.foldl accumulate part).settle.color = hash.color ∧
      (back.foldl accumulate part).settle.digits = hash.digits := by
  refine h.unique (hpart.resumed (hcut.imp_right fun hcolor => ?_))
  rcases h with ⟨hvalid, -, -⟩ | ⟨-, hnone, -⟩
  · exact absurd (hcolor.symm.trans hvalid) (by decide)
  · exact hnone

end Hash

namespace Lexer

/-- A hash is read in two calls: the first one stops at `cut`, and the second one resumes the hash
where the first one ended it.  These are its nodes after the one and after the other. -/
structure ReadInTwo (lexer : Lexer) (bytes : Array UInt8) (cut : Nat) (id : NodeId)
    (begun final : Node) : Prop where
  first : (lexer.tokenize (.upTo bytes cut)).tree.node? id = some begun
  second : ∃ outcome, lexer.resume (lexer.tokenize (.upTo bytes cut)).tree id
    (.since bytes begun.span.stop) = .ok outcome ∧ outcome.tree.node? id = some final

/-- What the trees say of a hash in both cases can be read off its three nodes. -/
theorem exists_readInTwo {lexer : Lexer} {bytes : Array UInt8} {cut stop : Nat}
    {hash resumed : Hash} {valid flag : Bool} (part : Hash) (p : Position)
    (hfirst : (lexer.tokenizeBytes bytes).tree.children Tree.root = #[1])
    (hraw : (lexer.tokenizeBytes bytes).tree.kind? 2 = some (.leaf .raw))
    (hnode : ((lexer.tokenizeBytes bytes).tree.node? 1).map (fun node =>
      (node.kind, node.valid, node.children, node.span.stop.byte)) =
        some (.branch (.hash hash), valid, #[2], stop))
    (hbegun : ((lexer.tokenize (.upTo bytes cut)).tree.node? 1).map (fun node =>
      (node.kind, node.span.stop)) = some (.branch (.hash part), p))
    (hfinal : ((lexer.extend (lexer.tokenize (.upTo bytes cut)).tree 1 (.hash part)
      (.since bytes p)).tree.node? 1).map (fun node => (node.kind, node.valid)) =
        some (.branch (.hash resumed), flag)) :
    ∃ node begun final, lexer.BeginsWithHash bytes 1 node hash ∧ node.valid = valid ∧
      node.span.stop.byte = stop ∧ lexer.ReadInTwo bytes cut 1 begun final ∧
      final.kind = .branch (.hash resumed) ∧ final.valid = flag := by
  obtain ⟨node, hthere, heq⟩ := Option.map_eq_some_iff.mp hnode
  simp only [Prod.mk.injEq] at heq
  obtain ⟨hkind, hvalid, hchildren, hstop⟩ := heq
  obtain ⟨begun, hbegan, heq⟩ := Option.map_eq_some_iff.mp hbegun
  obtain ⟨hpart, rfl⟩ := Prod.mk.inj heq
  obtain ⟨final, hends, heq⟩ := Option.map_eq_some_iff.mp hfinal
  obtain ⟨hresumed, hflag⟩ := Prod.mk.inj heq
  refine ⟨node, begun, final, ⟨by rw [hfirst]; rfl, hthere, hkind, ?_⟩, hvalid, hstop,
    ⟨hbegan, _, lexer.resume_eq hbegan hpart _, hends⟩, hresumed, hflag⟩
  intro child hchild escape
  rw [hchildren] at hchild
  obtain rfl : child = 2 := by simpa using hchild
  rw [hraw]
  nofun

namespace SignedRun

variable {bytes : Array UInt8} {run front back after : List UInt8}

/-- A cut in the run leaves a front of it before, and a back of it behind. -/
theorem split (h : SignedRun bytes (front ++ back) after) :
    bytes.toList.take (front.length + 1) = Byte.hash :: front ∧
      bytes.toList.drop (front.length + 1) = back ++ after ∧ front.length + 1 ≤ bytes.size := by
  have hwhole : bytes.toList = Byte.hash :: (front ++ (back ++ after)) := by
    rw [h.whole, List.append_assoc]
  refine ⟨?_, ?_, ?_⟩
  · rw [hwhole, List.take_succ_cons, List.take_left]
  · rw [hwhole, List.drop_succ_cons, List.drop_left]
  · rw [← Array.length_toList, hwhole, List.length_cons, List.length_append]
    omega

/-- From its beginning to its end it is its sign and its run. -/
theorem slice (h : SignedRun bytes run after) {span : Span} (hstart : span.start.byte = 0)
    (hstop : span.stop.byte = run.length + 1) : span.slice bytes = Byte.hash :: run := by
  rw [Span.slice, hstart, hstop, Array.toList_extract, List.extract_eq_take_drop, h.whole,
    List.drop_zero, Nat.sub_zero, List.take_succ_cons, List.take_left]

end SignedRun

/-- **A hash may be resumed from any cut behind its first byte.**  It is as long as if it were read
at once, and as much a name; it has the same text if the cut is not inside a character; and it has
the same color and digits if the part before the cut has as many bytes as a color, or if the whole
is no color.  Then it is well formed as before, and so it is if it is a name. -/
theorem hash_resumed {dialect : Dialect} {lexer : Lexer} (hlexer : ofDialect dialect = .ok lexer)
    {bytes : Array UInt8} {id : NodeId} {node : Node} {hash : Hash}
    (h : lexer.BeginsWithHash bytes id node hash) {cut : Nat} (hcut : 2 ≤ cut)
    (hstop : cut ≤ node.span.stop.byte) :
    ∃ (begun final : Node) (part resumed : Hash), lexer.ReadInTwo bytes cut id begun final ∧
      begun.kind = .branch (.hash part) ∧ begun.span.start.byte = 0 ∧
      begun.span.stop.byte = cut ∧ final.kind = .branch (.hash resumed) ∧
      final.span.start.byte = node.span.start.byte ∧
      final.span.stop.byte = node.span.stop.byte ∧ resumed.isName = hash.isName ∧
      (Utf8.Boundary (node.span.slice bytes) cut → resumed.value = hash.value) ∧
      (cut - 1 ∈ Hash.colorDigitCounts ∨ hash.color = .invalid →
        resumed.color = hash.color ∧ resumed.digits = hash.digits) ∧
      (cut - 1 ∈ Hash.colorDigitCounts ∨ hash.color = .invalid ∨ hash.isName = true →
        final.valid = node.valid) := by
  have hmade := ofDialect_made hlexer
  obtain rfl := h.id_eq
  obtain ⟨run, after, hsigned, hstart, hspan, hvalue⟩ := h.reads hmade
  obtain ⟨-, hclassified⟩ := lexer.hashes_classified { bytes := bytes } h.there h.kind
  rw [hstart] at hclassified ⊢
  rw [hspan] at hstop ⊢
  obtain ⟨n, rfl⟩ : ∃ n, cut = n + 1 := ⟨cut - 1, by omega⟩
  -- the run is cut in two
  obtain ⟨front, back, rfl, hn⟩ : ∃ front back, run = front ++ back ∧ front.length = n :=
    ⟨run.take n, run.drop n, (List.take_append_drop n run).symm, by
      rw [List.length_take]
      omega⟩
  subst hn
  obtain ⟨hfront, hahead, hsize⟩ := hsigned.split
  have hne : front ≠ [] := List.length_pos_iff.mp (by omega)
  obtain ⟨hfrontnames, hbacknames⟩ := List.forall_mem_append.mp hsigned.names
  obtain ⟨begun, part, hpart⟩ := lexer.exists_cut hmade hsize hfront hne hfrontnames
  obtain ⟨outcome, final, hresume, hfinal, hkind, hbegin, hend, hvalid⟩ :=
    hpart.resumed hahead hbacknames hsigned.complete
  have hname : (back.foldl Hash.accumulate part).settle.isName = hash.isName := by
    rw [Hash.isName_settle, Hash.isName_foldl]
    exact hclassified.isName_eq hpart.classified.toBegun
  have hsettled : hash.Settled (front ++ back) := (hvalue ▸ hclassified).settled
  have hpartsettled : part.Settled front := (hpart.value ▸ hpart.classified).settled
  have hcolor := hpartsettled.resumed_eq hsettled
  rw [← hclassified.isValid_eq]
  generalize (back.foldl Hash.accumulate part).settle = settled at *
  refine ⟨begun, final, part, _, ⟨hpart.there, outcome, hresume, hfinal⟩, hpart.kind,
    hpart.start, hpart.stop, hkind, hbegin, ?_, hname, fun hboundary => ?_, hcolor,
    fun hcase => ?_⟩
  · rw [hend, List.length_append]
    omega
  · rw [hsigned.slice hstart hspan] at hboundary
    have hdecode := (hboundary.behind_ascii (by decide)).decode_eq
    rw [List.take_left, List.drop_left] at hdecode
    exact hdecode.symm.trans hvalue.symm
  · rw [hvalid, Hash.isValid, Hash.isValid, hname]
    -- a name is valid whatever its color
    by_cases hnamed : hash.isName = true
    · rw [hnamed, Bool.true_or, Bool.true_or]
    · rw [(hcolor (hcase.imp_right fun hrest => hrest.resolve_right hnamed)).1]

/-- `#123456` is cut behind three digits, which are a color as well as all six. -/
theorem color_resumed :
    ∃ (node begun final : Node) (hash resumed : Hash),
      BeginsWithHash ⟨Dialect.standard, Fragments.empty⟩
        #[0x23, 0x31, 0x32, 0x33, 0x34, 0x35, 0x36] 1 node hash ∧
      2 ≤ 4 ∧ 4 ≤ node.span.stop.byte ∧
      ReadInTwo ⟨Dialect.standard, Fragments.empty⟩
        #[0x23, 0x31, 0x32, 0x33, 0x34, 0x35, 0x36] 4 1 begun final ∧
      final.kind = .branch (.hash resumed) ∧ resumed.color = hash.color ∧
      resumed.digits = hash.digits ∧ final.valid = node.valid := by
  have hlexer : ofDialect Dialect.standard = .ok ⟨Dialect.standard, Fragments.empty⟩ := by rfl
  have hread : ∃ node begun final, BeginsWithHash ⟨Dialect.standard, Fragments.empty⟩
      #[0x23, 0x31, 0x32, 0x33, 0x34, 0x35, 0x36] 1 node
        ⟨false, .valid, #[0x31, 0x32, 0x33, 0x34, 0x35, 0x36], "123456"⟩ ∧ node.valid = true ∧
      node.span.stop.byte = 7 ∧ ReadInTwo ⟨Dialect.standard, Fragments.empty⟩
        #[0x23, 0x31, 0x32, 0x33, 0x34, 0x35, 0x36] 4 1 begun final ∧
      final.kind = .branch (.hash ⟨false, .valid, #[0x31, 0x32, 0x33, 0x34, 0x35, 0x36],
        "123456"⟩) ∧ final.valid = true :=
    exists_readInTwo ⟨false, .valid, #[0x31, 0x32, 0x33], "123"⟩ ⟨⟨4, 4⟩, ⟨4, 4⟩, 0⟩
      (by decide +kernel) (by decide +kernel) (by decide +kernel) (by decide +kernel)
      (by decide +kernel)
  obtain ⟨node, -, -, hbegins, -, hstop, -⟩ := hread
  have hle : 4 ≤ node.span.stop.byte := by
    rw [hstop]
    decide
  obtain ⟨begun, final, part, resumed, hboth, -, -, -, hkind, -, -, -, -, hcolor, hvalid⟩ :=
    hash_resumed hlexer hbegins (by decide) hle
  obtain ⟨hsame, hdigits⟩ := hcolor (Or.inl (by decide))
  exact ⟨node, begun, final, _, resumed, hbegins, by decide, hle, hboth, hkind, hsame, hdigits,
    hvalid (Or.inl (by decide))⟩

/-- **A cut can take the color or the text away.**  `#123` is a color, and cut behind its first
digit it is none.  The value of `#é` is `é`, and cut inside that it is two replacements. -/
theorem resumed_hash_differs :
    ∃ lexer, ofDialect Dialect.standard = .ok lexer ∧
      (∃ (node begun final : Node) (hash resumed : Hash),
        lexer.BeginsWithHash #[0x23, 0x31, 0x32, 0x33] 1 node hash ∧ node.span.stop.byte = 4 ∧
        lexer.ReadInTwo #[0x23, 0x31, 0x32, 0x33] 2 1 begun final ∧
        final.kind = .branch (.hash resumed) ∧ resumed.color ≠ hash.color ∧
        resumed.digits ≠ hash.digits ∧ final.valid ≠ node.valid) ∧
      ∃ (node begun final : Node) (hash resumed : Hash),
        lexer.BeginsWithHash #[0x23, 0xC3, 0xA9] 1 node hash ∧ node.span.stop.byte = 3 ∧
        lexer.ReadInTwo #[0x23, 0xC3, 0xA9] 2 1 begun final ∧
        final.kind = .branch (.hash resumed) ∧ resumed.value ≠ hash.value := by
  refine ⟨⟨Dialect.standard, Fragments.empty⟩, rfl, ?_, ?_⟩
  · have hread : ∃ node begun final, BeginsWithHash ⟨Dialect.standard, Fragments.empty⟩
        #[0x23, 0x31, 0x32, 0x33] 1 node ⟨false, .valid, #[0x31, 0x32, 0x33], "123"⟩ ∧
        node.valid = true ∧ node.span.stop.byte = 4 ∧
        ReadInTwo ⟨Dialect.standard, Fragments.empty⟩ #[0x23, 0x31, 0x32, 0x33] 2 1 begun final ∧
        final.kind = .branch (.hash ⟨false, .invalid, #[], "123"⟩) ∧ final.valid = false :=
      exists_readInTwo ⟨false, .invalid, #[], "1"⟩ ⟨⟨2, 2⟩, ⟨2, 2⟩, 0⟩ (by decide +kernel)
        (by decide +kernel) (by decide +kernel) (by decide +kernel) (by decide +kernel)
    obtain ⟨node, begun, final, hbegins, hvalid, hstop, hboth, hkind, hflag⟩ := hread
    exact ⟨node, begun, final, _, _, hbegins, hstop, hboth, hkind, by decide, by decide, by
      rw [hvalid, hflag]
      decide⟩
  · have hread : ∃ node begun final, BeginsWithHash ⟨Dialect.standard, Fragments.empty⟩
        #[0x23, 0xC3, 0xA9] 1 node ⟨true, .invalid, #[], "é"⟩ ∧ node.valid = true ∧
        node.span.stop.byte = 3 ∧
        ReadInTwo ⟨Dialect.standard, Fragments.empty⟩ #[0x23, 0xC3, 0xA9] 2 1 begun final ∧
        final.kind = .branch (.hash ⟨true, .invalid, #[], "\uFFFD\uFFFD"⟩) ∧
        final.valid = true :=
      exists_readInTwo ⟨true, .invalid, #[], "\uFFFD"⟩ ⟨⟨2, 2⟩, ⟨2, 2⟩, 0⟩ (by decide +kernel)
        (by decide +kernel) (by decide +kernel) (by decide +kernel) (by decide +kernel)
    obtain ⟨node, begun, final, hbegins, -, hstop, hboth, hkind, -⟩ := hread
    exact ⟨node, begun, final, _, _, hbegins, hstop, hboth, hkind, by decide⟩

end Lexer
end StyleLex
