/-
# One call and two

A source may be read by two calls: one that stops where a child of the root ends, and one that goes
on in the root from there.  They leave the tree that one call leaves, node by node
(`Lexer.tokenizeBytes_resumed`).  The scans share the marks out (`Lexer.scan_split`), and what a
second call does to a root does not depend on where the first one ended it
(`Assembly.finish_resumed`).

Fragments are left out: one that stands at the end of the input lacks the group that would have
followed it, and is malformed there.

The proof goes through three assemblies.  The first call makes a tree from the marks of its scan;
the second call takes the marks of a second scan into that tree; and one call would have taken both
lists of marks, one after the other, into an empty tree.  The last two differ only in that between
the lists the first call has finished its tree, closing what was open and ending the root.  As the
first scan stops where a child of the root ends, nothing but the root is open then, and that is why
finishing in between does no harm.
-/
import StyleLex.Proofs.Scan.Splitting
import StyleLex.Proofs.Tiling
import StyleLex.Proofs.Tree.Resuming

namespace StyleLex
namespace Lexer

/-! ## 1. The tree of two calls

Assembling and scanning are separate here: the calculation below only moves marks, and what the
scans have to do with each other is in the hypotheses that come before it. -/

variable {bytes : Array UInt8}

/-- **The second call completes the tree**, if the first one stopped where an item of the root
ends. -/
theorem extend_resumed (lexer : Lexer) (hmade : lexer.fragments.Made) {item : Item}
    (hitem : item ∈ lexer.items { bytes := bytes })
    (hkind : ∀ branch, item.label.kind = .branch branch → branch.isFragment = false)
    {cut : Source} (hcut : .upTo bytes item.label.span.stop.byte = cut) :
    (lexer.extend (lexer.tokenize cut).tree Tree.root .root
      (.since bytes (lexer.scan .root cut).position)).tree = (lexer.tokenizeBytes bytes).tree := by
  have hbound := lexer.stop_le hitem
  have hcutroot : (lexer.scan .root cut).frame.branch = .root := hcut ▸ (lexer.scan_upTo hbound).1
  obtain ⟨hroot, -⟩ := lexer.scan_laid { bytes := bytes } rfl (blank { bytes := bytes })
    rfl rfl rfl rfl
  obtain ⟨hmarks, hposition, hafterroot⟩ :=
    lexer.scan_split hmade hitem hkind (congrArg (lexer.scan .root) hcut) rfl
  have horigin := body?_new { bytes := bytes }
  obtain ⟨site, hgiven, hbase, ⟨hsound, -, hanchor, -⟩, hreal, houter⟩ :=
    lexer.extend_realizes (Tree.ordered_new none Position.origin) horigin .root cut
  have htop : site.Top := ⟨hbase, hgiven ▸ rfl, hbase ▸ hanchor⟩
  have hbytes : cut.bytes = bytes := hcut ▸ rfl
  have hfirst : (lexer.tokenize cut).tree = (Assembly.finish bytes
      ((Assembly.into (Tree.new none Position.origin) Tree.root).takeAll bytes
        (lexer.scan .root cut).marks.reverse)
      .root (lexer.scan .root cut).position).tree := by
    rw [lexer.tokenize_eq cut hcutroot, hbytes, ← hcut]
    rfl
  rw [hbytes] at hreal
  generalize (lexer.scan .root cut).position = p at *
  obtain ⟨hadmits, hclosed⟩ := lexer.scan_admits .root (.since bytes p)
    ((Draft.outer_settle p _).trans houter)
  obtain ⟨hnone, hplace⟩ := lexer.scan_first .root (.since bytes p)
  -- the second call, then both lists of marks in one assembly, then one call over all
  calc (lexer.extend (lexer.tokenize cut).tree Tree.root .root (.since bytes p)).tree
      = (((Assembly.into (lexer.tokenize cut).tree Tree.root).takeAll bytes
          (lexer.scan .root (.since bytes p)).marks.reverse).finish bytes .root
            (lexer.scan .root (.since bytes p)).position).tree := by
        rw [extend, hafterroot]
        rfl
    _ = ((((Assembly.into (Tree.new none Position.origin) Tree.root).takeAll bytes
          (lexer.scan .root cut).marks.reverse).takeAll bytes
            (lexer.scan .root (.since bytes p)).marks.reverse).finish bytes .root
              (lexer.scan .root (.since bytes p)).position).tree := by
        rw [hfirst]
        exact Assembly.finish_resumed hreal hsound htop houter hadmits hclosed hnone hplace
    _ = (lexer.tokenizeBytes bytes).tree := by
        rw [tokenizeBytes, lexer.tokenize_eq { bytes := bytes } hroot, hmarks, hposition,
          List.reverse_append, Assembly.takeAll, Assembly.takeAll, Assembly.takeAll,
          List.foldl_append]

/-! ## 2. Resuming the root

It remains to see that the first call ends its root where it was stopped, so that the second one
goes on from there, and that the root may be resumed. -/

/-- A child of the root shows an item of the source. -/
theorem exists_item_of_mem_children (lexer : Lexer) {id : NodeId} {child : Node}
    (hchild : id ∈ (lexer.tokenizeBytes bytes).tree.children Tree.root)
    (hnode : (lexer.tokenizeBytes bytes).tree.node? id = some child) :
    ∃ item ∈ lexer.items { bytes := bytes }, item.label.id = id ∧ Tree.Shows bytes item child := by
  have hshown := lexer.tokenizeBytes_shown bytes
  obtain ⟨root, hroot, -, -, -, -, hchildren⟩ := hshown.root
  rw [Tree.children, hroot, Option.map_some, Option.getD_some, hchildren, List.mem_toArray,
    List.mem_map] at hchild
  obtain ⟨item, hitem, rfl⟩ := hchild
  obtain ⟨found, hfound, hshows⟩ := (hshown.held item hitem).shows
  rw [hnode, Option.some.injEq] at hfound
  exact ⟨item, hitem, rfl, hfound ▸ hshows⟩

/-- The root of a source ends where the scan did. -/
theorem exists_root (lexer : Lexer) {source : Source}
    (hroot : (lexer.scan .root source).frame.branch = .root) :
    ∃ root, (lexer.tokenize source).tree.node? Tree.root = some root ∧
      root.kind = .branch .root ∧
      root.span = ⟨source.start, (lexer.scan .root source).position⟩ := by
  obtain ⟨-, -, hself⟩ := lexer.tokenize_grown source
  obtain ⟨root, hnode, hbody⟩ := Tree.exists_of_body? (hself hroot)
  exact ⟨root, hnode, congrArg Node.kind hbody, congrArg Node.span hbody⟩

/-- **Two calls leave the tree that one leaves.**  The first one stops where a child of the root
ends, which is no fragment, and the second one resumes the root where the first one ended it. -/
theorem tokenizeBytes_resumed {dialect : Dialect} {lexer : Lexer}
    (hlexer : ofDialect dialect = .ok lexer) (bytes : Array UInt8) {id : NodeId} {child : Node}
    (hchild : id ∈ (lexer.tokenizeBytes bytes).tree.children Tree.root)
    (hnode : (lexer.tokenizeBytes bytes).tree.node? id = some child)
    (hkind : ∀ branch, child.kind = .branch branch → branch.isFragment = false) :
    ∃ root outcome,
      (lexer.tokenize (.upTo bytes child.span.stop.byte)).tree.node? Tree.root = some root ∧
      lexer.resume (lexer.tokenize (.upTo bytes child.span.stop.byte)).tree Tree.root
        (.since bytes root.span.stop) = .ok outcome ∧
      outcome.tree = (lexer.tokenizeBytes bytes).tree := by
  obtain ⟨item, hitem, rfl, hshows⟩ := lexer.exists_item_of_mem_children hchild hnode
  -- the node is no fragment, so neither is the item that it shows
  have hitemkind : ∀ branch, item.label.kind = .branch branch → branch.isFragment = false := by
    intro branch hbranch
    obtain ⟨label, below⟩ := item
    rw [Rose.label_node] at hbranch
    have hown := hshows.kind
    rw [Item.kind, hbranch] at hown
    rw [← hkind _ hown, Branch.isFragment_withValue]
  rw [hshows.span]
  obtain ⟨hcutroot, -⟩ := lexer.scan_upTo (lexer.stop_le hitem)
  obtain ⟨root, hroot, hrootkind, hspan⟩ := lexer.exists_root hcutroot
  have hresume : branchToResume (lexer.tokenize (.upTo bytes item.label.span.stop.byte)).tree
      Tree.root = .ok .root := by
    rw [branchToResume, Tree.kind?, hroot, Option.map_some, hrootkind]
  refine ⟨root, _, hroot, by rw [resume, hresume]; rfl, ?_⟩
  rw [hspan]
  exact lexer.extend_resumed (ofDialect_made hlexer) hitem hitemkind rfl

/-- A name, a separator and another name are read in two calls. -/
theorem two_names_resumed :
    ∃ lexer root outcome, ofDialect Dialect.standard = .ok lexer ∧
      (lexer.tokenize (.upTo #[0x61, 0x3B, 0x62] 2)).tree.node? Tree.root = some root ∧
      lexer.resume (lexer.tokenize (.upTo #[0x61, 0x3B, 0x62] 2)).tree Tree.root
        (.since #[0x61, 0x3B, 0x62] root.span.stop) = .ok outcome ∧
      outcome.tree = (lexer.tokenizeBytes #[0x61, 0x3B, 0x62]).tree := by
  have hlexer : ofDialect Dialect.standard = .ok ⟨Dialect.standard, Fragments.empty⟩ := by rfl
  have hchild : 3 ∈ (tokenizeBytes ⟨Dialect.standard, Fragments.empty⟩
      #[0x61, 0x3B, 0x62]).tree.children Tree.root := Array.mem_toList_iff.mp (by decide)
  have hthere : ((tokenizeBytes ⟨Dialect.standard, Fragments.empty⟩
      #[0x61, 0x3B, 0x62]).tree.node? 3).map (fun node => (node.kind, node.span.stop.byte)) =
        some (.leaf (.separator 0x3B), 2) := by decide
  obtain ⟨child, hnode, hboth⟩ := Option.map_eq_some_iff.mp hthere
  rw [Prod.mk.injEq] at hboth
  obtain ⟨hkind, hstop⟩ := hboth
  obtain ⟨root, outcome, hroot, hresume, htree⟩ :=
    tokenizeBytes_resumed hlexer #[0x61, 0x3B, 0x62] hchild hnode
      (fun branch hbranch => by rw [hkind] at hbranch; cases hbranch)
  rw [hstop] at hroot hresume
  exact ⟨_, root, outcome, hlexer, hroot, hresume, htree⟩

end Lexer
end StyleLex
