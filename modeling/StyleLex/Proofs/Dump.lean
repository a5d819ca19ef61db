/-
# What a dump says

A dump has a line for every node, and a line says at which level its node stands, of which kind it
is, what it holds, where it is and whether it is malformed (`Node.line_inj`).  Nothing that a
source can hold disturbs that: the only text of the source in a line is quoted, and a quoted text
neither breaks the line nor hides where it ends.  So a dump can be cut into its lines again
(`lines_inj`), the levels of the lines are the depths of the nodes in the order of the walk, and
they determine the tree (`Tree.Ordered.sameShape`).

A dump is meant to be compared, so it should tell trees apart.  What it leaves out is left out on
purpose: the bytes of delimiters, and what a description does not show.  Hence two sources with the
same dump need not be the same, but their trees are as far as a dump shows them, node by node.

The texts in a dump could break it in two ways, by a line break in them or by looking like the rest
of a line.  Quoting prevents the first by escaping, and the second since a quoted text ends with the
first quote that is not escaped.  Which characters are shown as they are is given by a table; no
proof looks into it.
-/
import StyleLex.Proofs.Extension
import StyleLex.Proofs.Text.Quoted
import StyleLex.Proofs.Tree.Shape
import StyleLex.Tree.Dump

namespace StyleLex

open Text (cut_inj)

/-! ## 1. The parts of a line

For each part of a line, the characters that it may have; the parts are then told apart by the first
character that they do not have. -/

/-- The names of the kinds. -/
def Kind.names : List String :=
  ["root", "group", "quoted", "url", "comment", "quasi", "annotation", "identifier", "hash",
    "numeric", "separator", "operator", "blank", "cdx", "unexpected", "escape", "raw"]

/-- Every kind has one of these names. -/
theorem Kind.name_mem (kind : Kind) : kind.name ∈ Kind.names := by
  cases kind with
  | branch branch => cases branch <;> simp [names, name, Branch.name]
  | leaf leaf => cases leaf <;> simp [names, name, Leaf.name]

/-- The name of a kind is one word. -/
theorem Kind.name_word (kind : Kind) :
    kind.name.toList ≠ [] ∧ ∀ c ∈ kind.name.toList, c ≠ ' ' ∧ c ≠ '\n' := by
  have hall : ∀ name ∈ Kind.names, name.toList ≠ [] ∧
      name.toList.all (fun c => c ≠ ' ' && c ≠ '\n') = true := by decide
  obtain ⟨hne, hword⟩ := hall kind.name kind.name_mem
  refine ⟨hne, fun c hc => ?_⟩
  simpa using List.all_eq_true.mp hword c hc

/-- The characters of a place. -/
def Position.marks : List Char := ['0', '1', '2', '3', '4', '5', '6', '7', '8', '9', ':', '-']

/-- Digits are among them. -/
theorem Position.mem_marks_of_isDigit {c : Char} (h : c.isDigit = true) : c ∈ Position.marks := by
  obtain ⟨hlow, hhigh⟩ := Char.isDigit_iff_toNat.mp h
  have hall : ∀ n < 10, Char.ofNat (48 + n) ∈ Position.marks := by decide
  have hlow : 48 ≤ c.toNat := hlow
  have hhigh : c.toNat ≤ 57 := hhigh
  have := hall (c.toNat - 48) (by omega)
  rwa [Nat.add_sub_cancel' hlow, Char.ofNat_toNat] at this

/-- A number has digits only. -/
theorem Position.mem_marks_toString (n : Nat) : ∀ c ∈ (toString n).toList, c ∈ Position.marks := by
  intro c hc
  rw [Nat.toString_eq_ofList_toDigits, String.toList_ofList] at hc
  exact mem_marks_of_isDigit (Nat.isDigit_of_mem_toDigits (by decide) (by decide) hc)

/-- A position has numbers and what parts them. -/
theorem Position.mem_marks_render (position : Position) :
    ∀ c ∈ position.render.toList, c ∈ Position.marks := by
  intro c hc
  rw [render, String.toList_append, String.toList_append, List.mem_append, List.mem_append] at hc
  rcases hc with (hc | hc) | hc
  · exact mem_marks_toString _ c hc
  · rw [List.mem_singleton.mp hc]
    decide
  · exact mem_marks_toString _ c hc

/-- So has a place. -/
theorem Span.mem_marks_render (span : Span) : ∀ c ∈ span.render.toList, c ∈ Position.marks := by
  intro c hc
  have hdash : ∀ c ∈ "-".toList, c ∈ Position.marks := by
    intro c hc
    rw [List.mem_singleton.mp hc]
    decide
  rw [render] at hc
  split at hc <;> rw [String.toList_append, String.toList_append, List.mem_append,
    List.mem_append] at hc
  · rcases hc with (hc | hc) | hc
    · exact Position.mem_marks_render _ c hc
    · exact hdash c hc
    · exact Position.mem_marks_toString _ c hc
  · rcases hc with (hc | hc) | hc
    · exact Position.mem_marks_render _ c hc
    · exact hdash c hc
    · exact Position.mem_marks_render _ c hc

/-- A place does not break its line, and has no blank and no bracket in it. -/
theorem Span.not_mem_render {span : Span} {c : Char} (h : c ∉ Position.marks) :
    c ∉ span.render.toList :=
  fun hin => h (span.mem_marks_render c hin)

/-- A place is not empty. -/
theorem Span.render_ne_nil (span : Span) : span.render.toList ≠ [] := by
  rw [render]
  split <;> simp [String.toList_append]

/-! ## 2. Lines

A line is written as a list of characters, put together from its parts. -/

namespace Node

/-- The remark at the end of a line. -/
def remark (valid : Bool) : List Char := if valid then [] else " (invalid)".toList

/-- What a node holds, in its line. -/
def holding (description : Option String) : List Char :=
  (description.map fun text => ' ' :: (Text.quoted text).toList).getD []

/-- The characters of the line of a node, up to the line break. -/
def line (source : Array UInt8) (level : Nat) (node : Node) : List Char :=
  List.replicate (2 * level) ' ' ++ (node.kind.name.toList ++
    (holding (node.description? source) ++
      (' ' :: '@' :: ' ' :: (node.span.render.toList ++ remark node.valid))))

variable {source source' : Array UInt8} {level level' : Nat} {node node' : Node}

/-- The line that is written is this one, and a line break. -/
theorem toList_dumpLine (source : Array UInt8) (level : Nat) (node : Node) :
    (Tree.dumpLine source level node).toList = node.line source level ++ ['\n'] := by
  rw [Tree.dumpLine, line]
  cases node.description? source <;> cases node.valid <;>
    simp [Tree.indentation, holding, remark, String.toList_append]

/-- What a node holds does not break its line. -/
theorem not_mem_holding (description : Option String) : '\n' ∉ holding description := by
  cases description with
  | none => exact List.not_mem_nil
  | some text =>
    intro hin
    rcases List.mem_cons.mp hin with h | h
    · cases h
    · exact Text.unbroken_quoted text h

/-- No part of a line breaks it. -/
theorem unbroken_line (source : Array UInt8) (level : Nat) (node : Node) :
    '\n' ∉ node.line source level := by
  have hname : '\n' ∉ node.kind.name.toList := fun hin => (node.kind.name_word.2 _ hin).2 rfl
  have hplace : '\n' ∉ node.span.render.toList := Span.not_mem_render (by decide)
  have hremark : '\n' ∉ remark node.valid := by cases node.valid <;> decide
  simp [line, hname, not_mem_holding, hplace, hremark]

/-- Behind the indent a line begins with a letter. -/
theorem indented_line (source : Array UInt8) (level : Nat) (node : Node) :
    ∃ first rest, first ≠ ' ' ∧
      node.line source level = List.replicate (2 * level) ' ' ++ first :: rest := by
  obtain ⟨hne, hword⟩ := node.kind.name_word
  obtain ⟨first, rest, heq⟩ := List.exists_cons_of_ne_nil hne
  rw [line, heq]
  exact ⟨first, _, (hword first (heq ▸ List.mem_cons_self)).1, rfl⟩

/-- The remark stands at the end of a line only where the node is malformed: any other line ends
with a digit. -/
theorem remark_line (source : Array UInt8) (level : Nat) (node : Node) :
    " (invalid)".toList <:+ node.line source level ↔ node.valid = false := by
  have hline : node.line source level = (List.replicate (2 * level) ' ' ++
      (node.kind.name.toList ++ (holding (node.description? source) ++ [' ', '@', ' '])) ++
      node.span.render.toList) ++ remark node.valid := by simp [line]
  rw [hline]
  constructor
  · rintro ⟨front, hfront⟩
    by_contra hvalid
    rw [Bool.not_eq_false] at hvalid
    rw [hvalid, remark, if_pos rfl, List.append_nil] at hfront
    have hlast := congrArg List.getLast? hfront
    rw [List.getLast?_append_of_ne_nil _ (by decide),
      List.getLast?_append_of_ne_nil _ node.span.render_ne_nil] at hlast
    have hbracket : ')' ∉ node.span.render.toList := Span.not_mem_render (by decide)
    exact hbracket (List.mem_of_getLast? hlast.symm)
  · intro hvalid
    rw [hvalid]
    exact List.suffix_append _ _

/-! ## 3. Lines read back

Reading back goes from left to right: the indent, the name, the text, the place, the remark.
Each lemma takes one part off two equal lines. -/

/-- An indent ends with the first other character. -/
theorem replicate_append_inj {n m : Nat} {a b c : Char} {xs ys : List Char} (hb : b ≠ a)
    (hc : c ≠ a) (h : List.replicate n a ++ b :: xs = List.replicate m a ++ c :: ys) :
    n = m ∧ b :: xs = c :: ys := by
  induction n generalizing m with
  | zero =>
    cases m with
    | zero => exact ⟨rfl, h⟩
    | succ m => exact absurd (List.cons.inj h).1 hb
  | succ n ih =>
    cases m with
    | zero => exact absurd (List.cons.inj h).1.symm hc
    | succ m =>
      obtain ⟨heq, hrest⟩ := ih (List.cons.inj h).2
      exact ⟨congrArg Nat.succ heq, hrest⟩

/-- A word ends at the first blank. -/
theorem name_append_inj {kind kind' : Kind} {xs ys : List Char}
    (h : kind.name.toList ++ ' ' :: xs = kind'.name.toList ++ ' ' :: ys) :
    kind.name = kind'.name ∧ xs = ys := by
  obtain ⟨hname, hrest⟩ := cut_inj (fun hin => (kind.name_word.2 _ hin).1 rfl)
    (fun hin => (kind'.name_word.2 _ hin).1 rfl) h
  exact ⟨String.toList_inj.mp hname, hrest⟩

/-- What a node holds is quoted, and what follows is not. -/
theorem holding_append_inj {d d' : Option String} {xs ys : List Char}
    (h : holding d ++ ' ' :: '@' :: xs = holding d' ++ ' ' :: '@' :: ys) : d = d' ∧ xs = ys := by
  cases d with
  | none =>
    cases d' with
    | none => exact ⟨rfl, (List.cons.inj (List.cons.inj h).2).2⟩
    | some text =>
      have hquote := (List.cons.inj h).2
      rw [Text.toList_quoted] at hquote
      exact absurd (List.cons.inj hquote).1 (by decide)
  | some text =>
    cases d' with
    | none =>
      have hquote := (List.cons.inj h).2
      rw [Text.toList_quoted] at hquote
      exact absurd (List.cons.inj hquote).1 (by decide)
    | some text' =>
      obtain ⟨rfl, hrest⟩ := Text.quoted_append_inj (List.cons.inj h).2
      exact ⟨rfl, (List.cons.inj (List.cons.inj hrest).2).2⟩

/-- What follows a name begins with a blank, whether the node holds something or not. -/
theorem exists_holding_append (d : Option String) (xs : List Char) :
    ∃ ys, holding d ++ ' ' :: xs = ' ' :: ys := by
  cases d with
  | none => exact ⟨xs, rfl⟩
  | some text => exact ⟨_, rfl⟩

/-- A place has no blank in it, and a remark begins with one. -/
theorem render_append_inj {span span' : Span} {valid valid' : Bool}
    (h : span.render.toList ++ remark valid = span'.render.toList ++ remark valid') :
    span.render = span'.render ∧ valid = valid' := by
  have hblank : ∀ span : Span, ' ' ∉ span.render.toList := fun span =>
    Span.not_mem_render (by decide)
  cases valid <;> cases valid'
  · exact ⟨String.toList_inj.mp (cut_inj (hblank span) (hblank span') h).1, rfl⟩
  · rw [show remark true = [] from rfl, List.append_nil] at h
    exact absurd (h ▸ List.mem_append_right _ List.mem_cons_self) (hblank span')
  · rw [show remark true = [] from rfl, List.append_nil] at h
    exact absurd (h ▸ List.mem_append_right _ List.mem_cons_self) (hblank span)
  · exact ⟨String.toList_inj.mp (List.append_cancel_right h), rfl⟩

/-- **A line says all there is in it.** -/
theorem line_inj (h : node.line source level = node'.line source' level') :
    level = level' ∧ node.kind.name = node'.kind.name ∧
      node.description? source = node'.description? source' ∧
      node.span.render = node'.span.render ∧ node.valid = node'.valid := by
  -- from the left to the right, one part after the other
  obtain ⟨first, rest, hfirst, heq⟩ := indented_line source level node
  obtain ⟨first', rest', hfirst', heq'⟩ := indented_line source' level' node'
  obtain ⟨hlevel, -⟩ := replicate_append_inj hfirst hfirst' (heq.symm.trans (h.trans heq'))
  obtain rfl : level = level' := by omega
  have hwords := List.append_cancel_left h
  obtain ⟨behind, hbehind⟩ := exists_holding_append (node.description? source)
    ('@' :: ' ' :: (node.span.render.toList ++ remark node.valid))
  obtain ⟨behind', hbehind'⟩ := exists_holding_append (node'.description? source')
    ('@' :: ' ' :: (node'.span.render.toList ++ remark node'.valid))
  rw [hbehind, hbehind'] at hwords
  obtain ⟨hname, rfl⟩ := name_append_inj hwords
  obtain ⟨hholding, hplace⟩ := holding_append_inj (hbehind.trans hbehind'.symm)
  obtain ⟨hrender, hvalid⟩ := render_append_inj (List.cons.inj hplace).2
  exact ⟨rfl, hname, hholding, hrender, hvalid⟩

end Node

/-! ## 4. Dumps

The lines are cut apart at their breaks, and the levels in them are those of the nodes in the order
of the walk. -/

/-- A text is cut in one way into lines that end with a break. -/
theorem lines_inj : ∀ {as bs : List (List Char)}, (∀ line ∈ as, '\n' ∉ line) →
    (∀ line ∈ bs, '\n' ∉ line) → as.flatMap (· ++ ['\n']) = bs.flatMap (· ++ ['\n']) → as = bs
  | [], [], _, _, _ => rfl
  | [], line :: rest, _, _, h => by simp at h
  | line :: rest, [], _, _, h => by simp at h
  | line :: rest, line' :: rest', has, hbs, h => by
    rw [List.flatMap_cons, List.flatMap_cons, List.append_assoc, List.append_assoc] at h
    obtain ⟨rfl, htail⟩ := cut_inj (has line List.mem_cons_self) (hbs line' List.mem_cons_self) h
    rw [lines_inj (fun line hin => has line (List.mem_cons_of_mem _ hin))
      (fun line hin => hbs line (List.mem_cons_of_mem _ hin)) htail]

/-- A line for a node at some level: it is one line, it begins with two blanks for every level and
no more, and there is a remark at its end where the node is malformed, and nowhere else. -/
structure IsLine (line : List Char) (level : Nat) (valid : Bool) : Prop where
  unbroken : '\n' ∉ line
  indented : ∃ first rest, first ≠ ' ' ∧ line = List.replicate (2 * level) ' ' ++ first :: rest
  remark : " (invalid)".toList <:+ line ↔ valid = false

namespace Tree

variable {tree other : Tree} {source source' : Array UInt8}

/-- A text with a line for every node of a tree, in the order of the walk: each is the line of its
own node. -/
structure Dumped (tree : Tree) (source : Array UInt8) (text : String) : Prop where
  lines : ∃ lines : List (List Char), text.toList = lines.flatMap (· ++ ['\n']) ∧
    List.Forall₂ (fun id line => ∃ node, tree.node? id = some node ∧
      line = node.line source (tree.depth id) ∧ IsLine line (tree.depth id) node.valid)
      (tree.preorder root).toList lines
  breaks : text.toList.count '\n' = tree.size
  last : text.toList.getLast? = some '\n'

/-- Trees of one shape whose nodes have the same kinds, hold the same and are malformed in the
same places, as far as a reader of the two sources is shown. -/
structure Resembles (tree : Tree) (source : Array UInt8) (other : Tree) (source' : Array UInt8) :
    Prop where
  shape : tree.SameShape other
  kinds : ∀ id, (tree.kind? id).map Kind.name = (other.kind? id).map Kind.name
  descriptions : ∀ id, tree.description? source id = other.description? source' id
  places : ∀ id, (tree.node? id).map (·.span.render) = (other.node? id).map (·.span.render)
  valid : ∀ id, (tree.node? id).map (·.valid) = (other.node? id).map (·.valid)

/-- The line of a node, if it is there. -/
def line? (tree : Tree) (source : Array UInt8) (id : NodeId) : Option (List Char) :=
  (tree.node? id).map (Node.line source (tree.depth id))

/-- The line of a node that is there. -/
theorem line?_of_node? {id : NodeId} {node : Node} (h : tree.node? id = some node) :
    tree.line? source id = some (node.line source (tree.depth id)) := by
  rw [line?, h, Option.map_some]

/-- A dump is the lines of the nodes that the walk meets. -/
theorem toList_dump (tree : Tree) (source : Array UInt8) :
    (tree.dump source).toList =
      ((tree.preorder root).toList.filterMap (tree.line? source)).flatMap (· ++ ['\n']) := by
  have hfold : ∀ (ids : List NodeId) (text : String),
      (ids.foldl (fun text id =>
        text ++ ((tree.node? id).map (dumpLine source (tree.depth id))).getD "") text).toList =
      text.toList ++ (ids.filterMap (tree.line? source)).flatMap (· ++ ['\n']) := by
    intro ids
    induction ids with
    | nil => simp
    | cons id rest ih =>
      intro text
      rw [List.foldl_cons, ih, List.filterMap_cons, line?]
      cases tree.node? id with
      | none => simp
      | some node => simp [String.toList_append, Node.toList_dumpLine]
  rw [dump, ← Array.foldl_toList, hfold]
  rfl

/-- None of them is broken. -/
theorem unbroken_lines {ids : List NodeId} :
    ∀ line ∈ ids.filterMap (tree.line? source), '\n' ∉ line := by
  intro line hline
  obtain ⟨id, -, hid⟩ := List.mem_filterMap.mp hline
  obtain ⟨node, -, rfl⟩ := Option.map_eq_some_iff.mp hid
  exact node.unbroken_line source _

/-- Nodes that are there have their lines, one each. -/
theorem map_some_lines : ∀ {ids : List NodeId}, (∀ id ∈ ids, id < tree.size) →
    (ids.filterMap (tree.line? source)).map some = ids.map (tree.line? source)
  | [], _ => rfl
  | id :: rest, h => by
    obtain ⟨node, hnode⟩ := exists_node (h id List.mem_cons_self)
    have hline : tree.line? source id = some _ := line?_of_node? hnode
    rw [List.filterMap_cons_some hline, List.map_cons, List.map_cons, hline,
      map_some_lines fun id hin => h id (List.mem_cons_of_mem _ hin)]

/-- They are the lines of the nodes, one by one. -/
theorem forall₂_lines : ∀ {ids : List NodeId}, (∀ id ∈ ids, id < tree.size) →
    List.Forall₂ (fun id line => ∃ node, tree.node? id = some node ∧
      line = node.line source (tree.depth id) ∧ IsLine line (tree.depth id) node.valid)
      ids (ids.filterMap (tree.line? source))
  | [], _ => List.Forall₂.nil
  | id :: rest, h => by
    obtain ⟨node, hnode⟩ := exists_node (h id List.mem_cons_self)
    rw [List.filterMap_cons_some (line?_of_node? hnode)]
    refine List.Forall₂.cons ⟨node, hnode, rfl, ?_⟩
      (forall₂_lines fun id hin => h id (List.mem_cons_of_mem _ hin))
    exact ⟨node.unbroken_line source _, node.indented_line source _, node.remark_line source _⟩

/-- There are as many breaks as lines. -/
theorem count_lines : ∀ {lines : List (List Char)}, (∀ line ∈ lines, '\n' ∉ line) →
    (lines.flatMap (· ++ ['\n'])).count '\n' = lines.length
  | [], _ => rfl
  | line :: rest, h => by
    rw [List.flatMap_cons, List.count_append, List.count_append,
      List.count_eq_zero_of_not_mem (h line List.mem_cons_self),
      count_lines fun line hin => h line (List.mem_cons_of_mem _ hin), List.length_cons,
      List.count_singleton_self]
    omega

namespace Ordered

variable {outline outline' : Rose NodeId}

/-- There are as many as nodes. -/
theorem length_lines (h : tree.Ordered outline) (source : Array UInt8) :
    (outline.preorder.filterMap (tree.line? source)).length = tree.size := by
  have hlines : (outline.preorder.filterMap (tree.line? source)).map some =
      outline.preorder.map (tree.line? source) :=
    map_some_lines fun id hid => h.mem_preorder.mp hid
  have hlength := congrArg List.length hlines
  rwa [List.length_map, List.length_map, h.length_eq] at hlength

/-- **The dump of an ordered tree has a line for every node.** -/
theorem dumped (h : tree.Ordered outline) (source : Array UInt8) :
    tree.Dumped source (tree.dump source) where
  lines := by
    refine ⟨_, tree.toList_dump source, ?_⟩
    rw [h.walk_eq]
    exact forall₂_lines fun id hid => h.mem_preorder.mp hid
  breaks := by
    rw [toList_dump, count_lines unbroken_lines, h.walk_eq, h.length_lines]
  last := by
    have hlength := h.length_lines source
    rw [toList_dump, h.walk_eq]
    generalize outline.preorder.filterMap (tree.line? source) = lines at *
    have hroot : root < tree.size := h.mem_preorder.mp (h.label ▸ Rose.label_mem_preorder outline)
    rcases List.eq_nil_or_concat lines with rfl | ⟨front, line, rfl⟩
    · rw [← hlength] at hroot
      exact absurd hroot (Nat.not_lt_zero _)
    · simp

/-- **Ordered trees that are walked in the order of their numbers resemble each other if their
dumps are the same.** -/
theorem resembles (h : tree.Ordered outline) (h' : other.Ordered outline')
    (hrange : outline.preorder = List.range tree.size)
    (hrange' : outline'.preorder = List.range other.size)
    (hdump : tree.dump source = other.dump source') : tree.Resembles source other source' := by
  have hlines := congrArg String.toList hdump
  rw [toList_dump, toList_dump] at hlines
  have hlines := lines_inj unbroken_lines unbroken_lines hlines
  rw [h.walk_eq, h'.walk_eq] at hlines
  have hsize : tree.size = other.size := by
    rw [← h.length_lines source, hlines, h'.length_lines]
  have hall := congrArg (List.map some) hlines
  rw [map_some_lines fun id hid => h.mem_preorder.mp hid,
    map_some_lines fun id hid => h'.mem_preorder.mp hid, hrange, hrange', ← hsize] at hall
  -- the lines one by one, and nothing where there are no nodes
  have hnode : ∀ id, (tree.node? id = none ∧ other.node? id = none) ∨
      ∃ node node', tree.node? id = some node ∧ other.node? id = some node' ∧
        node.line source (tree.depth id) = node'.line source' (other.depth id) := by
    intro id
    by_cases hid : id < tree.size
    · obtain ⟨node, hnode⟩ := exists_node hid
      obtain ⟨node', hnode'⟩ := exists_node (hsize ▸ hid)
      have hline := List.map_inj_left.mp hall id (List.mem_range.mpr hid)
      rw [line?_of_node? hnode, line?_of_node? hnode'] at hline
      exact Or.inr ⟨node, node', hnode, hnode', Option.some.inj hline⟩
    · exact Or.inl ⟨node?_of_not_lt hid, node?_of_not_lt (hsize ▸ hid)⟩
  refine ⟨h.sameShape h' (hrange.trans (hsize ▸ hrange'.symm)) ?_, ?_, ?_, ?_, ?_⟩
  · intro id hid
    rcases hnode id with ⟨hnone, -⟩ | ⟨node, node', -, -, hline⟩
    · obtain ⟨node, hsome⟩ := exists_node (h.mem_preorder.mp hid)
      cases hnone.symm.trans hsome
    · exact (Node.line_inj hline).1
  all_goals
    intro id
    rcases hnode id with ⟨hnone, hnone'⟩ | ⟨node, node', hsome, hsome', hline⟩
    · simp [kind?, description?, hnone, hnone']
    · simp [kind?, description?, hsome, hsome', Node.line_inj hline]

end Ordered

end Tree

namespace Lexer

/-- **The dump of a source determines its tree.**  It has one line for every node, at its level and
with a remark where it is malformed; and sources with the same dump, read by whatever lexers, have
trees of one shape that are malformed in the same places, with the same kinds of nodes that hold
the same. -/
theorem dump_determines (lexer : Lexer) (source : Source) :
    (lexer.tokenize source).tree.Dumped source.bytes
        ((lexer.tokenize source).tree.dump source.bytes) ∧
      ∀ (lexer' : Lexer) (source' : Source),
        (lexer.tokenize source).tree.dump source.bytes =
            (lexer'.tokenize source').tree.dump source'.bytes →
          (lexer.tokenize source).tree.Resembles source.bytes
            (lexer'.tokenize source').tree source'.bytes := by
  obtain ⟨outline, h, hrange⟩ := lexer.tokenize_ordered source
  refine ⟨h.dumped source.bytes, fun lexer' source' hdump => ?_⟩
  obtain ⟨outline', h', hrange'⟩ := lexer'.tokenize_ordered source'
  exact h.resembles h' hrange hrange' hdump

/-- An address in small letters and one in capitals, both with nothing in them. -/
theorem addresses_dumped_alike :
    let lexer : Lexer := ⟨Dialect.standard, Fragments.empty⟩
    let small : Source := { bytes := #[0x75, 0x72, 0x6C, 0x28, 0x29] }
    let large : Source := { bytes := #[0x55, 0x52, 0x4C, 0x28, 0x29] }
    (lexer.tokenize small).tree.dump small.bytes = (lexer.tokenize large).tree.dump large.bytes ∧
      (lexer.tokenize small).tree.Resembles small.bytes (lexer.tokenize large).tree
        large.bytes := by
  intro lexer small large
  have hdump : (lexer.tokenize small).tree.dump small.bytes =
      (lexer.tokenize large).tree.dump large.bytes := by decide +kernel
  exact ⟨hdump, (dump_determines lexer small).2 lexer large hdump⟩

end Lexer
end StyleLex
