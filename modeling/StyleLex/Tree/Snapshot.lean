/-
# Snapshots

A snapshot is a tree as a value of its own, each node with its children in it.  It is made from
the thread: children come before their branch there, so a node finds its children finished when
its turn comes, and takes them.
-/
import StyleLex.Json
import StyleLex.Tree.Text

namespace StyleLex

/-! ## 1. Snapshots -/

inductive Snapshot where
  | mk (kind : String) (span : Span) (valid : Bool) (value : Option String)
      (numeral : Option Numeral) (children : List Snapshot)

namespace Snapshot

/-- The numeral of a node, if it is one. -/
def numeralOf? : Kind → Option Numeral
  | .leaf (.numeric numeral) => some numeral
  | _ => none

/-- The snapshot of a node whose children are given. -/
def ofNode (source : Array UInt8) (node : Node) (children : List Snapshot) : Snapshot :=
  .mk node.kind.name node.span node.valid (node.description? source) (numeralOf? node.kind)
    children

/-- Finished snapshots, by the id of their node. -/
abbrev Finished := Array (Option Snapshot)

/-- Takes the finished snapshots of some nodes after those in `taken`, which are in reverse; one
that is not finished is left out. -/
def takeOnto (taken : List Snapshot) (finished : Finished) :
    List NodeId → List Snapshot × Finished
  | [] => (taken.reverse, finished)
  | id :: rest =>
    match finished[id]? with
    | some (some snapshot) =>
      takeOnto (snapshot :: taken) (finished.setIfInBounds id none) rest
    | _ => takeOnto taken finished rest

/-- Finishes one node. -/
def finish (tree : Tree) (source : Array UInt8) (finished : Finished) (id : NodeId) : Finished :=
  match tree.node? id with
  | some node =>
    let (children, left) := takeOnto [] finished node.children.toList
    left.setIfInBounds id (some (ofNode source node children))
  | none => finished

/-- The snapshot of a whole tree; the root comes last. -/
def ofTree? (tree : Tree) (source : Array UInt8) : Option Snapshot :=
  let finished :=
    (tree.production.filter (· ≠ Tree.root)).foldl (finish tree source)
      (Array.replicate tree.size none)
  ((finish tree source finished Tree.root)[Tree.root]?).join

/-! ## 2. JSON -/

def offsetJson (offset : Offset) : Json :=
  .object [("byte", .natural offset.byte), ("codepoint", .natural offset.codepoint)]

def positionJson (position : Position) : Json :=
  .object
    [ ("absolute", offsetJson position.absolute),
      ("relative", offsetJson position.relative),
      ("line", .natural position.line) ]

def spanJson (span : Span) : Json :=
  .object [("begin", positionJson span.start), ("end", positionJson span.stop)]

def digitsJson (digits : List UInt8) : Json := .array (digits.map fun digit => .natural digit.toNat)

def numeralJson (numeral : Numeral) : Json :=
  .object
    [ ("base", .natural numeral.base),
      ("int_negative", .bool numeral.negative),
      ("exp_negative", .bool numeral.exponentNegative),
      ("integer", digitsJson numeral.integer),
      ("fraction", digitsJson numeral.fraction),
      ("exponent", digitsJson numeral.exponent),
      ("value", .number numeral.value) ]

mutual

/-- A snapshot as JSON; a value, a numeral and children are left out where there are none. -/
def toJson : Snapshot → Json
  | .mk kind span valid value numeral children =>
    .object
      ([("type", .string kind), ("span", spanJson span), ("valid", .bool valid)] ++
        (value.map fun text => ("value", Json.string text)).toList ++
        (numeral.map fun numeral => ("numeric", numeralJson numeral)).toList ++
        (if children.isEmpty then [] else [("children", .array (allToJson children))]))

def allToJson : List Snapshot → List Json
  | [] => []
  | snapshot :: rest => snapshot.toJson :: allToJson rest

end

end Snapshot

/-- The JSON text of a tree. -/
def Tree.toJson (tree : Tree) (source : Array UInt8) : String :=
  ((Snapshot.ofTree? tree source).map fun snapshot => snapshot.toJson.pretty).getD ""

end StyleLex
