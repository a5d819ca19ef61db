/-
# Reports

A report gathers what is worth telling about a source that was lexed: its numbers, and a
diagnostic for every malformed construct.  A construct is reported once, at its outermost
malformed node.
-/
import StyleLex.Census
import StyleLex.Lexer
import StyleLex.Lines
import StyleLex.Tree.Snapshot

namespace StyleLex

structure Report where
  /-- The name under which the source is shown. -/
  path : String
  source : Array UInt8
  tree : Tree
  metrics : Metrics
  census : Census

namespace Report

/-- The report on a source, given what the lexer made of it. -/
def ofOutcome (path : String) (source : Array UInt8) (outcome : Outcome) : Report where
  path := path
  source := source
  tree := outcome.tree
  metrics := outcome.metrics
  census := Census.ofTree outcome.tree

def isClean (report : Report) : Bool := report.census.isClean

/-! ## 1. Diagnostics -/

/-- Is there no malformed node right above a node? -/
def isOutermost (tree : Tree) (id : NodeId) : Bool :=
  match tree.parent? id with
  | some parent => (tree.node? parent).all (·.valid)
  | none => true

/-- The outermost malformed nodes, in the order of the source. -/
def invalidRoots (report : Report) : Array NodeId :=
  report.tree.invalid.filter (isOutermost report.tree)

/-- The diagnostic for a malformed node. -/
def diagnostic (index : LineIndex) (filename : String) (node : Node) : Diagnostic :=
  Diagnostic.ofSpan index filename node.span ("malformed " ++ node.kind.name)

/-- One diagnostic for each malformed construct. -/
def diagnostics (report : Report) : List Diagnostic :=
  let index := LineIndex.ofSource report.source
  (report.invalidRoots.toList.filterMap report.tree.node?).map (diagnostic index report.path)

/-! ## 2. JSON -/

def censusJson (census : Census) : Json :=
  .object
    [ ("total", .natural census.total),
      ("branches", .natural census.branches),
      ("leaves", .natural census.leaves),
      ("invalid", .natural census.invalid),
      ("blanks", .natural census.blanks),
      ("comments", .natural census.comments),
      ("max_depth", .natural census.depth),
      ("by_kind", .object (census.byKind.map fun entry => (entry.1, .natural entry.2))) ]

def toJson (report : Report) : Json :=
  .object
    ([ ("file", Json.string report.path),
       ("counts", censusJson report.census),
       ("recoveries", .natural report.metrics.recoveries) ] ++
      ((Snapshot.ofTree? report.tree report.source).map fun snapshot =>
        ("tree", snapshot.toJson)).toList)

end Report
end StyleLex
