/-
# The lexer

A lexer is a dialect with its checked fragment forms.  It makes a tree of a source, or adds what a
source holds to a branch of a tree that is there already.  Malformed input is no error: the tree
covers the whole range that was asked for, and malformed nodes are flagged.  What can fail is the
choice of the branch to resume.
-/
import StyleLex.Tree.Assembly

namespace StyleLex

/-! ## 1. Sources -/

/-- Bytes, and the range of them to read. -/
structure Source where
  bytes : Array UInt8
  /-- A label for diagnostics. -/
  filename : Option String := none
  /-- Where to begin; the position of the first byte if nothing is said. -/
  start : Position := Position.origin
  /-- Where to stop, at the latest. -/
  bound : Option Nat := none

namespace Source

/-- The offset at which a scan must stop. -/
def limit (source : Source) : Nat := min (source.bound.getD source.bytes.size) source.bytes.size

/-- The label of a source that has none. -/
def defaultLabel : String := "[input]"

def label (source : Source) : String := source.filename.getD defaultLabel

/-- The bytes to read. -/
def range (source : Source) : List UInt8 :=
  (source.bytes.extract source.start.byte source.limit).toList

end Source

/-! ## 2. Results -/

/-- The numbers of one call. -/
structure Metrics where
  /-- Nodes that were added. -/
  nodes : Nat := 0
  /-- The length of the range that was asked for. -/
  bytes : Nat := 0
  /-- The largest number of branches that were open inside the branch that was added to. -/
  depth : Nat := 0
  recoveries : Nat := 0
  deriving DecidableEq, Repr

structure Outcome where
  tree : Tree
  metrics : Metrics
  /-- In the order in which they happened. -/
  recoveries : List Recovery

/-- Why a branch cannot be resumed. -/
inductive ResumeError where
  | unknownNode (id : NodeId)
  | notABranch (id : NodeId) (kind : String)
  deriving DecidableEq, Repr

def ResumeError.message : ResumeError → String
  | unknownNode id => "Node " ++ NodeId.label id ++ " does not exist in the tree"
  | notABranch id kind =>
    "Node " ++ NodeId.label id ++ " is a " ++ kind ++ " leaf and cannot hold children"

/-! ## 3. Lexers -/

structure Lexer where
  dialect : Dialect
  fragments : Fragments := Fragments.empty

namespace Lexer

/-- The lexer of a dialect, if all its forms are well made. -/
def ofDialect (dialect : Dialect) : Except FormError Lexer := do
  let fragments ← Fragments.ofDialect dialect
  pure ⟨dialect, fragments⟩

/-- What a scan of `source` may look at. -/
def scope (lexer : Lexer) (source : Source) : Scan.Scope where
  dialect := lexer.dialect
  fragments := lexer.fragments
  beyond := source.bytes[source.limit]?

/-- The scan of `source` in a branch. -/
def scan (lexer : Lexer) (branch : Branch) (source : Source) : Scan.State :=
  Scan.run (lexer.scope source)
    { rest := source.range
      position := source.start
      frame := { branch := branch, start := source.start } }

/-- Adds what `source` holds to the branch `parent` of a tree. -/
def extend (lexer : Lexer) (tree : Tree) (parent : NodeId) (branch : Branch) (source : Source) :
    Outcome :=
  let final := lexer.scan branch source
  let marked := (Assembly.into tree parent).takeAll source.bytes final.marks.reverse
  let assembly := marked.finish source.bytes final.frame.branch final.position
  { tree := assembly.tree
    metrics :=
      { nodes := assembly.attached
        bytes := source.limit - source.start.byte
        depth := final.deepest
        recoveries := final.recoveries.length }
    recoveries := final.recoveries.reverse }

/-- The tree of a source. -/
def tokenize (lexer : Lexer) (source : Source) : Outcome :=
  lexer.extend (Tree.new source.filename source.start) Tree.root .root source

/-- The tree of all of some bytes. -/
def tokenizeBytes (lexer : Lexer) (bytes : Array UInt8) : Outcome :=
  lexer.tokenize { bytes := bytes }

/-- The branch with an id, if the id names one. -/
def branchToResume (tree : Tree) (id : NodeId) : Except ResumeError Branch :=
  match tree.kind? id with
  | none => .error (.unknownNode id)
  | some (.leaf leaf) => .error (.notABranch id leaf.name)
  | some (.branch branch) => .ok branch

/-- Adds what `source` holds to a branch.  The branch stays open: its kind stays, and it ends where
the scan ended. -/
def resume (lexer : Lexer) (tree : Tree) (id : NodeId) (source : Source) :
    Except ResumeError Outcome := do
  let branch ← branchToResume tree id
  pure (lexer.extend tree id branch source)

end Lexer

/-! ## 4. Calls in place -/

/-- What calls leave behind: the tree, and the numbers of the last one. -/
structure Workspace where
  tree : Tree
  metrics : Metrics := {}

/-- Adds what `source` holds to a branch of the tree at hand. -/
def Lexer.resumeIn (lexer : Lexer) (id : NodeId) (source : Source) :
    ExceptT ResumeError (StateM Workspace) Outcome := do
  let workspace ← get
  let outcome ← lexer.resume workspace.tree id source
  set (Workspace.mk outcome.tree outcome.metrics)
  pure outcome

end StyleLex
