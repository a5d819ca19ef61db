/-
# What the exit status tells

A run that lexed its file exits with 2 if the tree holds a malformed node and is not written as
JSON, and with 0 otherwise (`Run.status_of_tried`).  The help names the three statuses without a
word about JSON, yet a run that writes JSON is over before it looks for malformed nodes: it exits
with 0 in any case (`Run.unclosed_json_exits_zero`).

The status is computed from the numbers of a census; they tell whether there is a malformed node,
for the census visits every node but the root, and the root is never malformed.

Two separate readings of the arguments are compared.  The command line goes through the words once
and sets a field for each; what is said here about JSON is said about the words themselves.  The
word behind `--config` is a path whatever it looks like, so it is left out first
(`Arguments.plain`).
-/
import StyleLex.CommandLine.Run
import StyleLex.Proofs.Session
import StyleLex.Proofs.Scan.Layout

namespace StyleLex

/-! ## 1. Words

Reading the words is a fold, and the field in question is set by one word and reset by none. -/

namespace CommandLine.Arguments

/-- The words that are not about configuration. -/
def plain : List String → List String
  | [] => []
  | [word] => if word = "--config" then [] else [word]
  | word :: next :: rest => if word = "--config" then plain rest else word :: plain (next :: rest)

/-- A plain word asks for JSON, or it changes nothing about that. -/
theorem json_take (arguments : Arguments) (word : String) :
    (arguments.take word).json = (arguments.json || decide (word = "--json")) := by
  unfold take
  split
  · rename_i hword
    simp [hword]
  · rename_i hword
    rw [decide_eq_false hword, Bool.or_false]
    split
    · rfl
    · split
      · rfl
      · split
        · rfl
        · split <;> rfl

/-- By induction on the words, two at a time where the first is about configuration. -/
theorem json_takeAll (arguments : Arguments) (words : List String) :
    (arguments.takeAll words).json = (arguments.json || (plain words).contains "--json") := by
  fun_induction takeAll arguments words with
  | case1 => simp [plain]
  | case2 => simp [plain, warn]
  | case3 arguments word hword =>
    rw [json_take, plain, if_neg hword]
    simp [eq_comm]
  | case4 arguments next rest ih => simpa [plain] using ih
  | case5 arguments word next rest hword ih =>
    rw [ih, json_take, plain, if_neg hword, Bool.or_assoc]
    simp [eq_comm]

/-- A run writes JSON if a plain word asks for it. -/
theorem json_ofWords (words : List String) :
    (ofWords words).json = true ↔ "--json" ∈ plain words := by
  simp [ofWords, json_takeAll]

end CommandLine.Arguments

/-! ## 2. Malformed nodes

A node that is malformed is counted, one that is not is not; so the count is zero exactly if all
nodes that are visited are well formed.  The order of the visit plays no part. -/

namespace Tree

/-- Is some node malformed? -/
def Malformed (tree : Tree) : Prop := ∃ id node, tree.node? id = some node ∧ node.valid = false

variable {tree : Tree} {outline : Rose NodeId}

/-- A walk that counts finds no malformed node if there is none among the ids. -/
theorem invalid_foldl_eq_zero (ids : List NodeId) (census : Census) :
    (ids.foldl (fun census id =>
      match tree.node? id with
      | some node => if id = root then census else census.count node (tree.depth id)
      | none => census) census).invalid = 0 ↔
      census.invalid = 0 ∧
        ∀ id ∈ ids, id ≠ root → ∀ node, tree.node? id = some node → node.valid = true := by
  induction ids generalizing census with
  | nil => simp
  | cons id ids ih =>
    rw [List.foldl_cons, ih]
    cases hnode : tree.node? id with
    | none => simp [hnode]
    | some node =>
      by_cases hroot : id = root
      · simp [hroot]
      · cases hvalid : node.valid <;> simp [hroot, hnode, hvalid, Census.count, Census.one]

/-- **A census is clean if no node is malformed**, for a root that is not. -/
theorem isClean_ofTree_iff (h : tree.Ordered outline)
    (hroot : ∀ node, tree.node? root = some node → node.valid = true) :
    (Census.ofTree tree).isClean = true ↔ ¬ tree.Malformed := by
  have hwalk : (tree.preorder root).toList = outline.preorder := by
    rw [← h.label]
    exact h.outlines.preorder_eq (Nat.le_of_eq h.length_eq)
  rw [Census.isClean, beq_iff_eq, Census.ofTree, ← Array.foldl_toList, hwalk]
  refine (invalid_foldl_eq_zero outline.preorder {}).trans ?_
  constructor
  · -- a malformed node is not the root, so it was counted
    rintro ⟨-, hvalid⟩ ⟨id, node, hnode, hinvalid⟩
    by_cases hid : id = root
    · subst hid
      simp [hroot node hnode] at hinvalid
    · have hin := h.mem_preorder.mpr (lt_size_of_node? hnode)
      simp [hvalid id hin hid node hnode] at hinvalid
  · intro hnone
    refine ⟨rfl, fun id _ _ node hnode => ?_⟩
    exact Bool.of_not_eq_false fun hinvalid => hnone ⟨id, node, hnode, hinvalid⟩

end Tree

/-- The root of a source is not malformed. -/
theorem Lexer.valid_root (lexer : Lexer) (source : Source)
    (hfirst : source.start = Position.origin) {node : Node}
    (hnode : (lexer.tokenize source).tree.node? Tree.root = some node) : node.valid = true := by
  obtain ⟨hroot, -⟩ := lexer.scan_laid source hfirst
    (Draft.into (Tree.new source.filename source.start) Tree.root (rootOf source))
    rfl rfl rfl (by rw [← hfirst]; rfl)
  have hbody := (lexer.tokenize_grown source).2.2 hroot
  rw [Tree.body?_of_node? hnode, Option.some.injEq] at hbody
  exact congrArg Node.valid hbody

/-! ## 3. The status

What a run does is decided in three steps: whether help is asked for, whether there is a file that
can be read and lexed, and how the tree is written.  The theorem is about the last, and its
hypotheses say how the first two were decided. -/

namespace FileRun

variable {dialect : Dialect} {path : String} {entry : Entry} {run : FileRun}

/-- What a run that lexed its file holds. -/
theorem outcome_of_ofEntry (h : ofEntry dialect path entry = .ok run) :
    Lexer.ofDialect dialect = .ok run.lexer ∧ run.outcome = run.lexer.tokenize run.source := by
  unfold ofEntry at h
  split at h
  · cases h
  · rename_i hlexer
    split at h
    · cases h
    · cases h
      exact ⟨hlexer, rfl⟩

/-- A report is clean if the tree is. -/
theorem isClean_iff (h : ofEntry dialect path entry = .ok run) :
    run.report.isClean = true ↔ ¬ run.outcome.tree.Malformed := by
  obtain ⟨-, houtcome⟩ := outcome_of_ofEntry h
  obtain ⟨outline, hordered, -⟩ := run.lexer.tokenize_ordered run.source
  have hclean := Tree.isClean_ofTree_iff hordered fun node => run.lexer.valid_root _ rfl
  rw [← houtcome] at hclean
  exact hclean

end FileRun

namespace CommandLine.Run

variable {environment : Environment} {look : String → Entry} {words : List String}

/-- **The exit status of a run that lexed its file** is 2 if the tree holds a malformed node and
is not written as JSON, and 0 otherwise, whatever the words say besides. -/
theorem status_of_tried {path : String} {configuration : Configuration} {done : FileRun}
    (hhelp : "--help" ∉ words) (hinput : (Arguments.ofWords words).input = some path)
    (hconfiguration : Run.configuration environment look
      (Arguments.ofWords words).configuration = .ok configuration)
    (hdone : FileRun.ofEntry (adjust (Arguments.ofWords words) configuration).dialect path
      (look path) = .ok done) :
    ((ofWords environment look words).status = 2 ↔
      "--json" ∉ Arguments.plain words ∧ done.outcome.tree.Malformed) ∧
    ((ofWords environment look words).status = 0 ↔
      "--json" ∈ Arguments.plain words ∨ ¬ done.outcome.tree.Malformed) := by
  have hending : endingOf environment look (Arguments.ofWords words) =
      .tried (adjust (Arguments.ofWords words) configuration) path (.ok done) := by
    simp only [endingOf, hinput, hconfiguration, hdone]
  have hrun : ofWords environment look words = ⟨environment, Arguments.ofWords words,
      .tried (adjust (Arguments.ofWords words) configuration) path (.ok done)⟩ := by
    simp [ofWords, Arguments.asksForHelp, hhelp, hending]
  have hclean := FileRun.isClean_iff hdone
  rw [hrun, status, ← Arguments.json_ofWords]
  cases (Arguments.ofWords words).json <;> cases hreport : done.report.isClean <;>
    simp_all

/-- A parenthesis that is not closed stands at every path. -/
def unclosed (path : String) : Entry := .file { path := path, size := 1, content := .ok #[0x28] }

/-- A parenthesis that is not closed is told by the status of a plain run. -/
theorem unclosed_exits_two :
    "--help" ∉ ["a.css", "--quiet"] ∧ (ofWords [] unclosed ["a.css", "--quiet"]).status = 2 := by
  refine ⟨by decide, ?_⟩
  have hinput : (Arguments.ofWords ["a.css", "--quiet"]).input = some "a.css" := rfl
  refine (status_of_tried (by decide) hinput rfl rfl).1.mpr ⟨by decide, ?_⟩
  exact ⟨1, _, rfl, rfl⟩

/-- **A run that writes JSON exits with 0 though its tree holds a malformed node.** -/
theorem unclosed_json_exits_zero :
    ∃ done, (ofWords [] unclosed ["a.css", "--json"]).ending =
        .tried (Configuration.ofEnvironment []) "a.css" (.ok done) ∧
      done.outcome.tree.Malformed ∧
      (ofWords [] unclosed ["a.css", "--json"]).status = 0 :=
  ⟨_, rfl, ⟨1, _, rfl, rfl⟩, rfl⟩

end CommandLine.Run
end StyleLex
