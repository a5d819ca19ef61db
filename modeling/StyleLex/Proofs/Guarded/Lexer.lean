/-
# Lexers, guarded

A lexer is made of a dialect whose forms are checked, and checking a form asks for the closer of a
byte.  A form may be found at fault, which is no breach: so a check gives a breach, or else an error
or a value (`Checking`), and it is `Sound` if it gives what the plain check gives.

A call of a lexer is a scan and an assembly, and neither breaks off.

Two kinds of failure have to be kept apart.  A form that is ill made is an answer, which the client
is told; a breach is not an answer at all.  So a check has two layers, and `Sound` looks through the
outer one: there is no breach, and inside stands the error or the value of the plain check.  It
composes like the checks themselves (`Sound.bind`, `Sound.foldlM`), and the proofs below follow the
definitions line by line.
-/
import StyleLex.Proofs.Guarded.Scan
import StyleLex.Proofs.Scan.Drafting

namespace StyleLex
namespace Guarded

/-! ## 1. Checks of forms

The definitions repeat those of the fragments, with the two accesses guarded that can fail: the
closer of a byte, and the table of a context. -/

/-- What a check of forms gives, unless a breach stopped it: an error or a value. -/
abbrev Checking (α : Type) : Type := ExceptT FormError Guarded α

/-- A check has no breach, and gives what the plain one gives. -/
def Sound {α : Type} (check : Checking α) (outcome : Except FormError α) : Prop :=
  check.run = .ok outcome

/-- What checks nothing has no breach. -/
theorem Sound.pure {α : Type} (a : α) : Sound (Pure.pure a) (Pure.pure a) := rfl

/-- What has an answer is a check that passes. -/
theorem Sound.lift {α : Type} {guarded : Guarded α} {a : α} (h : guarded = .ok a) :
    Sound (ExceptT.lift guarded) (Pure.pure a) := by
  subst h
  rfl

/-- A check that goes on with the value of another is sound if both are.  If the first finds an
error, the second is not made. -/
theorem Sound.bind {α β : Type} {check : Checking α} {outcome : Except FormError α}
    {next : α → Checking β} {following : α → Except FormError β} (h : Sound check outcome)
    (hnext : ∀ a, Sound (next a) (following a)) :
    Sound (check >>= next) (outcome >>= following) := by
  have hrun : check.run = .ok outcome := h
  rw [Sound, ExceptT.run_bind, hrun, ok_bind]
  cases outcome with
  | error error => rfl
  | ok a => exact hnext a

/-- So is a check of one item after the other. -/
theorem Sound.foldlM {α β : Type} {next : β → α → Checking β}
    {following : β → α → Except FormError β} (h : ∀ b a, Sound (next b a) (following b a))
    (items : List α) (b : β) : Sound (items.foldlM next b) (items.foldlM following b) := by
  induction items generalizing b with
  | nil => exact .pure b
  | cons a rest ih =>
    rw [List.foldlM_cons, List.foldlM_cons]
    exact (h b a).bind ih

/-- Two bytes form a pair: the closer is asked for only if the first opens a bracket. -/
def isPair (first second : UInt8) : Guarded Bool :=
  if Byte.isOpener first then do
    let bracket ← opening first
    pure (bracket.closer == second)
  else pure false

/-- The pattern of a form. -/
def patternOf (form : String) : Checking (List UInt8) :=
  let bytes := Utf8.encode form
  match bytes.reverse with
  | closer :: opener :: operators =>
    match operators.reverse.find? fun b => !Byte.isOperator b with
    | some b => throw ⟨form, .notAnOperator b⟩
    | none => do
      let pairs ← ExceptT.lift (isPair opener closer)
      if pairs then pure bytes.dropLast else throw ⟨form, .notAPair⟩
  | _ => throw ⟨form, .tooShort⟩

/-- There is a table for every context. -/
theorem index_lt (context : Context) : context.index.val < 14 := context.index.isLt

/-- Adds a form to the tables of some contexts. -/
def addQuasi (form : QuasiForm) (contexts : List Context) (fragments : Fragments) :
    Guarded Fragments :=
  contexts.foldlM (fun fragments context => do
    let table ← quasiFor fragments (ContextSet.singleton context)
    let tables :=
      fragments.quasi.set context.index (Fragments.addForm form table) (index_lt context)
    pure { fragments with quasi := tables }) fragments

/-- Adds the forms of a definition to the tables of its contexts. -/
def define (fragments : Fragments) (definition : QuasiDefinition) : Checking Fragments :=
  let selected := definition.contexts.foldl (fun set s => set.union s.set) ContextSet.empty
  definition.forms.foldlM (fun fragments form => do
    let pattern ← patternOf form
    ExceptT.lift (addQuasi ⟨form, pattern⟩ selected.toList fragments)) fragments

/-- Adds the form of an annotation. -/
def annotate (fragments : Fragments) (definition : AnnotationDefinition) : Checking Fragments := do
  let pattern ← patternOf definition.form
  pure (fragments.addAnnotation ⟨definition.form, definition.placement, pattern⟩)

/-- The forms of a dialect: first all interpolations, then all annotations. -/
def build (dialect : Dialect) : Checking Fragments := do
  let fragments ← dialect.quasiDefinitions.foldlM define Fragments.empty
  dialect.annotationDefinitions.foldlM annotate fragments

/-- The lexer of a dialect. -/
def lexer (dialect : Dialect) : Checking Lexer := do
  let fragments ← build dialect
  pure ⟨dialect, fragments⟩

/-- The closer of a byte is asked for only if the byte is an opener. -/
theorem isPair_eq (first second : UInt8) :
    isPair first second = .ok (Bracket.isPair first second) := by
  have hopens := isSome_ofOpener? first
  unfold isPair Bracket.isPair
  cases hbracket : Bracket.ofOpener? first with
  | none =>
    rw [hbracket, Option.isSome_none] at hopens
    rw [← hopens]
    rfl
  | some bracket =>
    rw [hbracket, Option.isSome_some] at hopens
    rw [← hopens, opening_eq hbracket]
    rfl

/-- By the bytes of the form from its end: a closer, an opener, and operators before them. -/
theorem patternOf_sound (form : String) : Sound (patternOf form) (StyleLex.patternOf form) := by
  unfold patternOf StyleLex.patternOf
  dsimp only
  cases (Utf8.encode form).reverse with
  | nil => rfl
  | cons closer before =>
    cases before with
    | nil => rfl
    | cons opener operators =>
      dsimp only
      cases operators.reverse.find? fun b => !Byte.isOperator b with
      | some b => rfl
      | none =>
        rw [isPair_eq]
        cases Bracket.isPair opener closer <;> rfl

/-- Each context has a table to which the form is added. -/
theorem addQuasi_eq (form : QuasiForm) (contexts : List Context) (fragments : Fragments) :
    addQuasi form contexts fragments = .ok (fragments.addQuasi form contexts) := by
  unfold addQuasi
  induction contexts generalizing fragments with
  | nil => rfl
  | cons context rest ih =>
    rw [List.foldlM_cons, quasiFor_singleton, ok_bind]
    exact ih _

/-- Adding a definition has no breach, since neither the pattern nor the tables have one. -/
theorem define_sound (fragments : Fragments) (definition : QuasiDefinition) :
    Sound (define fragments definition) (fragments.define definition) := by
  refine Sound.foldlM (fun fragments form => ?_) definition.forms fragments
  exact (patternOf_sound form).bind fun pattern => .lift (addQuasi_eq _ _ _)

/-- Nor has adding an annotation. -/
theorem annotate_sound (fragments : Fragments) (definition : AnnotationDefinition) :
    Sound (annotate fragments definition) (fragments.annotate definition) :=
  (patternOf_sound definition.form).bind fun _ => .pure _

/-- **Checking the forms of a dialect breaks no rule**, whatever the forms are. -/
theorem lexer_sound (dialect : Dialect) : Sound (lexer dialect) (Lexer.ofDialect dialect) := by
  have hbuilt : Sound (build dialect) (Fragments.ofDialect dialect) :=
    (Sound.foldlM define_sound dialect.quasiDefinitions Fragments.empty).bind
      (Sound.foldlM annotate_sound dialect.annotationDefinitions)
  exact hbuilt.bind fun fragments => .pure (Lexer.mk dialect fragments)

/-! ## 2. Calls

A call is put together from the guarded operations in the order in which the program has them: the
branch to add to is looked up, the source is read, its marks are taken, and the assembly is ended.
-/

/-- The scan of a source in a branch.  What is read is read inside the bound, so the bytes up to it
are cut out first. -/
def scan (lexer : Lexer) (branch : Branch) (source : Source) : Guarded Scan.State := do
  let _ ← slice source.bytes.toList 0 source.limit
  run (lexer.scope source) (Lexer.initial branch source)

/-- Adds what `source` holds to a branch of a tree. -/
def extend (lexer : Lexer) (tree : Tree) (parent : NodeId) (branch : Branch) (source : Source) :
    Guarded Outcome := do
  let begun ← into tree parent
  let final ← scan lexer branch source
  let marked ← takeAll source.bytes begun final.marks.reverse
  let assembly ← finish source.bytes marked final.frame.branch final.position
  pure
    { tree := assembly.tree
      metrics :=
        { nodes := assembly.attached
          bytes := source.limit - source.start.byte
          depth := final.deepest
          recoveries := final.recoveries.length }
      recoveries := final.recoveries.reverse }

/-- A scan is made inside its bound, which is inside the source.  Where it begins no branch has been
opened but the caller's, so nothing begins behind it. -/
theorem scan_eq (lexer : Lexer) (branch : Branch) (source : Source) :
    scan lexer branch source = .ok (lexer.scan branch source) := by
  have hlimit : source.limit ≤ source.bytes.toList.length := by
    rw [Array.length_toList]
    exact Nat.min_le_right _ _
  have hstarted : (Lexer.initial branch source).view.Started := by
    intro frame hframe
    obtain rfl := List.mem_singleton.mp hframe
    exact Nat.le_refl _
  rw [scan, slice_eq (Nat.zero_le _) hlimit, ok_bind]
  exact run_eq (Lexer.initial_fresh branch source) hstarted (lexer.scope source)

/-- **A branch of a closed tree is added to without a breach.** -/
theorem extend_eq {tree : Tree} (h : tree.Closed) {parent : NodeId} (hparent : parent < tree.size)
    (lexer : Lexer) (branch : Branch) (source : Source) :
    extend lexer tree parent branch source = .ok (lexer.extend tree parent branch source) := by
  have hbegun := Assembly.Placed.into h hparent
  obtain ⟨hmarked, hplaced⟩ :=
    takeAll_eq hbegun source.bytes (lexer.scan branch source).marks.reverse
  rw [extend, into_eq h hparent, ok_bind, scan_eq, ok_bind, hmarked, ok_bind, finish_eq hplaced,
    ok_bind]
  rfl

end Guarded
end StyleLex
