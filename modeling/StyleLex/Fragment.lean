/-
# Fragment forms

A form such as `#[]` is a run of operator bytes and then a bracket pair.  In a source it is
recognised by its `pattern`, the form without its last byte; the opening bracket then begins a
group inside the fragment.

`Fragments.ofDialect` checks every form and sorts the interpolation forms by context.  It fails
with the first form that is none, and otherwise each table holds the forms of the definitions
that select its context, in order, the first of equal ones.
-/
import StyleLex.Dialect
import StyleLex.Utf8

namespace StyleLex

/-! ## 1. One form -/

/-- Why a text is no form. -/
inductive FormFault where
  | tooShort
  | notAnOperator (b : UInt8)
  | notAPair
  deriving DecidableEq, Repr

/-- A text that was to be a form, and what is wrong with it. -/
structure FormError where
  form : String
  fault : FormFault
  deriving DecidableEq, Repr

namespace FormError

def reason : FormFault → String
  | .tooShort => "expected a bracket pair such as \x7b\x7d"
  | .notAnOperator b => "'" ++ (Byte.toChar b).toString ++ "' is not an operator character"
  | .notAPair => "must end with \x7b\x7d, [] or ()"

def message (error : FormError) : String :=
  "Invalid fragment syntax '" ++ error.form ++ "': " ++ reason error.fault

end FormError

/-- The pattern of a form, or what is wrong with the form.  A text that is both ill-begun and
ill-ended is reported for its beginning. -/
def patternOf (form : String) : Except FormError (List UInt8) :=
  let bytes := Utf8.encode form
  match bytes.reverse with
  | closer :: opener :: operators =>
    match operators.reverse.find? fun b => !Byte.isOperator b with
    | some b => .error ⟨form, .notAnOperator b⟩
    | none =>
      if Bracket.isPair opener closer then .ok bytes.dropLast
      else .error ⟨form, .notAPair⟩
  | _ => .error ⟨form, .tooShort⟩

/-! ## 2. Tables -/

/-- A checked interpolation form. -/
structure QuasiForm where
  form : String
  pattern : List UInt8
  deriving DecidableEq, Repr

/-- A checked annotation form. -/
structure AnnotationForm where
  form : String
  placement : Placement
  pattern : List UInt8
  deriving DecidableEq, Repr

/-- The forms that a scan looks up: interpolations by context, annotations in one list. -/
structure Fragments where
  quasi : Vector (List QuasiForm) 14
  annotations : List AnnotationForm

namespace Fragments

def empty : Fragments := ⟨Vector.replicate 14 [], []⟩

/-- The interpolation forms of a context. -/
def quasiFor (fragments : Fragments) (context : Context) : List QuasiForm :=
  fragments.quasi[context.index]

/-- Puts a form at the end of a table, unless the table holds it. -/
def addForm (form : QuasiForm) (table : List QuasiForm) : List QuasiForm :=
  if table.any fun known => known.form == form.form then table else table ++ [form]

/-- Adds a form to the tables of the given contexts. -/
def addQuasi (form : QuasiForm) (contexts : List Context) (fragments : Fragments) : Fragments :=
  { fragments with
    quasi := contexts.foldl
      (fun tables context => tables.set context.index (addForm form tables[context.index]))
      fragments.quasi }

/-- Adds an annotation form, unless it is there with the same placement. -/
def addAnnotation (form : AnnotationForm) (fragments : Fragments) : Fragments :=
  if fragments.annotations.any fun known =>
      known.form == form.form && known.placement == form.placement then fragments
  else { fragments with annotations := fragments.annotations ++ [form] }

/-- Adds the forms of one interpolation definition, in order. -/
def define (fragments : Fragments) (definition : QuasiDefinition) : Except FormError Fragments :=
  let selected := definition.contexts.foldl (fun set s => set.union s.set) ContextSet.empty
  definition.forms.foldlM
    (fun fragments form => do
      let pattern ← patternOf form
      pure (fragments.addQuasi ⟨form, pattern⟩ selected.toList))
    fragments

/-- Adds one annotation definition. -/
def annotate (fragments : Fragments) (definition : AnnotationDefinition) :
    Except FormError Fragments := do
  let pattern ← patternOf definition.form
  pure (fragments.addAnnotation ⟨definition.form, definition.placement, pattern⟩)

/-- The tables of some definitions, interpolations first. -/
def build (quasi : List QuasiDefinition) (annotations : List AnnotationDefinition) :
    Except FormError Fragments := do
  let fragments ← quasi.foldlM define empty
  annotations.foldlM annotate fragments

def ofDialect (dialect : Dialect) : Except FormError Fragments :=
  build dialect.quasiDefinitions dialect.annotationDefinitions

def isEmpty (fragments : Fragments) : Bool :=
  fragments.annotations.isEmpty && fragments.quasi.toList.all List.isEmpty

end Fragments
end StyleLex
