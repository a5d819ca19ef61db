/-
# What the tables of a lexer are

The tables are built in one pass that stops at the first text that is no form.  `Checked` says that
of any part of the pass, by the texts it looks at: where it succeeds they are all forms
(`IsForm`), and where it fails they begin with forms, go on with the text of the error, and the
error says what is wrong with it (`FormFault.Of`).  Two parts, one after the other, look at the
texts of both (`Checked.bind`).

What is built is a function of what is written.  The table of a context holds the forms written for
it, the first of equal ones, with their patterns (`Tables`); adding a form to any number of contexts
writes it there once more, and a form that is written again changes nothing.  The annotations are
the same, by form and placement.

`Fragments.build_exact` puts the two together.

Order matters in two ways.  The first text that is no form decides the error, so texts are looked at
in the order of the definitions, all interpolations before all annotations.  In a table the first of
two equal forms stays where it is and the second one vanishes; looked up, this makes no difference,
but it makes the table a function of what is written and not of how it was put in.
-/
import StyleLex.Proofs.Token.Lookup

namespace StyleLex

/-! ## 1. Forms and faults

A fault is described by the bytes of the text, without the function that finds it.  The faults
exclude each other, and a text has one exactly if it is no form. -/

/-- Operators, and then the two bytes of a bracket. -/
def IsForm (form : String) : Prop :=
  ∃ (operators : List UInt8) (bracket : Bracket),
    Utf8.encode form = operators ++ [bracket.opener, bracket.closer] ∧
      ∀ b ∈ operators, Byte.isOperator b = true

/-- What a fault says about the bytes of a text.  The last two bytes are looked at when all the
others are operators. -/
inductive FormFault.Of : FormFault → List UInt8 → Prop
  | tooShort {bytes : List UInt8} (hlength : bytes.length < 2) : Of .tooShort bytes
  | notAnOperator {operators : List UInt8} {b : UInt8} {further : List UInt8}
      (hoperators : ∀ x ∈ operators, Byte.isOperator x = true)
      (hb : Byte.isOperator b = false) (hfurther : 2 ≤ further.length) :
      Of (.notAnOperator b) (operators ++ b :: further)
  | notAPair {operators : List UInt8} {first second : UInt8}
      (hoperators : ∀ x ∈ operators, Byte.isOperator x = true)
      (hpair : ∀ bracket : Bracket, [first, second] ≠ [bracket.opener, bracket.closer]) :
      Of .notAPair (operators ++ [first, second])

/-- The two bytes of a bracket are a pair. -/
theorem Bracket.isPair_opener_closer (bracket : Bracket) :
    isPair bracket.opener bracket.closer = true := by
  cases bracket <;> rfl

/-- A text with a fault is no form. -/
theorem FormFault.Of.not_isForm {fault : FormFault} {form : String}
    (h : fault.Of (Utf8.encode form)) : ¬ IsForm form := by
  rintro ⟨operators, bracket, hform, hoperators⟩
  rw [hform] at h
  generalize hbytes : operators ++ [bracket.opener, bracket.closer] = bytes at h
  cases h with
  | tooShort hlength =>
    rw [← hbytes, List.length_append] at hlength
    exact absurd hlength (by simp)
  | @notAnOperator others b further _ hb hfurther =>
    -- the byte has two more behind it, so it stands among the operators
    have hlength := congrArg List.length hbytes
    simp only [List.length_append, List.length_cons, List.length_nil] at hlength
    have hfront : others ++ [b] <+: operators := by
      have hall : others ++ [b] <+: operators ++ [bracket.opener, bracket.closer] :=
        ⟨further, by simp [hbytes]⟩
      refine List.prefix_of_prefix_length_le hall (List.prefix_append _ _) ?_
      simp only [List.length_append, List.length_singleton]
      omega
    have := hoperators b (hfront.subset (by simp))
    simp [hb] at this
  | notAPair _ hpair =>
    exact hpair bracket (List.append_inj' hbytes rfl).2.symm

/-- A checked form has the pattern of all its bytes but the last. -/
theorem patternOf_of_isForm {form : String} (h : IsForm form) :
    patternOf form = .ok (Utf8.encode form).dropLast := by
  obtain ⟨operators, bracket, hform, hoperators⟩ := h
  have hnone : operators.find? (fun b => !Byte.isOperator b) = none :=
    List.find?_eq_none.mpr fun b hb => by simp [hoperators b hb]
  simp [patternOf, hform, hnone, bracket.isPair_opener_closer]

/-- The check of one text: a form has its pattern, and any other text has a fault. -/
theorem patternOf_cases (form : String) :
    (IsForm form ∧ patternOf form = .ok (Utf8.encode form).dropLast) ∨
      ∃ fault : FormFault, fault.Of (Utf8.encode form) ∧ patternOf form = .error ⟨form, fault⟩ := by
  cases hpattern : patternOf form with
  | ok pattern =>
    obtain ⟨operators, bracket, rfl, hform, hoperators⟩ := patternOf_eq_ok hpattern
    have hisForm : IsForm form := ⟨operators, bracket, by simp [hform], hoperators⟩
    exact Or.inl ⟨hisForm, by rw [← hpattern, patternOf_of_isForm hisForm]⟩
  | error error =>
    refine Or.inr ?_
    unfold patternOf at hpattern
    dsimp only at hpattern
    split at hpattern
    · -- at least two bytes: the last two are looked at if all others are operators
      rename_i second first reversed hreverse
      have hbytes : Utf8.encode form = reversed.reverse ++ [first, second] := by
        simpa using congrArg List.reverse hreverse
      split at hpattern
      · rename_i b hfound
        cases hpattern
        obtain ⟨hb, operators, further, hsplit, hoperators⟩ :=
          List.find?_eq_some_iff_append.mp hfound
        refine ⟨.notAnOperator b, ?_, rfl⟩
        rw [hbytes, hsplit, List.append_assoc, List.cons_append]
        refine .notAnOperator ?_ (by simpa using hb) (by simp)
        exact fun x hx => by simpa using hoperators x hx
      · rename_i hnone
        split at hpattern
        · cases hpattern
        · rename_i hpair
          cases hpattern
          refine ⟨.notAPair, ?_, rfl⟩
          rw [hbytes]
          refine .notAPair (fun x hx => by simpa using List.find?_eq_none.mp hnone x hx) ?_
          intro bracket hbracket
          obtain ⟨rfl, rfl⟩ : first = bracket.opener ∧ second = bracket.closer := by
            simpa using hbracket
          exact hpair bracket.isPair_opener_closer
    · -- fewer than two bytes
      rename_i hshort
      cases hpattern
      refine ⟨.tooShort, .tooShort ?_, rfl⟩
      refine Nat.lt_of_not_le fun hlength => ?_
      rw [← List.length_reverse] at hlength
      match hreverse : (Utf8.encode form).reverse with
      | [] | [_] => simp [hreverse] at hlength
      | second :: first :: operators => exact hshort second first operators hreverse

/-! ## 2. The first text that is no form

Whatever a part of the pass computes, it looks at texts one after the other and stops at the first
fault.  The lemmas here put parts together in the ways in which the program does. -/

/-- A pass over texts: it succeeds if they are forms, and fails with the first that is none. -/
inductive Checked {α : Type} : List String → Except FormError α → Prop
  | passed {texts : List String} (hforms : ∀ form ∈ texts, IsForm form) (value : α) :
      Checked texts (.ok value)
  | failed {front back : List String} {form : String} {fault : FormFault}
      (hfront : ∀ form ∈ front, IsForm form) (hfault : fault.Of (Utf8.encode form)) :
      Checked (front ++ form :: back) (.error ⟨form, fault⟩)

namespace Checked

variable {α β : Type} {texts more : List String} {result : Except FormError α}

/-- The check of one text is a pass over that text. -/
theorem patternOf (form : String) : Checked [form] (patternOf form) := by
  rcases patternOf_cases form with ⟨hform, h⟩ | ⟨fault, hfault, h⟩
  · rw [h]
    exact .passed (by simpa using hform) _
  · rw [h]
    exact failed (List.forall_mem_nil _) hfault

/-- A part of the pass and the part that follows it. -/
theorem bind {next : α → Except FormError β} (h : Checked texts result)
    (hnext : ∀ value, result = .ok value → Checked more (next value)) :
    Checked (texts ++ more) (result >>= next) := by
  cases h with
  | passed hforms value =>
    have hrest := hnext value rfl
    change Checked _ (next value)
    generalize next value = final at hrest ⊢
    cases hrest with
    | passed hmore final =>
      exact .passed (fun form hin => (List.mem_append.mp hin).elim (hforms form) (hmore form)) final
    | failed hfront hfault =>
      rw [← List.append_assoc]
      exact .failed
        (fun form hin => (List.mem_append.mp hin).elim (hforms form) (hfront form)) hfault
  | failed hfront hfault =>
    rw [List.append_assoc, List.cons_append]
    exact .failed hfront hfault

/-- What ends without a check adds no text. -/
theorem map {next : α → β} (h : Checked texts result) :
    Checked texts (result >>= fun value => pure (next value)) := by
  rw [← List.append_nil texts]
  exact h.bind fun value _ => .passed (by simp) (next value)

/-- The pass over a list looks at the texts of its members, in order. -/
theorem foldlM {σ : Type} {step : σ → α → Except FormError σ} {textsOf : α → List String}
    (hstep : ∀ state x, Checked (textsOf x) (step state x)) (xs : List α) (state : σ) :
    Checked (xs.flatMap textsOf) (xs.foldlM step state) := by
  induction xs generalizing state with
  | nil => exact .passed (by simp) state
  | cons x xs ih =>
    rw [List.foldlM_cons, List.flatMap_cons]
    exact (hstep state x).bind fun next _ => ih next

/-- A pass succeeds exactly where all its texts are forms. -/
theorem succeeds_iff (h : Checked texts result) :
    (∃ value, result = .ok value) ↔ ∀ form ∈ texts, IsForm form := by
  cases h with
  | passed hforms value => exact ⟨fun _ => hforms, fun _ => ⟨value, rfl⟩⟩
  | @failed front back form fault _ hfault =>
    refine ⟨nofun, fun hforms => ?_⟩
    exact absurd (hforms form (by simp)) hfault.not_isForm

end Checked

/-! ## 3. Tables

A table is compared with a list of what was written for it.  One step adds one form to it, and folds
over definitions and forms are taken care of by `foldlM_upTo`. -/

/-- The contexts that a selector names. -/
def Selector.family : Selector → List Context
  | only context => [context]
  | group => [.root, .parentheses, .brackets, .braces]
  | quoted => [.double, .single, .backtick]
  | comment => [.block, .line]
  | fragment => [.quasi, Context.annotation]
  | name => [.identifier, .hash]
  | any => Context.all

/-- The bits of a selector are those of its contexts. -/
theorem Selector.contains_set (selector : Selector) (context : Context) :
    selector.set.contains context = true ↔ context ∈ selector.family := by
  have hsingle : ∀ other ∈ Context.all, ∀ context ∈ Context.all,
      (ContextSet.singleton other).contains context = true ↔ context ∈ [other] := by decide
  have hfamily : ∀ selector ∈ [group, quoted, comment, fragment, name, any],
      ∀ context ∈ Context.all,
        selector.set.contains context = true ↔ context ∈ selector.family := by decide
  cases selector with
  | only other => exact hsingle other other.mem_all context context.mem_all
  | _ => exact hfamily _ (by decide) context context.mem_all

/-- Does one of the selectors cover the context? -/
def QuasiDefinition.Covers (definition : QuasiDefinition) (context : Context) : Prop :=
  ∃ selector ∈ definition.contexts, context ∈ selector.family

instance (definition : QuasiDefinition) (context : Context) :
    Decidable (definition.Covers context) :=
  inferInstanceAs (Decidable (∃ selector ∈ definition.contexts, context ∈ selector.family))

/-- The forms written for a context, in order. -/
def writtenFor (definitions : List QuasiDefinition) (context : Context) : List String :=
  (definitions.filter fun definition => decide (definition.Covers context)).flatMap (·.forms)

/-- The entry of a form: the pattern is the form without its last byte. -/
def QuasiForm.of (form : String) : QuasiForm := ⟨form, (Utf8.encode form).dropLast⟩

/-- The entry of an annotation. -/
def AnnotationForm.of (written : String × Placement) : AnnotationForm :=
  ⟨written.1, written.2, (Utf8.encode written.1).dropLast⟩

namespace Fragments

variable {fragments after : Fragments}

/-- The tables of what is written: the first of equal forms, each with its pattern. -/
def Tables (fragments : Fragments) (written : Context → List String) : Prop :=
  ∀ context, fragments.quasiFor context = (written context).eraseDups.map QuasiForm.of

/-- What a successful fold makes of the whole list, if each step adds its member. -/
theorem foldlM_upTo {ε α σ : Type} {P : List α → σ → Prop} {step : σ → α → Except ε σ}
    (hstep : ∀ front x state next, P front state → step state x = .ok next →
      P (front ++ [x]) next)
    (xs front : List α) {state final : σ} (hstate : P front state)
    (h : xs.foldlM step state = .ok final) : P (front ++ xs) final := by
  induction xs generalizing front state with
  | nil =>
    cases h
    simpa using hstate
  | cons x xs ih =>
    rw [List.foldlM_cons] at h
    cases hx : step state x with
    | error error =>
      rw [hx] at h
      cases h
    | ok next =>
      rw [hx] at h
      simpa using ih (front ++ [x]) (hstep front x state next hstate hx) h

/-- What is kept of a list and one member more. -/
theorem eraseDups_concat {α : Type} [BEq α] [LawfulBEq α] (xs : List α) (x : α) :
    (xs ++ [x]).eraseDups = if x ∈ xs then xs.eraseDups else xs.eraseDups ++ [x] := by
  rw [List.eraseDups_append]
  by_cases h : x ∈ xs <;> simp [List.removeAll, List.eraseDups_cons, h]

/-- A table that gets a form is the table of the form written once more. -/
theorem addForm_written (form : String) (written : List String) :
    addForm (QuasiForm.of form) (written.eraseDups.map QuasiForm.of) =
      (written ++ [form]).eraseDups.map QuasiForm.of := by
  rw [eraseDups_concat, addForm]
  by_cases h : form ∈ written
  · simp [QuasiForm.of, h]
  · simp [QuasiForm.of, h]

/-- A form is in a table once. -/
theorem addForm_addForm (entry : QuasiForm) (table : List QuasiForm) :
    addForm entry (addForm entry table) = addForm entry table := by
  have hknown : (addForm entry table).any (fun known => known.form == entry.form) = true := by
    unfold addForm
    split
    · assumption
    · simp
  rw [addForm, if_pos hknown]

/-- A form goes into the tables of its contexts and into no other. -/
theorem quasiFor_addQuasi (entry : QuasiForm) (contexts : List Context) (context : Context) :
    (fragments.addQuasi entry contexts).quasiFor context =
      if context ∈ contexts then addForm entry (fragments.quasiFor context)
      else fragments.quasiFor context := by
  induction contexts generalizing fragments with
  | nil => rfl
  | cons first contexts ih =>
    let tables := fragments.quasi.set first.index (addForm entry fragments.quasi[first.index])
    have hfirst : quasiFor { fragments with quasi := tables } context =
        if context = first then addForm entry (fragments.quasiFor context)
        else fragments.quasiFor context := by
      by_cases hcontext : context = first
      · subst hcontext
        simp [quasiFor, tables]
      · have hindex : ¬ first.index.val = context.index.val := fun h =>
          hcontext (Context.index_injective (Fin.ext h)).symm
        simp [quasiFor, tables, hcontext, hindex]
    calc (fragments.addQuasi entry (first :: contexts)).quasiFor context
      _ = (addQuasi entry contexts { fragments with quasi := tables }).quasiFor context := rfl
      _ = _ := by
        rw [ih, hfirst]
        by_cases hcontext : context = first <;> by_cases hin : context ∈ contexts <;>
          simp [hcontext, hin, addForm_addForm]

/-- What a definition adds to what is written for each context. -/
theorem Tables.define {written : Context → List String} (h : fragments.Tables written)
    {definition : QuasiDefinition} (hdefine : fragments.define definition = .ok after) :
    after.Tables fun context =>
      written context ++ if definition.Covers context then definition.forms else [] := by
  have hall := foldlM_upTo (P := fun forms state => state.Tables fun context =>
      written context ++ if definition.Covers context then forms else [])
    ?_ definition.forms [] (by simpa using h) hdefine
  · simpa using hall
  · intro front form state next hstate hnext context
    rcases patternOf_cases form with ⟨-, hpattern⟩ | ⟨fault, -, hpattern⟩
    · rw [hpattern] at hnext
      cases hnext
      change (state.addQuasi (QuasiForm.of form) _).quasiFor context = _
      rw [quasiFor_addQuasi]
      by_cases hcovers : definition.Covers context
      · rw [if_pos, hstate context, addForm_written]
        · simp [hcovers]
        · simpa [ContextSet.mem_toList, ContextSet.contains_foldl_union, ContextSet.contains_empty,
            Selector.contains_set, QuasiDefinition.Covers] using hcovers
      · rw [if_neg, hstate context]
        · simp [hcovers]
        · simpa [ContextSet.mem_toList, ContextSet.contains_foldl_union, ContextSet.contains_empty,
            Selector.contains_set, QuasiDefinition.Covers] using hcovers
    · rw [hpattern] at hnext
      cases hnext

/-- The tables of some definitions, from none. -/
theorem tables_foldlM {definitions : List QuasiDefinition}
    (h : definitions.foldlM define empty = .ok fragments) :
    fragments.Tables (writtenFor definitions) := by
  have hall := foldlM_upTo (P := fun front state => state.Tables (writtenFor front)) ?_
    definitions [] ?_ h
  · simpa using hall
  · intro front definition state next hstate hnext
    convert hstate.define hnext using 2 with context
    by_cases hcovers : definition.Covers context <;> simp [writtenFor, List.filter_append, hcovers]
  · intro context
    simp [quasiFor, empty, writtenFor]

/-- What is kept as an annotation is what is written, the first of equal ones. -/
def Annotated (fragments : Fragments) (written : List (String × Placement)) : Prop :=
  fragments.annotations = written.eraseDups.map AnnotationForm.of

/-- A definition of an annotation is written behind those before it. -/
theorem Annotated.annotate {written : List (String × Placement)} (h : fragments.Annotated written)
    {definition : AnnotationDefinition} (hannotate : fragments.annotate definition = .ok after) :
    after.Annotated (written ++ [(definition.form, definition.placement)]) := by
  unfold Fragments.annotate at hannotate
  rcases patternOf_cases definition.form with ⟨-, hpattern⟩ | ⟨fault, -, hpattern⟩
  · rw [hpattern] at hannotate
    cases hannotate
    unfold Annotated at h ⊢
    change (fragments.addAnnotation
      (AnnotationForm.of (definition.form, definition.placement))).annotations = _
    rw [eraseDups_concat, addAnnotation, h]
    by_cases hin : (definition.form, definition.placement) ∈ written
    · simp [AnnotationForm.of, hin, h]
    · simp [AnnotationForm.of, hin]
  · rw [hpattern] at hannotate
    cases hannotate

/-- So are several, from none. -/
theorem annotated_foldlM {definitions : List AnnotationDefinition} {defined : Fragments}
    (hnone : defined.annotations = []) (h : definitions.foldlM annotate defined = .ok fragments) :
    fragments.Annotated (definitions.map fun definition =>
      (definition.form, definition.placement)) := by
  have hall := foldlM_upTo (P := fun front state => Annotated state
    (front.map fun definition => (definition.form, definition.placement))) ?_
    definitions [] (by simpa [Annotated] using hnone) h
  · simpa using hall
  · intro front definition state next hstate hnext
    simpa using hstate.annotate hnext

/-! ## 4. The whole pass

The interpolations leave the annotations alone and the other way round, so each can be taken from
its own half of the pass. -/

/-- Every text that is to be a form, also of a definition that covers no context. -/
def writtenIn (quasi : List QuasiDefinition) (annotations : List AnnotationDefinition) :
    List String :=
  quasi.flatMap (·.forms) ++ annotations.flatMap fun definition => [definition.form]

/-- The pass looks at every text, interpolations first. -/
theorem checked_build (quasi : List QuasiDefinition) (annotations : List AnnotationDefinition) :
    Checked (writtenIn quasi annotations) (build quasi annotations) := by
  have hdefine : ∀ (state : Fragments) (definition : QuasiDefinition),
      Checked definition.forms (state.define definition) := by
    intro state definition
    rw [← List.flatMap_singleton' definition.forms]
    exact Checked.foldlM (fun state form => (Checked.patternOf form).map) definition.forms state
  have hannotate : ∀ (state : Fragments) (definition : AnnotationDefinition),
      Checked [definition.form] (state.annotate definition) :=
    fun state definition => (Checked.patternOf definition.form).map
  exact (Checked.foldlM hdefine quasi empty).bind fun defined _ =>
    Checked.foldlM hannotate annotations defined

/-- The tables of two lists of definitions, or the first text in them that is no form. -/
structure Built (quasi : List QuasiDefinition) (annotations : List AnnotationDefinition)
    (result : Except FormError Fragments) : Prop where
  succeeds : (∃ fragments, result = .ok fragments) ↔
    ∀ form ∈ writtenIn quasi annotations, IsForm form
  fails : ∀ error, result = .error error → ∃ front back,
    writtenIn quasi annotations = front ++ error.form :: back ∧
      (∀ form ∈ front, IsForm form) ∧ ¬ IsForm error.form ∧
        error.fault.Of (Utf8.encode error.form)
  tables : ∀ fragments, result = .ok fragments → ∀ context,
    fragments.quasiFor context = (writtenFor quasi context).eraseDups.map QuasiForm.of
  annotations : ∀ fragments, result = .ok fragments →
    fragments.annotations = (annotations.map fun definition =>
      (definition.form, definition.placement)).eraseDups.map AnnotationForm.of

/-- **The tables are what the definitions say, and nothing else.** -/
theorem build_exact (quasi : List QuasiDefinition) (annotations : List AnnotationDefinition) :
    Built quasi annotations (build quasi annotations) := by
  have hchecked := checked_build quasi annotations
  have hparts : ∀ fragments, build quasi annotations = .ok fragments →
      ∃ defined, quasi.foldlM define empty = .ok defined ∧
        annotations.foldlM annotate defined = .ok fragments := by
    intro fragments h
    unfold build at h
    cases hdefined : quasi.foldlM define empty with
    | error error =>
      rw [hdefined] at h
      cases h
    | ok defined =>
      rw [hdefined] at h
      exact ⟨defined, rfl, h⟩
  refine ⟨hchecked.succeeds_iff, ?_, ?_, ?_⟩
  · intro error herror
    rw [herror] at hchecked
    generalize hwritten : writtenIn quasi annotations = written at hchecked
    cases hchecked with
    | @failed front back _ _ hfront hfault =>
      exact ⟨front, back, rfl, hfront, hfault.not_isForm, hfault⟩
  · -- the second half of the pass leaves the tables of interpolations alone
    intro fragments h context
    obtain ⟨defined, hdefined, hannotated⟩ := hparts fragments h
    have hkept : fragments.quasi = defined.quasi :=
      foldlM_ok (P := fun state => state.quasi = defined.quasi)
        (fun _ _ _ hstate hnext => (quasi_annotate hnext).trans hstate) _ rfl hannotated
    calc fragments.quasiFor context
      _ = defined.quasiFor context := by rw [quasiFor, quasiFor, hkept]
      _ = _ := tables_foldlM hdefined context
  · intro fragments h
    obtain ⟨defined, hdefined, hannotated⟩ := hparts fragments h
    have hnone : defined.annotations = [] :=
      foldlM_ok (P := fun state => state.annotations = [])
        (fun _ _ _ hstate hnext => (annotations_define hnext).trans hstate) _ rfl hdefined
    exact annotated_foldlM hnone hannotated

end Fragments
end StyleLex
