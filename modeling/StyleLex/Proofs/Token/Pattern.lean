/-
# What a form is recognised by

A form is checked when a lexer is made: it is operators and then a bracket pair.  So its pattern is
operators and an opening bracket (`IsPattern`), and every form in the tables of a lexer stands
there with its pattern (`Fragments.ofDialect_made`).

The check is made once, when the definitions of a dialect are turned into tables, and a lexer keeps
no form that has not passed it.  So whoever meets a form in a lexer may assume its shape, by
`Fragments.Made`.  What is not kept in the tables is the closer; a reader does not need it, since
the group that the opener begins knows its own.
-/
import StyleLex.Lexer

namespace StyleLex

/-! ## 1. One form

`patternOf` takes the text of a form apart from its end: the last byte closes, the one before it
opens, and what is left is operators. -/

/-- A byte that opens a bracket is its opener. -/
theorem Bracket.opener_of_ofOpener? {b : UInt8} {bracket : Bracket}
    (h : ofOpener? b = some bracket) : bracket.opener = b := by
  unfold ofOpener? at h
  split at h
  · rename_i hb
    cases h
    exact (beq_iff_eq.mp hb).symm
  · split at h
    · rename_i hb
      cases h
      exact (beq_iff_eq.mp hb).symm
    · split at h
      · rename_i hb
        cases h
        exact (beq_iff_eq.mp hb).symm
      · cases h

/-- Two bytes that form a pair are the two of one bracket. -/
theorem Bracket.exists_of_isPair {opener closer : UInt8} (h : isPair opener closer = true) :
    ∃ bracket : Bracket, bracket.opener = opener ∧ bracket.closer = closer := by
  unfold isPair at h
  cases hbracket : ofOpener? opener with
  | none => simp [hbracket] at h
  | some bracket =>
    refine ⟨bracket, opener_of_ofOpener? hbracket, ?_⟩
    simpa [hbracket] using h

/-- Operators, and an opening bracket. -/
def IsPattern (pattern : List UInt8) : Prop :=
  ∃ (operators : List UInt8) (bracket : Bracket), pattern = operators ++ [bracket.opener] ∧
    ∀ x ∈ operators, Byte.isOperator x = true

/-- What a form is made of: the pattern, and the bracket that closes it. -/
theorem patternOf_eq_ok {form : String} {pattern : List UInt8} (h : patternOf form = .ok pattern) :
    ∃ (operators : List UInt8) (bracket : Bracket), pattern = operators ++ [bracket.opener] ∧
      Utf8.encode form = pattern ++ [bracket.closer] ∧
      ∀ x ∈ operators, Byte.isOperator x = true := by
  unfold patternOf at h
  dsimp only at h
  cases hreverse : (Utf8.encode form).reverse with
  | nil =>
    rw [hreverse] at h
    cases h
  | cons closer before =>
    cases before with
    | nil =>
      rw [hreverse] at h
      cases h
    | cons opener operators =>
      rw [hreverse] at h
      dsimp only at h
      split at h
      · cases h
      · rename_i hoperators
        split at h
        · rename_i hpair
          cases h
          obtain ⟨bracket, rfl, rfl⟩ := Bracket.exists_of_isPair hpair
          have hbytes := congrArg List.reverse hreverse
          rw [List.reverse_reverse, List.reverse_cons, List.reverse_cons] at hbytes
          rw [hbytes, List.dropLast_concat]
          refine ⟨operators.reverse, bracket, rfl, rfl, ?_⟩
          intro x hx
          simpa using List.find?_eq_none.mp hoperators x hx
        · cases h

/-- What a form is recognised by is a pattern. -/
theorem isPattern_of_patternOf {form : String} {pattern : List UInt8}
    (h : patternOf form = .ok pattern) : IsPattern pattern := by
  obtain ⟨operators, bracket, hpattern, -, hoperators⟩ := patternOf_eq_ok h
  exact ⟨operators, bracket, hpattern, hoperators⟩

/-- A text that is cut short inside a pattern is operators. -/
theorem IsPattern.operators {pattern text : List UInt8} (h : IsPattern pattern)
    (hfront : text <+: pattern) (hlt : text.length < pattern.length) :
    ∀ x ∈ text, Byte.isOperator x = true := by
  obtain ⟨operators, bracket, rfl, hoperators⟩ := h
  rw [List.length_append, List.length_singleton] at hlt
  have htext : text <+: operators :=
    List.prefix_of_prefix_length_le hfront (List.prefix_append _ _) (Nat.le_of_lt_succ hlt)
  exact fun x hx => hoperators x (htext.subset hx)

/-! ## 2. Tables

Tables are filled by folding over definitions, contexts and syntaxes; each step adds a form that was
checked, or fails. -/

namespace Fragments

variable {fragments after : Fragments}

/-- Every form of the tables stands there with its pattern. -/
structure Made (fragments : Fragments) : Prop where
  quasi : ∀ index : Fin 14, ∀ form ∈ fragments.quasi[index],
    patternOf form.form = .ok form.pattern
  annotations : ∀ form ∈ fragments.annotations, patternOf form.form = .ok form.pattern

/-- What the steps of a fold keep holds where the fold succeeds. -/
theorem foldlM_ok {ε α σ : Type} {P : σ → Prop} {step : σ → α → Except ε σ}
    (hstep : ∀ state x next, P state → step state x = .ok next → P next) :
    ∀ (xs : List α) {state final : σ}, P state → xs.foldlM step state = .ok final → P final
  | [], state, final, hstate, h => by
    cases h
    exact hstate
  | x :: xs, state, final, hstate, h => by
    rw [List.foldlM_cons] at h
    cases hx : step state x with
    | error error =>
      rw [hx] at h
      cases h
    | ok next =>
      rw [hx] at h
      exact foldlM_ok hstep xs (hstep state x next hstate hx) h

/-- Without definitions there are no forms in any context. -/
theorem quasiFor_empty (context : Context) : empty.quasiFor context = [] :=
  Vector.getElem_replicate _

/-- So nothing has to be checked. -/
theorem empty_made : Made empty where
  quasi := by
    intro index form hin
    simp [empty] at hin
  annotations := nofun

/-- A table gets one form more, or stays as it is. -/
theorem mem_addForm {form other : QuasiForm} {table : List QuasiForm}
    (h : other ∈ addForm form table) : other ∈ table ∨ other = form := by
  unfold addForm at h
  split at h
  · exact Or.inl h
  · rcases List.mem_append.mp h with h | h
    · exact Or.inl h
    · exact Or.inr (List.mem_singleton.mp h)

/-- An interpolation is put into the table of each of its contexts. -/
theorem Made.addQuasi {form : QuasiForm} (hform : patternOf form.form = .ok form.pattern) :
    ∀ (contexts : List Context) {fragments : Fragments}, fragments.Made →
      (fragments.addQuasi form contexts).Made
  | [], _, h => h
  | context :: contexts, fragments, h => by
    let tables := fragments.quasi.set context.index (addForm form fragments.quasi[context.index])
    have hmade : Made { fragments with quasi := tables } := by
      refine ⟨?_, h.annotations⟩
      intro index other hin
      rw [Fin.getElem_fin, Vector.getElem_set] at hin
      split at hin
      · rcases mem_addForm hin with hin | rfl
        · exact h.quasi context.index other hin
        · exact hform
      · exact h.quasi index other hin
    exact Made.addQuasi hform contexts hmade

/-- An annotation is put into the one table that there is. -/
theorem Made.addAnnotation (h : fragments.Made) {form : AnnotationForm}
    (hform : patternOf form.form = .ok form.pattern) : (fragments.addAnnotation form).Made := by
  unfold Fragments.addAnnotation
  split
  · exact h
  · refine ⟨h.quasi, ?_⟩
    intro other hin
    rcases List.mem_append.mp hin with hin | hin
    · exact h.annotations other hin
    · obtain rfl := List.mem_singleton.mp hin
      exact hform

/-- A definition is checked before it is added. -/
theorem Made.define (h : fragments.Made) {definition : QuasiDefinition}
    (hdefine : fragments.define definition = .ok after) : after.Made := by
  refine foldlM_ok ?_ definition.forms h hdefine
  intro state form next hstate hnext
  cases hpattern : patternOf form with
  | error error =>
    rw [hpattern] at hnext
    cases hnext
  | ok pattern =>
    rw [hpattern] at hnext
    cases hnext
    have hform : patternOf (QuasiForm.mk form pattern).form = .ok pattern := hpattern
    exact Made.addQuasi hform _ hstate

/-- So is one of an annotation. -/
theorem Made.annotate (h : fragments.Made) {definition : AnnotationDefinition}
    (hannotate : fragments.annotate definition = .ok after) : after.Made := by
  unfold Fragments.annotate at hannotate
  cases hpattern : patternOf definition.form with
  | error error =>
    rw [hpattern] at hannotate
    cases hannotate
  | ok pattern =>
    rw [hpattern] at hannotate
    cases hannotate
    exact h.addAnnotation hpattern

/-- **Every form of a lexer has its pattern.** -/
theorem ofDialect_made {dialect : Dialect} (h : ofDialect dialect = .ok fragments) :
    fragments.Made := by
  unfold ofDialect build at h
  cases hquasi : dialect.quasiDefinitions.foldlM define empty with
  | error error =>
    rw [hquasi] at h
    cases h
  | ok defined =>
    rw [hquasi] at h
    have hdefined : defined.Made :=
      foldlM_ok (fun _ _ _ hstate hnext => hstate.define hnext) _ empty_made hquasi
    exact foldlM_ok (fun _ _ _ hstate hnext => hstate.annotate hnext) _ hdefined h

end Fragments

/-- The lexer of a dialect has the tables of the dialect. -/
theorem Lexer.ofDialect_made {dialect : Dialect} {lexer : Lexer}
    (h : Lexer.ofDialect dialect = .ok lexer) : lexer.fragments.Made := by
  unfold Lexer.ofDialect at h
  cases hfragments : Fragments.ofDialect dialect with
  | error error =>
    rw [hfragments] at h
    cases h
  | ok fragments =>
    rw [hfragments] at h
    cases h
    exact Fragments.ofDialect_made hfragments

/-- The lexer of a dialect has that dialect. -/
theorem Lexer.dialect_of_ofDialect {dialect : Dialect} {lexer : Lexer}
    (h : Lexer.ofDialect dialect = .ok lexer) : lexer.dialect = dialect := by
  unfold Lexer.ofDialect at h
  cases hfragments : Fragments.ofDialect dialect with
  | error error =>
    rw [hfragments] at h
    cases h
  | ok fragments =>
    rw [hfragments] at h
    cases h
    rfl

end StyleLex
