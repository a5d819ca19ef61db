/-
# What the tables of forms answer

A lookup takes the first form of a list whose pattern is in front of the bytes.  What it finds does
not depend on the order of the list, for two forms never stand in one place: their patterns are
operators and then an opening bracket, which is no operator, so none of two patterns goes on where
the other ends (`IsPattern.eq_of_starts`), and the closing bracket is the one of the pattern
(`patternOf_injective`).

So a table can be read as a set.  `Dialect.Interpolates` and `Dialect.placementOf?` say what the
definitions of a dialect make of a form, whatever they are grouped into, and the tables of a lexer
say the same (`Fragments.ofDialect_defined`); a lookup asks them for the form that stands in front
of the bytes (`Fragments.quasiAt?_eq_some`, `Fragments.annotationAt?_of_stands`).

That two forms never stand in one place is what makes the order of definitions irrelevant, and it
holds because forms are checked: a pattern without an opening bracket at its end could be the
beginning of another one.  The one thing that does depend on order is the placement of an annotation
that is defined twice, where the first definition counts.
-/
import StyleLex.Proofs.Scan.Asking
import StyleLex.Proofs.Token.Pattern
import Mathlib.Data.List.Find

namespace StyleLex

/-! ## 1. Forms and their places

From bytes to forms: the pattern determines the brackets, and the text of a form is its pattern and
the closer. -/

/-- An opener is no operator, so a pattern has one opener, at its end. -/
theorem Bracket.opener_not_operator (bracket : Bracket) :
    Byte.isOperator bracket.opener = false := by
  cases bracket <;> decide

/-- **Two patterns do not share a place.** -/
theorem IsPattern.eq_of_starts {pattern other ahead : List UInt8} (hpattern : IsPattern pattern)
    (hother : IsPattern other) (h : pattern <+: ahead) (h' : other <+: ahead) :
    pattern = other := by
  have hle : ∀ {p q : List UInt8}, IsPattern p → IsPattern q → p <+: q → q.length ≤ p.length := by
    intro p q hp hq hfront
    refine Nat.le_of_not_lt fun hlt => ?_
    obtain ⟨operators, bracket, rfl, -⟩ := hp
    have hoperator := hq.operators hfront hlt bracket.opener (by simp)
    simp [bracket.opener_not_operator] at hoperator
  rcases List.prefix_or_prefix_of_prefix h h' with hfront | hfront
  · exact hfront.eq_of_length_le (hle hpattern hother hfront)
  · exact (hfront.eq_of_length_le (hle hother hpattern hfront)).symm

/-- A text is determined by its bytes. -/
theorem Utf8.encode_injective {text other : String} (h : encode text = encode other) :
    text = other := by
  refine String.toByteArray_inj.mp (ByteArray.ext (Array.ext' ?_))
  exact h

/-- Two forms with one pattern have the same bracket at the end. -/
theorem patternOf_injective {form other : String} {pattern : List UInt8}
    (h : patternOf form = .ok pattern) (h' : patternOf other = .ok pattern) : form = other := by
  obtain ⟨operators, bracket, rfl, hform, -⟩ := patternOf_eq_ok h
  obtain ⟨operators', bracket', hpattern, hother, -⟩ := patternOf_eq_ok h'
  obtain ⟨-, hopener⟩ := List.append_inj' hpattern rfl
  obtain rfl : bracket = bracket' := by
    have := congrArg Bracket.ofOpener? (List.singleton_inj.mp hopener)
    simpa [Bracket.ofOpener?_opener] using this
  exact Utf8.encode_injective (hform.trans hother.symm)

/-- A form stands in front of some bytes if its pattern does. -/
def Stands (form : String) (ahead : List UInt8) : Prop :=
  ∃ pattern, patternOf form = .ok pattern ∧ pattern <+: ahead

/-- **No two forms stand in one place.** -/
theorem Stands.unique {form other : String} {ahead : List UInt8} (h : Stands form ahead)
    (h' : Stands other ahead) : form = other := by
  obtain ⟨pattern, hpattern, hahead⟩ := h
  obtain ⟨pattern', hpattern', hahead'⟩ := h'
  obtain rfl := (isPattern_of_patternOf hpattern).eq_of_starts
    (isPattern_of_patternOf hpattern') hahead hahead'
  exact patternOf_injective hpattern hpattern'

/-! ## 2. What a dialect defines

The definitions of a dialect as a relation, with no tables: whoever changes the grouping of the
definitions changes nothing here. -/

namespace Dialect

/-- Is the form an interpolation in this context?  Some definition says so. -/
def Interpolates (dialect : Dialect) (context : Context) (form : String) : Prop :=
  ∃ definition ∈ dialect.quasiDefinitions, form ∈ definition.forms ∧
    ∃ selector ∈ definition.contexts, selector.set.contains context = true

/-- Where the annotation form attaches; the first definition of the form says it. -/
def placementOf? (dialect : Dialect) (form : String) : Option Placement :=
  (dialect.annotationDefinitions.find? fun definition => definition.form == form).map
    (·.placement)

end Dialect

/-! ## 3. Sets of contexts

A definition selects contexts by selectors, each of which stands for a set of them. -/

/-- Every context is in the list of all. -/
theorem Context.mem_all (context : Context) : context ∈ all := by
  cases context <;> decide

namespace ContextSet

/-- A set is listed by its members. -/
theorem mem_toList {set : ContextSet} {context : Context} :
    context ∈ set.toList ↔ set.contains context = true := by
  simp [toList, context.mem_all]

/-- A context is in a union if it is in one of the two. -/
theorem contains_union {set other : ContextSet} {context : Context} :
    (set.union other).contains context = true ↔
      set.contains context = true ∨ other.contains context = true := by
  have hbits : (set.bits ||| other.bits) &&& (singleton context).bits =
      set.bits &&& (singleton context).bits ||| other.bits &&& (singleton context).bits := by
    rw [← UInt16.toBitVec_inj]
    simp [BitVec.and_or_distrib_right]
  simp only [contains, intersects, union, hbits, bne_iff_ne, ne_eq, UInt16.or_eq_zero_iff]
  grind

/-- The empty set has no member. -/
theorem contains_empty (context : Context) : empty.contains context = false := by
  simp [contains, intersects, empty]

/-- The union of the sets of some selectors. -/
theorem contains_foldl_union {context : Context} (selectors : List Selector) {set : ContextSet} :
    (selectors.foldl (fun set selector => set.union selector.set) set).contains context = true ↔
      set.contains context = true ∨
        ∃ selector ∈ selectors, selector.set.contains context = true := by
  induction selectors generalizing set with
  | nil => simp
  | cons selector selectors ih => simp [ih, contains_union, or_assoc]

end ContextSet

/-- A context is found at its place. -/
theorem Context.index_injective {context other : Context} (h : context.index = other.index) :
    context = other := by
  have hall : ∀ context : Context, all[context.index]? = some context := by
    rintro (_ | _) <;> rfl
  simpa [hall] using congrArg (all[·]?) h

/-! ## 4. Tables

The tables are made by folds that may fail.  `mem_foldlM` says what such a fold holds when it
succeeds, and is used at every level, for definitions, for the forms of a definition, and for the
contexts of a form. -/

namespace Fragments

variable {fragments after : Fragments}

/-- Is the form in the table of the context? -/
def Interpolates (fragments : Fragments) (context : Context) (form : String) : Prop :=
  ∃ entry ∈ fragments.quasiFor context, entry.form = form

/-- The placement of the first entry with the form. -/
def placementOf? (fragments : Fragments) (form : String) : Option Placement :=
  (fragments.annotations.find? fun entry => entry.form == form).map (·.placement)

/-- What a successful fold holds in the end: what it held at first, and what each turn brought. -/
theorem mem_foldlM {ε α β σ : Type} {R : σ → β → Prop} {brings : α → β → Prop}
    {step : σ → α → Except ε σ}
    (hstep : ∀ state x next, step state x = .ok next →
      ∀ y, R next y ↔ R state y ∨ brings x y)
    (xs : List α) {state final : σ} (h : xs.foldlM step state = .ok final) (y : β) :
    R final y ↔ R state y ∨ ∃ x ∈ xs, brings x y := by
  induction xs generalizing state with
  | nil =>
    cases h
    simp
  | cons x xs ih =>
    rw [List.foldlM_cons] at h
    cases hx : step state x with
    | error error =>
      rw [hx] at h
      cases h
    | ok next =>
      rw [hx] at h
      simp [ih h, hstep state x next hx y, or_assoc]

/-- A form that the table has is not added again, but then it is there. -/
theorem exists_mem_addForm {entry : QuasiForm} {table : List QuasiForm} {form : String} :
    (∃ known ∈ addForm entry table, known.form = form) ↔
      (∃ known ∈ table, known.form = form) ∨ form = entry.form := by
  unfold addForm
  split
  · rename_i hknown
    simp only [List.any_eq_true, beq_iff_eq] at hknown
    constructor
    · exact Or.inl
    · rintro (h | rfl)
      · exact h
      · exact hknown
  · simp only [List.mem_append, List.mem_singleton, or_and_right, exists_or, exists_eq_left]
    rw [eq_comm (a := entry.form)]

/-- A form that is added for some contexts is there in these. -/
theorem interpolates_addQuasi {entry : QuasiForm} (contexts : List Context) {context : Context}
    {form : String} : (fragments.addQuasi entry contexts).Interpolates context form ↔
      fragments.Interpolates context form ∨ context ∈ contexts ∧ form = entry.form := by
  induction contexts generalizing fragments with
  | nil => simp [addQuasi]
  | cons first contexts ih =>
    let tables := fragments.quasi.set first.index (addForm entry fragments.quasi[first.index])
    have hfirst : Interpolates { fragments with quasi := tables } context form ↔
        fragments.Interpolates context form ∨ context = first ∧ form = entry.form := by
      by_cases hcontext : context = first
      · subst hcontext
        simp [Interpolates, quasiFor, tables, exists_mem_addForm]
      · have hindex : ¬ first.index.val = context.index.val := fun h =>
          hcontext (Context.index_injective (Fin.ext h)).symm
        simp [Interpolates, quasiFor, tables, hcontext, hindex]
    calc (fragments.addQuasi entry (first :: contexts)).Interpolates context form
      _ ↔ (addQuasi entry contexts { fragments with quasi := tables }).Interpolates context form :=
        Iff.rfl
      _ ↔ _ := by
        rw [ih, hfirst, List.mem_cons]
        grind

/-- A definition brings its forms to the contexts that it selects. -/
theorem interpolates_define {definition : QuasiDefinition} {context : Context} {form : String}
    (h : fragments.define definition = .ok after) : after.Interpolates context form ↔
      fragments.Interpolates context form ∨ form ∈ definition.forms ∧
        ∃ selector ∈ definition.contexts, selector.set.contains context = true := by
  have hstep : ∀ (state : Fragments) (added : String) (next : Fragments),
      (do
        let pattern ← patternOf added
        pure (state.addQuasi ⟨added, pattern⟩ (definition.contexts.foldl
          (fun set s => set.union s.set) ContextSet.empty).toList)) = Except.ok next →
      ∀ y : Context × String, next.Interpolates y.1 y.2 ↔ state.Interpolates y.1 y.2 ∨
        (y.2 = added ∧ ∃ selector ∈ definition.contexts, selector.set.contains y.1 = true) := by
    intro state added next hnext y
    cases hpattern : patternOf added with
    | error error =>
      rw [hpattern] at hnext
      cases hnext
    | ok pattern =>
      rw [hpattern] at hnext
      cases hnext
      simp [interpolates_addQuasi, ContextSet.mem_toList, ContextSet.contains_foldl_union,
        ContextSet.contains_empty, and_comm]
  have hforms := mem_foldlM (R := fun state y => state.Interpolates y.1 y.2) hstep
    definition.forms h (context, form)
  simpa using hforms

/-- Interpolations leave the table of annotations alone. -/
theorem annotations_define {definition : QuasiDefinition}
    (h : fragments.define definition = .ok after) : after.annotations = fragments.annotations := by
  refine foldlM_ok (P := fun state => state.annotations = fragments.annotations) ?_
    definition.forms rfl h
  intro state form next hstate hnext
  cases hpattern : patternOf form with
  | error error =>
    rw [hpattern] at hnext
    cases hnext
  | ok pattern =>
    rw [hpattern] at hnext
    cases hnext
    exact hstate

/-- An annotation that is accepted is added with its pattern. -/
theorem annotate_eq_ok {definition : AnnotationDefinition}
    (h : fragments.annotate definition = .ok after) : ∃ pattern,
      after = fragments.addAnnotation ⟨definition.form, definition.placement, pattern⟩ := by
  unfold annotate at h
  cases hpattern : patternOf definition.form with
  | error error =>
    rw [hpattern] at h
    cases h
  | ok pattern =>
    rw [hpattern] at h
    cases h
    exact ⟨pattern, rfl⟩

/-- Annotations leave the tables of interpolations alone. -/
theorem quasi_annotate {definition : AnnotationDefinition}
    (h : fragments.annotate definition = .ok after) : after.quasi = fragments.quasi := by
  obtain ⟨pattern, rfl⟩ := annotate_eq_ok h
  unfold addAnnotation
  split <;> rfl

/-- The first entry of a form stays the first. -/
theorem placementOf?_annotate {definition : AnnotationDefinition} {form : String}
    (h : fragments.annotate definition = .ok after) : after.placementOf? form =
      (fragments.placementOf? form).or
        (if definition.form = form then some definition.placement else none) := by
  obtain ⟨pattern, rfl⟩ := annotate_eq_ok h
  unfold addAnnotation placementOf?
  split
  · rename_i hknown
    obtain ⟨known, hin, heq⟩ := List.any_eq_true.mp hknown
    by_cases hform : definition.form = form
    · have hfound : (fragments.annotations.find? fun entry => entry.form == form).isSome := by
        rw [List.find?_isSome]
        grind
      obtain ⟨entry, hentry⟩ := Option.isSome_iff_exists.mp hfound
      simp [hentry]
    · simp [hform]
  · rw [List.find?_append]
    by_cases hform : definition.form = form
    · cases hfound : fragments.annotations.find? fun entry => entry.form == form <;>
        simp [hform]
    · simp [hform]

/-- Over all annotations: the first definition of a form gives its placement. -/
theorem placementOf?_foldlM (definitions : List AnnotationDefinition) {form : String}
    (h : definitions.foldlM annotate fragments = .ok after) : after.placementOf? form =
      (fragments.placementOf? form).or ((definitions.find? fun definition =>
        definition.form == form).map (·.placement)) := by
  induction definitions generalizing fragments with
  | nil =>
    cases h
    simp
  | cons definition definitions ih =>
    rw [List.foldlM_cons] at h
    cases hfirst : fragments.annotate definition with
    | error error =>
      rw [hfirst] at h
      cases h
    | ok next =>
      rw [hfirst] at h
      rw [ih h, placementOf?_annotate hfirst, Option.or_assoc, List.find?_cons]
      by_cases hform : definition.form = form
      · simp [hform]
      · simp [beq_eq_false_iff_ne.mpr hform, hform]

/-- **The tables of a dialect hold what the dialect defines.** -/
theorem ofDialect_defined {dialect : Dialect} (h : ofDialect dialect = .ok fragments) :
    (∀ context form, fragments.Interpolates context form ↔ dialect.Interpolates context form) ∧
      ∀ form, fragments.placementOf? form = dialect.placementOf? form := by
  unfold ofDialect build at h
  cases hquasi : dialect.quasiDefinitions.foldlM define empty with
  | error error =>
    rw [hquasi] at h
    cases h
  | ok defined =>
    rw [hquasi] at h
    have hkept : fragments.quasi = defined.quasi :=
      foldlM_ok (P := fun state => state.quasi = defined.quasi)
        (fun _ _ _ hstate hnext => (quasi_annotate hnext).trans hstate) _ rfl h
    have hnone : defined.annotations = [] :=
      foldlM_ok (P := fun state => state.annotations = [])
        (fun _ _ _ hstate hnext => (annotations_define hnext).trans hstate) _ rfl hquasi
    constructor
    · intro context form
      have hdefined := mem_foldlM (R := fun state y => state.Interpolates y.1 y.2)
        (fun _ _ _ hnext _ => interpolates_define hnext)
        dialect.quasiDefinitions hquasi (context, form)
      simpa [Interpolates, quasiFor, hkept, empty, Dialect.Interpolates] using hdefined
    · intro form
      rw [placementOf?_foldlM _ h]
      simp [placementOf?, hnone, Dialect.placementOf?]

/-! ## 5. Lookups

What a scan asks of a table is the form in front of some bytes.  As at most one form stands there,
the answer is that form, if the table has it. -/

/-- What stands in a table of interpolations is found where its form stands. -/
theorem quasiAt?_eq_some (hmade : fragments.Made) {context : Context} {ahead : List UInt8}
    {form : String} : fragments.quasiAt? context ahead = some form ↔
      fragments.Interpolates context form ∧ Stands form ahead := by
  have hstands : ∀ entry ∈ fragments.quasiFor context,
      (entry.pattern.isPrefixOf ahead = true ↔ Stands entry.form ahead) := by
    intro entry hin
    have hpattern := hmade.quasi context.index entry hin
    simp [Stands, hpattern]
  constructor
  · intro h
    obtain ⟨entry, hfound, rfl⟩ := Option.map_eq_some_iff.mp h
    have hin := List.mem_of_find?_eq_some hfound
    exact ⟨⟨entry, hin, rfl⟩, (hstands entry hin).mp (by simpa using List.find?_some hfound)⟩
  · rintro ⟨⟨known, hknown, rfl⟩, h⟩
    have hsome : ((fragments.quasiFor context).find? fun entry =>
        entry.pattern.isPrefixOf ahead).isSome := by
      rw [List.find?_isSome]
      exact ⟨known, hknown, (hstands known hknown).mpr h⟩
    obtain ⟨entry, hfound⟩ := Option.isSome_iff_exists.mp hsome
    have hentry : Stands entry.form ahead :=
      (hstands entry (List.mem_of_find?_eq_some hfound)).mp (by simpa using List.find?_some hfound)
    simp [quasiAt?, hfound, hentry.unique h]

/-- Where a form stands, a table of annotations is asked for that form. -/
theorem annotationAt?_of_stands (hmade : fragments.Made) {ahead : List UInt8} {form : String}
    (h : Stands form ahead) :
    fragments.annotationAt? ahead = (fragments.placementOf? form).map fun placement =>
      (form, placement) := by
  have hstands : ∀ entry ∈ fragments.annotations,
      entry.pattern.isPrefixOf ahead = (entry.form == form) := by
    intro entry hin
    have hpattern := hmade.annotations entry hin
    rw [Bool.eq_iff_iff, List.isPrefixOf_iff_prefix, beq_iff_eq]
    constructor
    · exact fun hfront => Stands.unique ⟨_, hpattern, hfront⟩ h
    · rintro rfl
      obtain ⟨pattern, hstanding, hfront⟩ := h
      rw [hpattern] at hstanding
      cases hstanding
      exact hfront
  rw [annotationAt?, placementOf?, List.find?_congr hstands]
  cases hfound : fragments.annotations.find? fun entry => entry.form == form with
  | none => rfl
  | some entry =>
    obtain rfl : entry.form = form := by simpa using List.find?_some hfound
    rfl

/-- Where no form stands, a table of annotations has none to find. -/
theorem annotationAt?_of_not_stands (hmade : fragments.Made) {ahead : List UInt8}
    (h : ∀ form, ¬ Stands form ahead) : fragments.annotationAt? ahead = none := by
  rw [annotationAt?, Option.map_eq_none_iff, List.find?_eq_none]
  intro entry hin hfront
  exact h entry.form ⟨_, hmade.annotations entry hin, List.isPrefixOf_iff_prefix.mp hfront⟩

end Fragments
end StyleLex
