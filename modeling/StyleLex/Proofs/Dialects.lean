/-
# Dialects that read alike

A dialect is seven features and two lists of definitions.  Two questions are answered here about
two dialects and the trees that their lexers make of the same bytes.

The definitions count as a set: it is enough that the dialects interpolate the same forms in the
contexts that look for interpolations, and that they place the same annotations
(`Lexer.tokenizeBytes_defined`).  The tables are looked up in order, but no two forms stand in one
place, so there is no order to see.

A feature counts only where it has something to read: bytes in which none of its words occurs are
read alike with and without it (`Lexer.tokenizeBytes_unused`).

Either way the lexers answer alike wherever a scan may stand, so the scans do the same
(`Scan.run_alike`) and so do the calls (`Lexer.tokenizeBytes_alike`).

Of a dialect and its tables a scan sees only answers: to nine questions, asked of the bytes that are
ahead of it.  Which numeral is there, which escape, which form of an interpolation in this context,
and so on (`Scope.Alike`).  Each theorem answers the nine questions for its pair of dialects, in any
place of the input, and nothing else about scanning is needed.

That the words of a feature are looked for in the whole input, and not only where the feature would
be asked for, makes the condition easy to check and is not a loss: a caller who knows that a word
occurs cannot tell from the word alone whether it is read as what it looks like.
-/
import StyleLex.Proofs.Scan.Splitting
import StyleLex.Proofs.Token.Lookup
import StyleLex.Proofs.Token.Occurs

namespace StyleLex

/-! ## 1. Features

A feature is given a name so that dialects can be compared in all but one of them.  The words are
written as text and compared without regard to case, which only matters for the prefixes of numbers
and for `url(`. -/

/-- What a dialect switches on or off. -/
inductive Feature where
  | extendedNumbers
  | extendedEscapes
  | standardEscapes
  | extendedStrings
  | extendedComments
  | standardUrls
  | standardCdx
  deriving DecidableEq, Repr

/-- Does the dialect have the feature? -/
def Dialect.has (dialect : Dialect) : Feature → Bool
  | .extendedNumbers => dialect.extendedNumbers
  | .extendedEscapes => dialect.extendedEscapes
  | .standardEscapes => dialect.standardEscapes
  | .extendedStrings => dialect.extendedStrings
  | .extendedComments => dialect.extendedComments
  | .standardUrls => dialect.standardUrls
  | .standardCdx => dialect.standardCdx

/-- The words of which a feature must see one, in lower case. -/
def Feature.words : Feature → List String
  | .extendedNumbers => ["_", ".", "0b", "0o", "0x"]
  | .extendedEscapes => ["\\"]
  | .standardEscapes => ["\\"]
  | .extendedStrings => ["`", "\n", "\r", "\x0C"]
  | .extendedComments => ["//", "/*"]
  | .standardUrls => ["url("]
  | .standardCdx => ["<!--", "-->"]

/-- Two dialects that differ in one feature at most. -/
structure Dialect.AgreeBut (feature : Feature) (dialect other : Dialect) : Prop where
  has : ∀ kept, kept ≠ feature → dialect.has kept = other.has kept
  quasi : dialect.quasiDefinitions = other.quasiDefinitions
  annotations : dialect.annotationDefinitions = other.annotationDefinitions

/-- Escapes are read alike where the two features about them are the same. -/
theorem Escape.read?_congr {dialect other : Dialect} (bytes : List UInt8)
    (hextended : dialect.has .extendedEscapes = other.has .extendedEscapes)
    (hstandard : dialect.has .standardEscapes = other.has .standardEscapes) :
    read? dialect bytes = read? other bytes := by
  simp only [Dialect.has] at hextended hstandard
  cases bytes with
  | nil => rfl
  | cons b rest => simp only [read?, hextended, hstandard]

/-! ## 2. Words

From the tests that a reader makes to the word that it has found. -/

variable {ahead : List UInt8}

/-- Where a URL begins there is its word. -/
theorem occurs_of_beginsUrl (h : Scan.beginsUrl ahead = true) : Occurs "url(" ahead := by
  unfold Scan.beginsUrl at h
  split at h
  · rename_i u r l parenthesis rest
    simp only [Bool.and_eq_true, beq_iff_eq] at h
    obtain ⟨⟨⟨hu, hr⟩, hl⟩, rfl⟩ := h
    have hfront : [u, r, l, Byte.leftParenthesis] <+: u :: r :: l :: Byte.leftParenthesis :: rest :=
      ⟨rest, rfl⟩
    refine Occurs.of_front hfront ?_
    simp only [List.map_cons, Byte.lowercase_of_isLetterOf (by decide) hu,
      Byte.lowercase_of_isLetterOf (by decide) hr, Byte.lowercase_of_isLetterOf (by decide) hl]
    rfl
  · cases h

/-- A backtick or a line break is one of the words of strings. -/
theorem occurs_of_quoting
    (h : (ahead.head?.any fun b => b == Byte.backtick || Byte.isNewline b) = true) :
    ∃ word ∈ Feature.words .extendedStrings, Occurs word ahead := by
  cases ahead with
  | nil => cases h
  | cons b rest =>
    simp only [List.head?_cons, Option.any_some, Byte.isNewline, Bool.or_eq_true,
      beq_iff_eq] at h
    rcases h with rfl | (rfl | rfl) | rfl
    · exact ⟨"`", by simp [Feature.words], .of_mem List.mem_cons_self rfl⟩
    · exact ⟨"\n", by simp [Feature.words], .of_mem List.mem_cons_self rfl⟩
    · exact ⟨"\r", by simp [Feature.words], .of_mem List.mem_cons_self rfl⟩
    · exact ⟨"\x0C", by simp [Feature.words], .of_mem List.mem_cons_self rfl⟩

/-! ## 3. Calls

Two calls on the same bytes differ at most in their lexers, and these in what they answer. -/

namespace Lexer

variable {dialect dialect' : Dialect} {lexer lexer' : Lexer}

/-- The lexer of a dialect holds the tables of the dialect. -/
theorem fragments_of_ofDialect (h : ofDialect dialect = .ok lexer) :
    Fragments.ofDialect dialect = .ok lexer.fragments := by
  unfold ofDialect at h
  cases hfragments : Fragments.ofDialect dialect with
  | error error =>
    rw [hfragments] at h
    cases h
  | ok fragments =>
    rw [hfragments] at h
    cases h
    rfl

/-- **Lexers that answer alike wherever a scan may stand make the same of the bytes.** -/
theorem tokenizeBytes_alike (bytes : Array UInt8)
    (h : ∀ n, (lexer.scope { bytes := bytes }).Alike (lexer'.scope { bytes := bytes })
      ((Source.range { bytes := bytes }).drop n)) :
    lexer.tokenizeBytes bytes = lexer'.tokenizeBytes bytes := by
  have hscan : lexer.scan .root { bytes := bytes } = lexer'.scan .root { bytes := bytes } :=
    Scan.run_alike h
  simp only [tokenizeBytes, tokenize, extend, hscan]

/-! ## 4. The definitions are sets

The tables are lists in which the order could matter: the first form that fits is taken.  But a form
that fits begins with operators and ends with an opener, so no form is the beginning of another one,
and at most one can stand in a place. -/

/-- **The tables count as sets.**  Lexers of dialects with the same features, the same
interpolations where these are looked for, and the same annotations make the same of all bytes,
however the definitions are ordered, grouped or repeated. -/
theorem tokenizeBytes_defined (h : ofDialect dialect = .ok lexer)
    (h' : ofDialect dialect' = .ok lexer')
    (hfeatures : ∀ feature, dialect.has feature = dialect'.has feature)
    (hquasi : ∀ context ∈ Context.interpolating, ∀ form,
      dialect.Interpolates context form ↔ dialect'.Interpolates context form)
    (hannotations : ∀ form, dialect.placementOf? form = dialect'.placementOf? form)
    (bytes : Array UInt8) : lexer.tokenizeBytes bytes = lexer'.tokenizeBytes bytes := by
  obtain ⟨hinterpolates, hplacement⟩ := Fragments.ofDialect_defined (fragments_of_ofDialect h)
  obtain ⟨hinterpolates', hplacement'⟩ := Fragments.ofDialect_defined (fragments_of_ofDialect h')
  have hmade := ofDialect_made h
  have hmade' := ofDialect_made h'
  obtain rfl := dialect_of_ofDialect h
  obtain rfl := dialect_of_ofDialect h'
  refine tokenizeBytes_alike bytes fun n => ?_
  constructor
  case beyond => exact fun _ => Iff.rfl
  case numeral => exact congrArg (Numeral.read? · _) (hfeatures .extendedNumbers)
  case escape => exact Escape.read?_congr _ (hfeatures _) (hfeatures _)
  case string => exact fun _ => hfeatures .extendedStrings
  case comment => exact fun _ => hfeatures .extendedComments
  case url => exact fun _ => hfeatures .standardUrls
  case cdx => exact fun _ _ => hfeatures .standardCdx
  case quasi =>
    intro context hin
    refine Option.ext fun form => ?_
    rw [scope, scope, Fragments.quasiAt?_eq_some hmade, Fragments.quasiAt?_eq_some hmade',
      hinterpolates, hinterpolates', hquasi context hin]
  case annotation =>
    -- in front of no form at all the order cannot matter; in front of one, it is the only one
    by_cases hstands : ∃ form, Stands form ((Source.range { bytes := bytes }).drop n)
    · obtain ⟨form, hform⟩ := hstands
      rw [scope, scope, Fragments.annotationAt?_of_stands hmade hform,
        Fragments.annotationAt?_of_stands hmade' hform, hplacement, hplacement', hannotations]
    · have hnone := not_exists.mp hstands
      rw [scope, scope, Fragments.annotationAt?_of_not_stands hmade hnone,
        Fragments.annotationAt?_of_not_stands hmade' hnone]

/-- One interpolation form for every context, and one annotation form. -/
def together : Dialect :=
  { Dialect.standard with
    quasiDefinitions := [{ contexts := [.any], forms := ["#\x7b\x7d"] }]
    annotationDefinitions := [{ placement := .outer, form := "@[]" }] }

/-- The same forms, family by family and with repetitions. -/
def apart : Dialect :=
  { Dialect.standard with
    quasiDefinitions :=
      [ { contexts := [.comment, .only .url], forms := ["#\x7b\x7d"] },
        { contexts := [.quoted, .group], forms := ["#\x7b\x7d", "#\x7b\x7d"] } ]
    annotationDefinitions :=
      [ { placement := .outer, form := "@[]" }, { placement := .inner, form := "@[]" } ] }

/-- An annotation and an interpolation, with the definitions in one piece and in several. -/
theorem together_apart_alike :
    ∃ lexer lexer', ofDialect together = .ok lexer ∧ ofDialect apart = .ok lexer' ∧
      lexer.tokenizeBytes #[0x40, 0x5B, 0x5D, 0x23, 0x7B, 0x7D] =
        lexer'.tokenizeBytes #[0x40, 0x5B, 0x5D, 0x23, 0x7B, 0x7D] ∧
      ((lexer.tokenizeBytes #[0x40, 0x5B, 0x5D, 0x23, 0x7B, 0x7D]).tree.children
        Tree.root).toList.map (lexer.tokenizeBytes #[0x40, 0x5B, 0x5D, 0x23, 0x7B, 0x7D]).tree.kind?
          = [some (.branch (Branch.annotation "@[]" .outer)),
            some (.branch (.quasi "#\x7b\x7d"))] := by
  refine ⟨_, _, rfl, rfl, ?_, by decide⟩
  have hmade : ofDialect together = .ok _ := rfl
  have hmade' : ofDialect apart = .ok _ := rfl
  refine tokenizeBytes_defined hmade hmade' ?_ ?_ ?_ _
  · rintro (_ | _) <;> rfl
  · intro context hin form
    have hselected : (Selector.set .any).contains context = true ∧
        ((Selector.set .comment).contains context = true ∨
          (Selector.set (.only .url)).contains context = true ∨
          (Selector.set .quoted).contains context = true ∨
          (Selector.set .group).contains context = true) := by
      revert context
      decide
    simp only [Dialect.Interpolates, together, apart, List.mem_cons, List.not_mem_nil, or_false,
      exists_eq_or_imp, exists_eq_left]
    grind
  · intro form
    by_cases hform : "@[]" = form
    · simp [Dialect.placementOf?, together, apart, hform]
    · simp [Dialect.placementOf?, together, apart, hform]

/-! ## 5. Features that are not used

For each feature there is one question that it has a say in, and that question is not asked, or is
answered the same, where none of its words is ahead. -/

/-- **A feature counts only where one of its words occurs.** -/
theorem tokenizeBytes_unused {feature : Feature} (hagree : dialect.AgreeBut feature dialect')
    (h : ofDialect dialect = .ok lexer) (h' : ofDialect dialect' = .ok lexer')
    (bytes : Array UInt8) (hunused : ∀ word ∈ feature.words, ¬ Occurs word bytes.toList) :
    lexer.tokenizeBytes bytes = lexer'.tokenizeBytes bytes := by
  have hfragments : lexer.fragments = lexer'.fragments := by
    have hbuilt := fragments_of_ofDialect h
    rw [Fragments.ofDialect, hagree.quasi, hagree.annotations, ← Fragments.ofDialect,
      fragments_of_ofDialect h'] at hbuilt
    exact (Except.ok.inj hbuilt).symm
  obtain rfl := dialect_of_ofDialect h
  obtain rfl := dialect_of_ofDialect h'
  refine tokenizeBytes_alike bytes fun n => ?_
  rw [Source.range_all]
  -- The feature is another one wherever a word of it is ahead.
  have hkept : ∀ (kept : Feature) {word : String}, word ∈ kept.words →
      Occurs word (bytes.toList.drop n) → lexer.dialect.has kept = lexer'.dialect.has kept := by
    intro kept word hin hoccurs
    refine hagree.has kept ?_
    rintro rfl
    exact hunused word hin hoccurs.of_drop
  constructor
  case beyond => exact fun _ => Iff.rfl
  -- the only feature that is asked at every digit, so here the answers have to be compared
  case numeral =>
    by_cases hfeature : feature = .extendedNumbers
    · subst hfeature
      have hplain : ∀ word ∈ ["_", ".", "0b", "0o", "0x"],
          ¬ Occurs word (bytes.toList.drop n) :=
        fun word hin hoccurs => hunused word hin hoccurs.of_drop
      exact (Numeral.read?_plain _ hplain).trans (Numeral.read?_plain _ hplain).symm
    · exact congrArg (Numeral.read? · _) (hagree.has .extendedNumbers (Ne.symm hfeature))
  -- without a backslash nothing is an escape in any dialect
  case escape =>
    by_cases hbackslash : Byte.backslash ∈ bytes.toList.drop n
    · have hoccurs : Occurs "\\" (bytes.toList.drop n) := .of_mem hbackslash rfl
      exact Escape.read?_congr _ (hkept _ (List.mem_singleton_self _) hoccurs)
        (hkept _ (List.mem_singleton_self _) hoccurs)
    · have hnone : ∀ dialect, Escape.read? dialect (bytes.toList.drop n) = none := fun dialect =>
        Option.eq_none_iff_forall_ne_some.mpr fun _ hread =>
          hbackslash (Escape.backslash_of_read? hread)
      rw [hnone, hnone]
  case string =>
    intro hquoting
    obtain ⟨word, hin, hoccurs⟩ := occurs_of_quoting hquoting
    exact hkept .extendedStrings hin hoccurs
  case comment =>
    rintro (hfront | hfront)
    all_goals rw [List.isPrefixOf_iff_prefix] at hfront
    · have hoccurs : Occurs "/*" (bytes.toList.drop n) := .of_front hfront rfl
      exact hkept .extendedComments (by simp [Feature.words]) hoccurs
    · have hoccurs : Occurs "//" (bytes.toList.drop n) := .of_front hfront rfl
      exact hkept .extendedComments (by simp [Feature.words]) hoccurs
  case url =>
    exact fun hurl => hkept .standardUrls (List.mem_singleton_self _) (occurs_of_beginsUrl hurl)
  case cdx =>
    intro marker hfront
    rw [List.isPrefixOf_iff_prefix] at hfront
    have hoccurs : Occurs marker.text (bytes.toList.drop n) := by
      refine .of_front hfront ?_
      cases marker <;> rfl
    refine hkept .standardCdx ?_ hoccurs
    cases marker <;> decide
  case quasi => exact fun context _ => congrArg (Fragments.quasiAt? · context _) hfragments
  case annotation => exact congrArg (Fragments.annotationAt? · _) hfragments

/-- A number without a dot is read alike with and without extended numbers; one with a dot at its
end is not, though the dialects differ in nothing else. -/
theorem exponent_unused :
    (⟨Dialect.standard, Fragments.empty⟩ : Lexer).tokenizeBytes #[0x31, 0x65, 0x33] =
      (⟨{ Dialect.standard with extendedNumbers := true }, Fragments.empty⟩ : Lexer).tokenizeBytes
        #[0x31, 0x65, 0x33] ∧
    ((⟨Dialect.standard, Fragments.empty⟩ : Lexer).tokenizeBytes #[0x31, 0x2E]).tree.size ≠
      ((⟨{ Dialect.standard with extendedNumbers := true }, Fragments.empty⟩ : Lexer).tokenizeBytes
        #[0x31, 0x2E]).tree.size := by
  constructor
  · have hagree : Dialect.standard.AgreeBut .extendedNumbers
        { Dialect.standard with extendedNumbers := true } := by
      constructor
      · rintro (_ | _) h
        all_goals first | rfl | exact absurd rfl h
      · rfl
      · rfl
    refine tokenizeBytes_unused hagree rfl rfl _ ?_
    unfold Occurs
    decide
  · decide

end Lexer
end StyleLex
