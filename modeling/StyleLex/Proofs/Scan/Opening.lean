/-
# Names in the root

The readers of the root come in an order, and those of names are not the first ones.  Where a name
is ahead that begins with its sign, with an escape or with a name byte other than a hyphen, the
readers before them decline: numbers, comments and markers begin otherwise, a fragment has an
opening bracket behind its operators, and an address has a parenthesis behind its letters
(`readNext_root`).  So the name is opened (`readNext_identifier`, `readNext_hashSign`).

A reader that is asked later accepts only if all before it declined, so to say what opens a name one
has to say what does not.  The conditions are about few bytes: the first byte excludes most readers,
and two need to look further, those of addresses and of fragments.  They are hypotheses here, and
`unbracketed_of_all` gives the second one for any source without an opening bracket.

A hyphen is left out because it may also begin a number or a marker.
-/
import StyleLex.Proofs.Scan.Inside
import StyleLex.Proofs.Token.Pattern

namespace StyleLex

/-! ## 1. What does not begin here

Facts about bytes and readings, without the scan. -/

namespace Byte

/-- A byte that begins a name: its sign, an escape, or a name byte other than a hyphen. -/
def leadsName (b : UInt8) : Bool :=
  b == hash || b == backslash || (isNameStart b && b != hyphen)

/-- Such a byte begins no blank, number, comment or marker. -/
theorem leadsName_apart {b : UInt8} (h : leadsName b = true) :
    isBlank b = false ∧ isSign b = false ∧ b ≠ dot ∧ isDecimal b = false ∧ b ≠ slash ∧
      b ≠ 0x3C ∧ b ≠ hyphen := by
  obtain ⟨⟨b⟩⟩ := b
  revert b
  decide +kernel

/-- No name byte opens a group. -/
theorem not_isOpener_of_isName {b : UInt8} (h : isName b = true) : isOpener b = false := by
  obtain ⟨⟨b⟩⟩ := b
  revert b
  decide +kernel

end Byte

/-- A numeral begins with a sign, a dot or a digit. -/
theorem Numeral.read?_of_lead (extended : Bool) {b : UInt8} (rest : List UInt8)
    (hsign : Byte.isSign b = false) (hdot : b ≠ Byte.dot) (hdigit : Byte.isDecimal b = false) :
    read? extended (b :: rest) = none := by
  have hunsigned : readSign (b :: rest) = (0, false) := by
    rw [readSign, hsign]
    rfl
  have hdecimal : ∀ extended, readDecimal? extended (b :: rest) = none := by
    intro extended
    rw [readDecimal?, hunsigned, if_neg]
    simp [beginsWith, hdigit, hdot]
  have hprefixed : ∀ base letter, readPrefixed? base letter (b :: rest) = none := by
    intro base letter
    have hzero : (b == Byte.zero) = false := by
      rw [beq_eq_false_iff_ne]
      rintro rfl
      exact absurd hdigit (by decide)
    rw [readPrefixed?, hunsigned]
    cases rest with
    | nil => rfl
    | cons mark rest => simp [hzero]
  cases extended with
  | false => exact hdecimal false
  | true =>
    rw [read?_true, hprefixed, hprefixed, hprefixed, hdecimal]
    rfl

/-- Behind the operators of a pattern stands an opening bracket. -/
theorem IsPattern.opener_ahead {pattern rest : List UInt8} (h : IsPattern pattern)
    (hfront : pattern <+: rest) :
    (rest.dropWhile Byte.isOperator).head?.any Byte.isOpener = true := by
  obtain ⟨operators, bracket, rfl, hoperators⟩ := h
  obtain ⟨tail, rfl⟩ := hfront
  have hopener : Byte.isOpener bracket.opener = true ∧
      Byte.isOperator bracket.opener = false := by
    cases bracket <;> decide
  rw [List.append_assoc, List.dropWhile_append_of_pos hoperators, List.singleton_append,
    List.dropWhile_cons_of_neg (by rw [hopener.2]; decide)]
  exact hopener.1

namespace Scan

/-- The letters of an address are name bytes, and behind them stands a parenthesis. -/
theorem name_of_beginsUrl {rest : List UInt8} (h : beginsUrl rest = true) :
    ∃ tail, rest.drop (rest.takeWhile Byte.isName).length = Byte.leftParenthesis :: tail := by
  have hname : ∀ letter ∈ [0x75, 0x72, 0x6C], ∀ b : UInt8, Byte.isLetterOf letter b = true →
      Byte.isName b = true := by
    simp only [List.forall_mem_cons]
    refine ⟨?_, ?_, ?_, List.forall_mem_nil _⟩ <;>
    · rintro ⟨⟨b⟩⟩
      revert b
      decide +kernel
  match rest, h with
  | u :: r :: l :: parenthesis :: tail, h =>
    rw [beginsUrl, Bool.and_eq_true, Bool.and_eq_true, Bool.and_eq_true, beq_iff_eq] at h
    obtain ⟨⟨⟨hu, hr⟩, hl⟩, rfl⟩ := h
    refine ⟨tail, ?_⟩
    rw [List.takeWhile_cons_of_pos (hname _ (by simp) u hu),
      List.takeWhile_cons_of_pos (hname _ (by simp) r hr),
      List.takeWhile_cons_of_pos (hname _ (by simp) l hl), List.takeWhile_cons_of_neg (by decide)]
    rfl

/-- Where a run of name bytes is ahead, no escape is. -/
theorem begins_of_run {rest : List UInt8} (h : rest.takeWhile Byte.isName ≠ []) :
    Escape.begins rest = false := by
  rw [Bool.eq_false_iff]
  intro hbegins
  obtain ⟨next, further, rfl, -⟩ := Escape.begins_iff.mp hbegins
  exact h (List.takeWhile_cons_of_neg (by decide))

variable {scope : Scope} {state : State} {b : UInt8} {tail : List UInt8}

/-! ## 2. Fragments

A fragment is operators and a group, whatever forms are defined; a source in which no bracket
follows the operators has none. -/

/-- Behind the operators ahead there is no opening bracket. -/
def Unbracketed (rest : List UInt8) : Prop :=
  (rest.dropWhile Byte.isOperator).head?.any Byte.isOpener = false

/-- Without an opening bracket there is no fragment. -/
theorem unbracketed_of_all {rest : List UInt8} (h : ∀ b ∈ rest, Byte.isOpener b = false) :
    Unbracketed rest := by
  unfold Unbracketed
  cases hdropped : rest.dropWhile Byte.isOperator with
  | nil => rfl
  | cons b tail =>
    have hin : b ∈ rest.dropWhile Byte.isOperator := by
      rw [hdropped]
      exact List.mem_cons_self
    exact h b ((List.dropWhile_suffix _).subset hin)

/-- So no interpolation is found … -/
theorem readQuasiOpening_eq_none (hmade : scope.fragments.Made) (h : Unbracketed state.rest) :
    readQuasiOpening scope state = none := by
  rw [readQuasiOpening, Option.map_eq_none_iff, List.find?_eq_none]
  intro form hform hfront
  have hpattern := isPattern_of_patternOf (hmade.quasi _ form hform)
  rw [Unbracketed, hpattern.opener_ahead (List.isPrefixOf_iff_prefix.mp hfront)] at h
  cases h

/-- … and no annotation. -/
theorem readAnnotationOpening_eq_none (hmade : scope.fragments.Made)
    (h : Unbracketed state.rest) : readAnnotationOpening scope state = none := by
  rw [readAnnotationOpening, Option.map_eq_none_iff, List.find?_eq_none]
  intro form hform hfront
  have hpattern := isPattern_of_patternOf (hmade.annotations form hform)
  rw [Unbracketed, hpattern.opener_ahead (List.isPrefixOf_iff_prefix.mp hfront)] at h
  cases h

/-! ## 3. The root

The readers of the root in their order, up to those of names.  What comes behind them does not
matter, so it is hidden in `others`. -/

/-- **The readers before those of names decline.** -/
theorem readNext_root (hmade : scope.fragments.Made) (hroot : state.frame.branch = .root)
    (hrest : state.rest = b :: tail) (hb : Byte.leadsName b = true)
    (hurl : beginsUrl state.rest = false) (hfragment : Unbracketed state.rest) :
    ∃ others, readNext scope state =
      ((readIdentifierOpening scope state).or ((readHashOpening scope state).or others)).getD
        state := by
  obtain ⟨hblank, hsign, hdot, hdigit, hslash, hangle, hhyphen⟩ := Byte.leadsName_apart hb
  have hcontext : state.context = .root := by
    rw [State.context, hroot]
    rfl
  -- the readers of the root before those of names, in their order
  have hrun : readBlank scope state = none := by
    rw [readBlank, hrest, List.takeWhile_cons_of_neg (by rw [hblank]; decide)]
  have hnumeral : readNumeral scope state = none := by
    rw [readNumeral, hrest, Numeral.read?_of_lead _ _ hsign hdot hdigit]
    rfl
  have haddress : readUrlOpening scope state = none := by
    rw [readUrlOpening, hurl, Bool.and_false]
    rfl
  have hcomment : readCommentOpening scope state = none := by
    have hpair : ∀ second, facingPair Byte.slash second state = false := by
      intro second
      have hmarker : (Byte.slash == b) = false := beq_eq_false_iff_ne.mpr (Ne.symm hslash)
      rw [facingPair, hrest, List.isPrefixOf, hmarker, Bool.false_and]
    rw [readCommentOpening, readBlockOpening, readLineOpening, hpair, hpair, Bool.and_false,
      Bool.false_and]
    rfl
  have hcdx : readCdx scope state = none := by
    have hopening : (0x3C == b) = false := beq_eq_false_iff_ne.mpr (Ne.symm hangle)
    have hclosing : (0x2D == b) = false := beq_eq_false_iff_ne.mpr (Ne.symm hhyphen)
    have hmarkers : ∀ marker : CdxMarker,
        (Utf8.encode marker.text).isPrefixOf (b :: tail) = false := by
      rintro (_ | _)
      · show (0x3C == b && _) = false
        rw [hopening, Bool.false_and]
      · show (0x2D == b && _) = false
        rw [hclosing, Bool.false_and]
    simp [readCdx, hrest, hmarkers]
  rw [readNext, hcontext, readersOf]
  simp only [findSome?_or, hrun, hnumeral, haddress, hcomment, hcdx,
    readQuasiOpening_eq_none hmade hfragment, readAnnotationOpening_eq_none hmade hfragment,
    Option.none_or]
  exact ⟨_, rfl⟩

/-- **An identifier is opened** where one begins, unless a hyphen comes first. -/
theorem readNext_identifier (hmade : scope.fragments.Made) (hroot : state.frame.branch = .root)
    (hrest : state.rest = b :: tail) (hb : Byte.leadsName b = true)
    (hurl : beginsUrl state.rest = false) (hfragment : Unbracketed state.rest)
    (hbegins : beginsIdentifier state.rest = true) :
    readNext scope state = state.openBranch (.identifier "") := by
  obtain ⟨others, hnext⟩ := readNext_root hmade hroot hrest hb hurl hfragment
  rw [hnext, readIdentifierOpening, if_pos hbegins]
  rfl

/-- **A hash is opened** at its sign, if a name follows. -/
theorem readNext_hashSign (hmade : scope.fragments.Made) (hroot : state.frame.branch = .root)
    (hrest : state.rest = Byte.hash :: tail) (hfragment : Unbracketed state.rest) {hash : Hash}
    (hbegin : Hash.begin? state.rest = some hash) :
    readNext scope state = state.enter scope (.hash hash) 1 := by
  have hletter : Byte.isLetterOf 0x75 Byte.hash = false := by decide
  have hurl : beginsUrl state.rest = false := by
    rw [hrest]
    match tail with
    | [] | [_] | [_, _] | _ :: _ :: _ :: _ => simp [beginsUrl, hletter]
  have hnone : readIdentifierOpening scope state = none := by
    rw [readIdentifierOpening, hrest, if_neg]
    have hstart : Byte.isNameStart Byte.hash = false := by decide
    have hescape : Escape.begins (Byte.hash :: tail) = false := by
      cases tail <;> rfl
    rw [beginsIdentifier, if_neg (by decide), hstart, hescape]
    decide
  obtain ⟨others, hnext⟩ := readNext_root hmade hroot hrest (by decide) hurl hfragment
  rw [hnext, hnone, readHashOpening, hbegin]
  rfl

end Scan
end StyleLex
