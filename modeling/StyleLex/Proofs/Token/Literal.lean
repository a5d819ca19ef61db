/-
# How a numeral is written out

A number is written part by part: a sign, the digits of the integer, a fraction behind its dot and
an exponent behind its letter, where every part but a digit may be left out; or a sign, a zero, the
letter of a base and digits.  In extended dialects single separators may stand between the digits
of a part (`Numeral.Run`).  `Numeral.Literal` lists these texts, with the number that each one is.

The reader takes such a text back, all of it, and finds the same number
(`Numeral.Literal.read?_eq`).  It goes part by part: no part begins as the one before it could go
on (`Numeral.Stops`), so each is taken to its end and not further.

This is the other direction of `Proofs/Token/Written`, for texts that are a number from the first
byte to the last.  The grammar here is stricter: a dot has a digit behind it, and a separator has
one on both sides.  Anything looser would be read as well, but what it is read as would then depend
on what follows.

Prefixed numbers are tried first, so for a decimal number it has to be shown that no prefix is found
in it; none is, because no byte of a decimal number is the letter of a base.  The exponent is told
from one by its letter, as `e` names no base.
-/
import StyleLex.Proofs.Token.Spelled

namespace StyleLex
namespace Numeral

/-! ## 1. The grammar

Parts as in the grammar of `Proofs/Token/Written`, but with separators where one may write them. -/

/-- Digits of a base and their values.  Where separators are allowed, one may stand between a digit
and the next. -/
inductive Run (base : Nat) (separated : Bool) : List UInt8 → List UInt8 → Prop where
  | nil : Run base separated [] []
  | digit {b v : UInt8} {bytes values : List UInt8} (denotes : Byte.Denotes base b v)
      (more : Run base separated bytes values) : Run base separated (b :: bytes) (v :: values)
  | separator {b v : UInt8} {bytes values : List UInt8} (denotes : Byte.Denotes base b v)
      (allowed : separated = true) (more : Run base separated bytes values)
      (between : values ≠ []) : Run base separated (b :: Byte.underscore :: bytes) (v :: values)

/-- A fraction that may be left out, with its dot. -/
inductive Point (separated : Bool) : List UInt8 → List UInt8 → Prop where
  | absent : Point separated [] []
  | present {bytes values : List UInt8} (digits : Run 10 separated bytes values)
      (filled : values ≠ []) : Point separated (Byte.dot :: bytes) values

/-- An exponent that may be left out, with its letter; whether it is negative, and its digits. -/
inductive Power (separated : Bool) : List UInt8 → Bool → List UInt8 → Prop where
  | absent : Power separated [] false []
  | present {letter : UInt8} {s bytes values : List UInt8} {negative : Bool}
      (marked : letter = 0x65 ∨ letter = 0x45) (sign : Sign s negative)
      (digits : Run 10 separated bytes values) (filled : values ≠ []) :
      Power separated (letter :: (s ++ bytes)) negative values

/-- `Literal extended text numeral`: the text writes the numeral out. -/
inductive Literal (extended : Bool) : List UInt8 → Numeral → Prop where
  | decimal {s i f e integer fraction exponent : List UInt8} {negative exponentNegative : Bool}
      (sign : Sign s negative) (whole : Run 10 extended i integer)
      (below : Point extended f fraction) (power : Power extended e exponentNegative exponent)
      (filled : integer ≠ [] ∨ fraction ≠ []) :
      Literal extended (s ++ (i ++ (f ++ e)))
        ⟨10, negative, exponentNegative, integer, fraction, exponent⟩
  | prefixed {s i integer : List UInt8} {negative : Bool} {base : Nat} {letter : UInt8}
      (sign : Sign s negative) (based : BaseLetter base letter) (whole : Run base true i integer)
      (filled : integer ≠ []) (allowed : extended = true) :
      Literal extended (s ++ Byte.zero :: letter :: i) ⟨base, negative, false, integer, [], []⟩

variable {extended separated negative : Bool} {base : Nat} {b v letter : UInt8}
  {bytes values rest : List UInt8}

/-! ## 2. Digits

`Stops` is what the reader needs to know of the bytes behind a run: neither a digit nor a separator.
-/

/-- The bases that numbers are written in. -/
def IsBaseOf (base : Nat) : Prop := base = 10 ∨ ∃ letter, BaseLetter base letter

/-- Ten is a base. -/
theorem isBaseOf_ten : IsBaseOf 10 := Or.inl rfl

/-- So is what a letter names. -/
theorem BaseLetter.isBaseOf (h : BaseLetter base letter) : IsBaseOf base := Or.inr ⟨letter, h⟩

/-- A digit is in the class of its base, and is read as its value. -/
theorem digit_of_base (hbase : IsBaseOf base) (h : Byte.Denotes base b v) :
    Byte.isDigitOf base b = true ∧ Byte.digitValue b = v := by
  have hcases : base = 2 ∨ base = 8 ∨ base = 10 ∨ base = 16 := by
    rcases hbase with rfl | ⟨letter, hletter⟩
    · simp
    · cases hletter <;> simp
  have hwide : Byte.Denotes 16 b v := ⟨by have := h.1; omega, h.2⟩
  refine ⟨?_, (Name.digit_of_denotes hwide).2⟩
  obtain ⟨hlt, hbyte⟩ := h
  rcases hcases with rfl | rfl | rfl | rfl
  · have : b.toNat = 0x30 ∨ b.toNat = 0x31 := by omega
    simpa [Byte.isDigitOf, Byte.isBinary, ← UInt8.toNat_inj] using this
  · simp only [Byte.isDigitOf, Byte.isOctal, Utf8.between_iff, UInt8.reduceToNat]
    omega
  · simp only [Byte.isDigitOf, Byte.isDecimal, Utf8.between_iff, UInt8.reduceToNat]
    omega
  · exact (Name.digit_of_denotes ⟨hlt, hbyte⟩).1

/-- No run of digits goes on here. -/
def Stops (isDigit : UInt8 → Bool) (rest : List UInt8) : Prop :=
  ∀ b ∈ rest.head?, isDigit b = false ∧ b ≠ Byte.underscore

/-- Nothing goes on at the end. -/
theorem stops_nil (isDigit : UInt8 → Bool) : Stops isDigit [] := nofun

/-- A run without digits has no bytes. -/
theorem Run.eq_nil_iff (h : Run base separated bytes values) : bytes = [] ↔ values = [] := by
  cases h <;> simp

/-- A run that has digits begins with one. -/
theorem Run.begins (hbase : IsBaseOf base) (h : Run base separated bytes values)
    (filled : values ≠ []) (rest : List UInt8) :
    beginsWith (Byte.isDigitOf base) (bytes ++ rest) = true := by
  cases h with
  | nil => exact absurd rfl filled
  | digit denotes => exact (digit_of_base hbase denotes).1
  | separator denotes => exact (digit_of_base hbase denotes).1

/-- A run has digits and separators in it, and nothing else. -/
theorem Run.mem (hbase : IsBaseOf base) (h : Run base separated bytes values) :
    ∀ b ∈ bytes, Byte.isDigitOf base b = true ∨ b = Byte.underscore := by
  induction h with
  | nil => exact List.forall_mem_nil _
  | digit denotes _ ih =>
    exact List.forall_mem_cons.mpr ⟨Or.inl (digit_of_base hbase denotes).1, ih⟩
  | separator denotes _ _ _ ih =>
    exact List.forall_mem_cons.mpr ⟨Or.inl (digit_of_base hbase denotes).1,
      List.forall_mem_cons.mpr ⟨Or.inr rfl, ih⟩⟩

/-- Where no run goes on, nothing is added. -/
theorem digitsOnto_stops {isDigit : UInt8 → Bool} (h : Stops isDigit rest) (separated : Bool)
    (digits : Array UInt8) (length : Nat) :
    digitsOnto isDigit separated digits length rest = (digits, length) := by
  cases rest with
  | nil => rfl
  | cons b rest =>
    obtain ⟨hdigit, hseparator⟩ := h b rfl
    rw [digitsOnto, if_neg (by simp [hdigit]), if_neg (by simp [hseparator])]

/-- Digits are added to digits one by one. -/
theorem Run.digitsOnto_eq (hbase : IsBaseOf base) (h : Run base separated bytes values)
    (hstops : Stops (Byte.isDigitOf base) rest) (digits : Array UInt8) (length : Nat) :
    digitsOnto (Byte.isDigitOf base) separated digits length (bytes ++ rest) =
      (digits ++ values.toArray, length + bytes.length) := by
  induction h generalizing digits length with
  | nil => simp [digitsOnto_stops hstops]
  | digit denotes more ih =>
    obtain ⟨hdigit, rfl⟩ := digit_of_base hbase denotes
    rw [List.cons_append, digitsOnto, if_pos hdigit, ih]
    simp [Nat.add_comm, Nat.add_left_comm]
  | separator denotes allowed more between ih =>
    obtain ⟨hdigit, rfl⟩ := digit_of_base hbase denotes
    have hunderscore : Byte.isDigitOf base Byte.underscore = false := by
      rcases hbase with rfl | ⟨letter, hletter⟩
      · decide
      · cases hletter <;> decide
    rw [List.cons_append, digitsOnto, if_pos hdigit, List.cons_append, digitsOnto,
      if_neg (by simp [hunderscore]), if_pos, ih]
    · simp [Nat.add_comm, Nat.add_left_comm]
    · simp [allowed, more.begins hbase between]

/-- **A run is read to its end.** -/
theorem Run.read (hbase : IsBaseOf base) (h : Run base separated bytes values)
    (hstops : Stops (Byte.isDigitOf base) rest) :
    digitRun (Byte.isDigitOf base) separated (bytes ++ rest) = (values, bytes.length) := by
  rw [digitRun, h.digitsOnto_eq hbase hstops]
  simp

/-! ## 3. Parts

A part is read to its end because the next one begins with another byte: a dot, a letter, or
nothing. -/

/-- A sign is read, where none follows. -/
theorem Sign.read {s : List UInt8} (h : Sign s negative) (rest : List UInt8)
    (hrest : beginsWith Byte.isSign rest = false) :
    readSign (s ++ rest) = (s.length, negative) := by
  cases h with
  | absent =>
    cases rest with
    | nil => rfl
    | cons b rest =>
      have hb : Byte.isSign b = false := hrest
      rw [List.nil_append, readSign, hb]
      rfl
  | plus => rfl
  | minus => rfl

/-- No digit is a sign. -/
theorem not_beginsWith_isSign (h : beginsWith Byte.isDecimal rest = true) :
    beginsWith Byte.isSign rest = false := by
  cases rest with
  | nil => cases h
  | cons b rest =>
    have hall : ∀ b : BitVec 8, Byte.isDecimal ⟨b⟩ = true → Byte.isSign ⟨b⟩ = false := by
      decide +kernel
    exact hall b.toBitVec h

/-- What an exponent may begin with. -/
theorem Power.head {e : List UInt8} (h : Power separated e negative values) :
    ∀ b ∈ e.head?, b = 0x65 ∨ b = 0x45 := by
  cases h with
  | absent => exact nofun
  | present marked =>
    rintro b ⟨⟩
    exact marked

/-- No run of decimal digits goes on with an exponent. -/
theorem Power.stops {e : List UInt8} (h : Power separated e negative values) :
    Stops Byte.isDecimal e := by
  intro b hb
  rcases h.head b hb with rfl | rfl <;> decide

/-- Nor with a fraction, if it does not go on with what is behind that. -/
theorem Point.stops {f e : List UInt8} (h : Point separated f values)
    (he : Stops Byte.isDecimal e) : Stops Byte.isDecimal (f ++ e) := by
  cases h with
  | absent => exact he
  | present =>
    rintro b ⟨⟩
    decide

/-- A fraction is read in front of an exponent. -/
theorem Point.read {f e exponent : List UInt8} (h : Point extended f values)
    (he : Power extended e negative exponent) :
    readFraction extended (f ++ e) = (values, f.length) := by
  cases h with
  | absent =>
    rw [List.nil_append]
    cases e with
    | nil => rfl
    | cons b e =>
      have hdot : (b == Byte.dot) = false := by
        rcases he.head b rfl with rfl | rfl <;> rfl
      rw [readFraction, hdot]
      rfl
  | present digits filled =>
    have hbegins := digits.begins isBaseOf_ten filled e
    have hrun := digits.read isBaseOf_ten he.stops
    rw [show Byte.isDigitOf 10 = Byte.isDecimal from rfl] at hbegins hrun
    rw [List.cons_append, readFraction, hbegins, Bool.or_true, if_pos (by rfl), hrun,
      List.length_cons]

/-- An exponent is read at the end. -/
theorem Power.read {e : List UInt8} (h : Power extended e negative values) :
    readExponent extended e = (values, negative, e.length) := by
  cases h with
  | absent => rfl
  | @present letter s bytes values negative marked sign digits filled =>
    have hletter : Byte.isLetterOf 0x65 letter = true := by
      rcases marked with rfl | rfl <;> rfl
    have hbegins := digits.begins isBaseOf_ten filled []
    have hrun := digits.read isBaseOf_ten (stops_nil _)
    rw [show Byte.isDigitOf 10 = Byte.isDecimal from rfl, List.append_nil] at hbegins hrun
    have hsign := sign.read _ (not_beginsWith_isSign hbegins)
    simp only [readExponent, hsign, List.drop_left, hletter, hbegins, hrun, Bool.and_self, if_true,
      List.length_cons, List.length_append, Nat.add_comm 1]
    rw [Nat.add_right_comm]

/-! ## 4. Numbers

The two sorts of numbers, each read by its own reader, and the readers that are asked before
decline. -/

/-- A decimal number begins with a digit or with a dot. -/
theorem beginsDecimal_of_parts {i f e integer fraction : List UInt8}
    (whole : Run 10 extended i integer) (below : Point extended f fraction)
    (filled : integer ≠ [] ∨ fraction ≠ []) :
    beginsDecimal (i ++ (f ++ e)) = true ∧ beginsWith Byte.isSign (i ++ (f ++ e)) = false := by
  by_cases hinteger : integer = []
  · obtain rfl : i = [] := whole.eq_nil_iff.mpr hinteger
    cases below with
    | absent => exact absurd rfl (filled.resolve_left (absurd hinteger))
    | present digits filled =>
      have hbegins : beginsWith Byte.isDecimal (_ ++ e) = true :=
        digits.begins isBaseOf_ten filled e
      refine ⟨?_, rfl⟩
      simp [beginsDecimal, hbegins]
  · have hbegins : beginsWith Byte.isDecimal (i ++ (f ++ e)) = true :=
      whole.begins isBaseOf_ten hinteger _
    exact ⟨by simp [beginsDecimal, hbegins], not_beginsWith_isSign hbegins⟩

/-- **A decimal number is read back.** -/
theorem readDecimal?_literal {s i f e integer fraction exponent : List UInt8}
    {exponentNegative : Bool} (sign : Sign s negative) (whole : Run 10 extended i integer)
    (below : Point extended f fraction) (power : Power extended e exponentNegative exponent)
    (filled : integer ≠ [] ∨ fraction ≠ []) :
    readDecimal? extended (s ++ (i ++ (f ++ e))) =
      some (⟨10, negative, exponentNegative, integer, fraction, exponent⟩,
        (s ++ (i ++ (f ++ e))).length) := by
  obtain ⟨hbegins, hunsigned⟩ := beginsDecimal_of_parts (e := e) whole below filled
  have hsign := sign.read _ hunsigned
  have hinteger : digitRun Byte.isDecimal extended (i ++ (f ++ e)) = (integer, i.length) :=
    whole.read isBaseOf_ten (below.stops power.stops)
  have hfraction :
      readFraction extended ((i ++ (f ++ e)).drop i.length) = (fraction, f.length) := by
    rw [List.drop_left]
    exact below.read power
  have hexponent : readExponent extended ((i ++ (f ++ e)).drop (i.length + f.length)) =
      (exponent, exponentNegative, e.length) := by
    rw [← List.drop_drop, List.drop_left, List.drop_left]
    exact power.read
  have hlength : (s ++ (i ++ (f ++ e))).length = s.length + i.length + f.length + e.length := by
    simp only [List.length_append, Nat.add_assoc]
  have hdrop : i ++ (f ++ e) =
      (s ++ (i ++ (f ++ e))).drop (readSign (s ++ (i ++ (f ++ e)))).1 := by
    rw [hsign, List.drop_left]
  rw [readDecimal?_eq (i := i.length) (f := f.length) _ rfl hdrop (by rw [hinteger])
    (by rw [hfraction]), if_pos hbegins, hsign, hinteger, hfraction, hexponent]
  dsimp only
  rw [← hlength, List.drop_length]
  rfl

/-- A letter of a base, in either case. -/
def IsMark (b : UInt8) : Prop := ∃ letter ∈ [0x62, 0x6F, 0x78], Byte.isLetterOf letter b = true

/-- No byte of a decimal number is the letter of a base. -/
theorem not_isMark_of_mem {i f e integer fraction exponent : List UInt8} {exponentNegative : Bool}
    (whole : Run 10 extended i integer) (below : Point extended f fraction)
    (power : Power extended e exponentNegative exponent) : ∀ b ∈ i ++ (f ++ e), ¬ IsMark b := by
  have hplain : ∀ b : UInt8, Byte.isDecimal b = true ∨ b ∈ [Byte.underscore, Byte.dot, 0x65, 0x45,
      Byte.plus, Byte.hyphen] → ¬ IsMark b := by
    have hall : ∀ b : BitVec 8, Byte.isDecimal ⟨b⟩ = true ∨ ⟨b⟩ ∈ [Byte.underscore, Byte.dot, 0x65,
        0x45, Byte.plus, Byte.hyphen] →
        ∀ letter ∈ [0x62, 0x6F, 0x78], Byte.isLetterOf letter ⟨b⟩ = false := by
      decide +kernel
    -- the integer, then the fraction, then the exponent with its letter and its sign
    rintro b hb ⟨letter, hletter, hmark⟩
    rw [hall b.toBitVec hb letter hletter] at hmark
    cases hmark
  have hdigits : ∀ {bytes values : List UInt8}, Run 10 extended bytes values →
      ∀ b ∈ bytes, ¬ IsMark b := fun hrun b hb =>
    hplain b ((hrun.mem isBaseOf_ten b hb).imp_right fun h => by simp [h])
  intro b hb
  rcases List.mem_append.mp hb with hb | hb
  · exact hdigits whole b hb
  rcases List.mem_append.mp hb with hb | hb
  · cases below with
    | absent => cases hb
    | present digits =>
      rcases List.mem_cons.mp hb with rfl | hb
      · exact hplain _ (Or.inr (by simp))
      · exact hdigits digits b hb
  · cases power with
    | absent => cases hb
    | present marked sign digits =>
      rcases List.mem_cons.mp hb with rfl | hb
      · exact hplain _ (Or.inr (by rcases marked with rfl | rfl <;> simp))
      rcases List.mem_append.mp hb with hb | hb
      · cases sign with
        | absent => cases hb
        | plus =>
          obtain rfl := List.mem_singleton.mp hb
          exact hplain _ (Or.inr (by simp))
        | minus =>
          obtain rfl := List.mem_singleton.mp hb
          exact hplain _ (Or.inr (by simp))
      · exact hdigits digits b hb

/-- Without the letter of a base there is no prefixed number. -/
theorem readPrefixed?_eq_none (hletter : letter ∈ [0x62, 0x6F, 0x78])
    (h : ∀ b ∈ bytes.drop (readSign bytes).1, ¬ IsMark b) :
    readPrefixed? base letter bytes = none := by
  refine Option.eq_none_iff_forall_ne_some.mpr fun found hfound => ?_
  obtain ⟨numeral, n⟩ := found
  obtain ⟨lead, mark, rest, hdrop, hcond, -, -⟩ := readPrefixed?_eq_some.mp hfound
  simp only [Bool.and_eq_true] at hcond
  rw [hdrop] at h
  exact h mark (by simp) ⟨letter, hletter, hcond.1.2⟩

/-- **A prefixed number is read back**, behind the letter of its base. -/
theorem readPrefixed?_literal {s i integer : List UInt8} {mark : UInt8} (sign : Sign s negative)
    (hbase : IsBaseOf base) (hmark : Byte.isLetterOf mark letter = true)
    (whole : Run base true i integer) (filled : integer ≠ []) :
    readPrefixed? base mark (s ++ Byte.zero :: letter :: i) =
      some (⟨base, negative, false, integer, [], []⟩, (s ++ Byte.zero :: letter :: i).length) := by
  have hsign := sign.read (Byte.zero :: letter :: i) rfl
  have hrun := whole.read hbase (stops_nil _)
  have hbegins := whole.begins hbase filled []
  rw [List.append_nil] at hrun hbegins
  have hlength : (s ++ Byte.zero :: letter :: i).length = s.length + 2 + i.length := by
    simp only [List.length_append, List.length_cons]
    omega
  refine readPrefixed?_eq_some.mpr ⟨Byte.zero, letter, i, ?_, ?_, ?_, ?_⟩
  · rw [hsign, List.drop_left]
  · simp [hmark, hbegins]
  · rw [hsign, hrun]
  · rw [hsign, hrun, ← hlength, List.drop_length]
    rfl

/-- Behind a sign and a zero only the letter of its own base makes a prefixed number. -/
theorem readPrefixed?_of_letter {s i : List UInt8} {mark : UInt8} (sign : Sign s negative)
    (hmark : Byte.isLetterOf mark letter = false) :
    readPrefixed? base mark (s ++ Byte.zero :: letter :: i) = none := by
  refine Option.eq_none_iff_forall_ne_some.mpr fun found hfound => ?_
  obtain ⟨numeral, n⟩ := found
  obtain ⟨lead, other, rest, hdrop, hcond, -, -⟩ := readPrefixed?_eq_some.mp hfound
  rw [sign.read (Byte.zero :: letter :: i) rfl, List.drop_left] at hdrop
  obtain ⟨-, rfl, -⟩ : Byte.zero = lead ∧ letter = other ∧ i = rest := by simpa using hdrop
  simp only [Bool.and_eq_true, hmark] at hcond
  exact absurd hcond.1.2 Bool.false_ne_true

/-- **What is written out is read back**, and taken to its end. -/
theorem Literal.read?_eq {text : List UInt8} {numeral : Numeral}
    (h : Literal extended text numeral) : read? extended text = some (numeral, text.length) := by
  cases h with
  | @decimal s i f e _ _ _ _ _ sign whole below power filled =>
    have hread := readDecimal?_literal sign whole below power filled
    cases extended with
    | false => exact hread
    | true =>
      have hunsigned := (beginsDecimal_of_parts (e := e) whole below filled).2
      have hnone : ∀ base, ∀ letter ∈ [0x62, 0x6F, 0x78],
          readPrefixed? base letter (s ++ (i ++ (f ++ e))) = none := by
        refine fun base letter hletter => readPrefixed?_eq_none hletter ?_
        rw [sign.read _ hunsigned, List.drop_left]
        exact not_isMark_of_mem whole below power
      rw [read?_true, hnone 2 _ (by simp), hnone 8 _ (by simp), hnone 16 _ (by simp), hread]
      rfl
  | prefixed sign based whole filled allowed =>
    subst allowed
    rw [read?_true]
    -- the bases are tried in turn, and only the one that is named accepts
    cases based with
    | binary marked =>
      rw [readPrefixed?_literal sign (BaseLetter.binary marked).isBaseOf
        (by rcases marked with rfl | rfl <;> rfl) whole filled, Option.some_or]
    | octal marked =>
      rw [readPrefixed?_of_letter sign (by rcases marked with rfl | rfl <;> rfl), Option.none_or,
        readPrefixed?_literal sign (BaseLetter.octal marked).isBaseOf
          (by rcases marked with rfl | rfl <;> rfl) whole filled, Option.some_or]
    | hexadecimal marked =>
      rw [readPrefixed?_of_letter sign (by rcases marked with rfl | rfl <;> rfl), Option.none_or,
        readPrefixed?_of_letter sign (by rcases marked with rfl | rfl <;> rfl), Option.none_or,
        readPrefixed?_literal sign (BaseLetter.hexadecimal marked).isBaseOf
          (by rcases marked with rfl | rfl <;> rfl) whole filled, Option.some_or]

end Numeral
end StyleLex
