/-
# How numerals are written

The grammar of numerals, apart from the reader: a sign, digits, a fraction behind a dot and an
exponent behind its letter, or a zero, the letter of a base and digits (`Numeral.Shape`).
Separators may stand in the text of a numeral (`Numeral.Written`).

The reader takes one part after the other, and each part is the first bytes of what is left, but for
the separators among them (`Numeral.Covers`).  So what it reads is written as it says
(`Numeral.read?_written`).

The grammar is the specification, so it is written without the functions of the reader: digits are
pairs of a byte and what it stands for, parts are lists of bytes that are put together, and what may
be left out has a constructor of its own.  It is not asked that a numeral is the longest one.  That
a text has one reading only is not said either; the converse, that what the grammar allows is read,
is in `Proofs/Token/Literal`.

Separators are dealt with once and for all by taking them out.  Where they may stand between digits
is a matter of the reader; the grammar says only that they need an extended dialect.
-/
import Mathlib.Data.List.Forall2
import StyleLex.Proofs.Token.Numeral

namespace StyleLex

/-! ## 1. The grammar

From the digits of a base to the whole numeral.  Each part comes with what it stands for, which is
what the reader keeps of it. -/

/-- The byte is a digit of the base and stands for `value`. -/
def Byte.Denotes (base : Nat) (b value : UInt8) : Prop :=
  value.toNat < base ∧
    (value.toNat < 10 ∧ b.toNat = 0x30 + value.toNat ∨
      10 ≤ value.toNat ∧ (b.toNat + 10 = 0x41 + value.toNat ∨ b.toNat + 10 = 0x61 + value.toNat))

namespace Numeral

/-- Digits of a base, and what they stand for, in order. -/
def Digits (base : Nat) (bytes values : List UInt8) : Prop :=
  List.Forall₂ (Byte.Denotes base) bytes values

/-- A sign that may be left out, and whether it is a minus. -/
inductive Sign : List UInt8 → Bool → Prop where
  | absent : Sign [] false
  | plus : Sign [Byte.plus] false
  | minus : Sign [Byte.hyphen] true

/-- A fraction that may be left out.  Only in extended dialects may its digits be left out. -/
inductive Fraction (extended : Bool) : List UInt8 → List UInt8 → Prop where
  | absent : Fraction extended [] []
  | present {bytes values : List UInt8} (digits : Digits 10 bytes values)
      (bare : values = [] → extended = true) : Fraction extended (Byte.dot :: bytes) values

/-- An exponent that may be left out, whether it is negative, and its digits. -/
inductive Exponent : List UInt8 → Bool → List UInt8 → Prop where
  | absent : Exponent [] false []
  | present {letter : UInt8} {s bytes values : List UInt8} {negative : Bool}
      (marked : letter = 0x65 ∨ letter = 0x45) (sign : Sign s negative)
      (digits : Digits 10 bytes values) (filled : values ≠ []) :
      Exponent (letter :: (s ++ bytes)) negative values

/-- The letter of a base, in either case. -/
inductive BaseLetter : Nat → UInt8 → Prop where
  | binary {letter : UInt8} (marked : letter = 0x62 ∨ letter = 0x42) : BaseLetter 2 letter
  | octal {letter : UInt8} (marked : letter = 0x6F ∨ letter = 0x4F) : BaseLetter 8 letter
  | hexadecimal {letter : UInt8} (marked : letter = 0x78 ∨ letter = 0x58) : BaseLetter 16 letter

/-- The texts of numerals, without separators. -/
inductive Shape (extended : Bool) : List UInt8 → Numeral → Prop where
  | decimal {s i f e integer fraction exponent : List UInt8} {negative exponentNegative : Bool}
      (sign : Sign s negative) (whole : Digits 10 i integer)
      (below : Fraction extended f fraction) (power : Exponent e exponentNegative exponent)
      (filled : integer ≠ [] ∨ fraction ≠ []) :
      Shape extended (s ++ (i ++ (f ++ e)))
        ⟨10, negative, exponentNegative, integer, fraction, exponent⟩
  | prefixed {s i integer : List UInt8} {negative : Bool} {base : Nat} {letter : UInt8}
      (sign : Sign s negative) (based : BaseLetter base letter) (whole : Digits base i integer)
      (filled : integer ≠ []) (allowed : extended = true) :
      Shape extended (s ++ Byte.zero :: letter :: i) ⟨base, negative, false, integer, [], []⟩

/-- A text without its separators. -/
def unseparated (text : List UInt8) : List UInt8 := text.filter (· != Byte.underscore)

/-- `numeral.Written extended text`: the text spells the numeral. -/
structure Written (extended : Bool) (text : List UInt8) (numeral : Numeral) : Prop where
  shape : Shape extended (unseparated text) numeral
  negative : numeral.negative = true ↔ text.head? = some Byte.hyphen
  below : ∀ digit ∈ numeral.integer ++ numeral.fraction ++ numeral.exponent,
    digit.toNat < numeral.base
  separated : Byte.underscore ∈ text → extended = true

variable {extended : Bool} {base n m : Nat} {bytes values : List UInt8}

/-- What digits stand for is below their base. -/
theorem Digits.lt (h : Digits base bytes values) : ∀ digit ∈ values, digit.toNat < base := by
  intro digit hdigit
  induction h with
  | nil => cases hdigit
  | cons hfirst _ ih =>
    rcases List.mem_cons.mp hdigit with rfl | hrest
    · exact hfirst.1
    · exact ih hrest

/-- So it is in a fraction, whose base is ten. -/
theorem Fraction.lt (h : Fraction extended bytes values) : ∀ digit ∈ values, digit.toNat < 10 := by
  cases h with
  | absent => exact List.forall_mem_nil _
  | present digits => exact digits.lt

/-- So it is in an exponent. -/
theorem Exponent.lt {negative : Bool} (h : Exponent bytes negative values) :
    ∀ digit ∈ values, digit.toNat < 10 := by
  cases h with
  | absent => exact List.forall_mem_nil _
  | present marked sign digits => exact digits.lt

/-- Every digit is below the base. -/
theorem Shape.lt {numeral : Numeral} (h : Shape extended bytes numeral) :
    ∀ digit ∈ numeral.integer ++ numeral.fraction ++ numeral.exponent,
      digit.toNat < numeral.base := by
  cases h with
  | decimal sign whole below power filled =>
    intro digit hdigit
    rcases List.mem_append.mp hdigit with hdigit | hdigit
    · rcases List.mem_append.mp hdigit with hdigit | hdigit
      · exact whole.lt digit hdigit
      · exact below.lt digit hdigit
    · exact power.lt digit hdigit
  | prefixed sign based whole =>
    simpa only [List.append_nil] using whole.lt

/-! ## 2. Parts

`Covers` relates a length, as the reader counts it, to the part of the grammar that these bytes are
when separators are taken out. -/

/-- The first `n` bytes are `part`, but for separators. -/
def Covers (extended : Bool) (bytes : List UInt8) (n : Nat) (part : List UInt8) : Prop :=
  unseparated (bytes.take n) = part ∧ (Byte.underscore ∈ bytes.take n → extended = true)

/-- No bytes are no part. -/
theorem Covers.zero : Covers extended bytes 0 [] := ⟨rfl, nofun⟩

/-- One part after the other. -/
theorem Covers.append {part more : List UInt8} (h : Covers extended bytes n part)
    (hmore : Covers extended (bytes.drop n) m more) :
    Covers extended bytes (n + m) (part ++ more) := by
  rw [Covers, List.take_add]
  refine ⟨?_, fun hin => (List.mem_append.mp hin).elim h.2 hmore.2⟩
  rw [unseparated, List.filter_append]
  exact congr (congrArg _ h.1) hmore.1

/-- A byte that is no separator is part of the text. -/
theorem Covers.cons {b : UInt8} {part : List UInt8} (hb : b ≠ Byte.underscore)
    (h : Covers extended bytes n part) : Covers extended (b :: bytes) (n + 1) (b :: part) := by
  refine ⟨?_, fun hin => h.2 ?_⟩
  · rw [List.take_succ_cons, unseparated, List.filter_cons_of_pos (by simpa using hb)]
    exact congrArg _ h.1
  · rw [List.take_succ_cons] at hin
    exact (List.mem_cons.mp hin).resolve_left (Ne.symm hb)

/-- A separator is not, where it is allowed. -/
theorem Covers.separator {part : List UInt8} (allowed : extended = true)
    (h : Covers extended bytes n part) :
    Covers extended (Byte.underscore :: bytes) (n + 1) part :=
  ⟨by rw [List.take_succ_cons]; exact h.1, fun _ => allowed⟩

/-- Each byte of a class is a digit of the base, and no separator. -/
def IsBase (isDigit : UInt8 → Bool) (base : Nat) : Prop :=
  ∀ b, isDigit b = true → b ≠ Byte.underscore ∧ Byte.Denotes base b (Byte.digitValue b)

/-- The decimal digits are those of base ten. -/
theorem isBase_decimal : IsBase Byte.isDecimal 10 := by
  unfold IsBase Byte.Denotes
  rintro ⟨⟨b⟩⟩
  revert b
  decide +kernel

/-- The digits of a prefixed number are those of the base that its letter names. -/
theorem isBase_of_letter {letter : UInt8} (h : BaseLetter base letter) :
    IsBase (Byte.isDigitOf base) base := by
  unfold IsBase Byte.Denotes
  cases h <;>
  · rintro ⟨⟨b⟩⟩
    revert b
    -- one byte has 256 values, and all are tried
    decide +kernel

/-- Adding digits to digits, byte by byte. -/
theorem digitsOnto_covers {isDigit : UInt8 → Bool} (hbase : IsBase isDigit base) :
    ∀ (bytes : List UInt8) (digits : Array UInt8) (length : Nat), ∃ n part values,
      digitsOnto isDigit extended digits length bytes = (digits ++ values.toArray, length + n) ∧
        Covers extended bytes n part ∧ Digits base part values ∧
        (beginsWith isDigit bytes = true → values ≠ [])
  | [], digits, length => ⟨0, [], [], by simp [digitsOnto], .zero, List.Forall₂.nil, nofun⟩
  | b :: rest, digits, length => by
    rw [digitsOnto]
    split
    · rename_i hdigit
      obtain ⟨hb, hdenotes⟩ := hbase b hdigit
      obtain ⟨n, part, values, hrun, hcovers, hdigits, -⟩ :=
        digitsOnto_covers hbase rest (digits.push (Byte.digitValue b)) (length + 1)
      refine ⟨n + 1, b :: part, Byte.digitValue b :: values, ?_, hcovers.cons hb,
        List.Forall₂.cons hdenotes hdigits, fun _ => List.cons_ne_nil _ _⟩
      rw [hrun, Nat.add_assoc, Nat.add_comm 1 n]
      simp
    · rename_i hnone
      -- a separator is taken before a digit only, and adds nothing
      split
      · rename_i hseparator
        simp only [Bool.and_eq_true, beq_iff_eq] at hseparator
        obtain ⟨⟨allowed, rfl⟩, -⟩ := hseparator
        obtain ⟨n, part, values, hrun, hcovers, hdigits, -⟩ :=
          digitsOnto_covers hbase rest digits (length + 1)
        refine ⟨n + 1, part, values, ?_, hcovers.separator allowed, hdigits,
          fun h => absurd h hnone⟩
        rw [hrun, Nat.add_assoc, Nat.add_comm 1 n]
      · exact ⟨0, [], [], by simp, .zero, List.Forall₂.nil, fun h => absurd h hnone⟩

/-! ## 3. What is read

For each part of the reader, the part of the grammar that it takes (`…_covers`), and then the
numeral as the parts in their order. -/

/-- A run of digits; if a digit is ahead, it has one at least. -/
theorem digitRun_covers {isDigit : UInt8 → Bool} (hbase : IsBase isDigit base) (extended : Bool)
    (bytes : List UInt8) :
    ∃ part, Covers extended bytes (digitRun isDigit extended bytes).2 part ∧
      Digits base part (digitRun isDigit extended bytes).1 ∧
      (beginsWith isDigit bytes = true → (digitRun isDigit extended bytes).1 ≠ []) := by
  obtain ⟨n, part, values, hrun, (hcovers : Covers extended bytes n part), hdigits, hfilled⟩ :=
    digitsOnto_covers hbase bytes #[] 0
  have hrun : digitRun isDigit extended bytes = (values, n) := by
    rw [digitRun, hrun]
    simp
  rw [hrun]
  exact ⟨part, hcovers, hdigits, hfilled⟩

/-- A sign, or none. -/
theorem readSign_covers (extended : Bool) (bytes : List UInt8) :
    ∃ part, Covers extended bytes (readSign bytes).1 part ∧ Sign part (readSign bytes).2 := by
  cases bytes with
  | nil => exact ⟨[], .zero, .absent⟩
  | cons b rest =>
    rw [readSign]
    split
    · rename_i hsign
      rcases Bool.or_eq_true_iff.mp hsign with hplus | hminus
      · obtain rfl : b = Byte.plus := by simpa using hplus
        exact ⟨[Byte.plus], Covers.zero.cons (by decide), .plus⟩
      · obtain rfl : b = Byte.hyphen := by simpa using hminus
        exact ⟨[Byte.hyphen], Covers.zero.cons (by decide), .minus⟩
    · exact ⟨[], .zero, .absent⟩

/-- Whether the sign is a minus can be seen from the first byte. -/
theorem readSign_negative (bytes : List UInt8) :
    (readSign bytes).2 = true ↔ bytes.head? = some Byte.hyphen := by
  cases bytes with
  | nil => simp [readSign]
  | cons b rest =>
    rw [readSign]
    split
    · simp
    · rename_i hsign
      simp only [Byte.isSign, Bool.or_eq_true, beq_iff_eq, not_or] at hsign
      simp [hsign.2]

/-- Separators at the end add nothing. -/
theorem trailingLength_covers (extended : Bool) (bytes : List UInt8) :
    Covers extended bytes (trailingLength extended bytes) [] := by
  cases bytes with
  | nil => exact .zero
  | cons b rest =>
    rw [trailingLength]
    split
    · rename_i hseparator
      simp only [Bool.and_eq_true, beq_iff_eq] at hseparator
      obtain ⟨allowed, rfl⟩ := hseparator
      split
      · rename_i hsecond
        obtain ⟨tail, rfl⟩ : ∃ tail, rest = Byte.underscore :: tail := by
          cases rest with
          | nil => cases hsecond
          | cons c tail => exact ⟨tail, by simpa using hsecond⟩
        exact (Covers.zero.separator allowed).separator allowed
      · exact Covers.zero.separator allowed
    · exact .zero

/-- A fraction, or none; if a dot and a digit are ahead, it has a digit. -/
theorem readFraction_covers (extended : Bool) (bytes : List UInt8) :
    ∃ part, Covers extended bytes (readFraction extended bytes).2 part ∧
      Fraction extended part (readFraction extended bytes).1 ∧
      (bytes.head? = some Byte.dot → beginsWith Byte.isDecimal bytes.tail = true →
        (readFraction extended bytes).1 ≠ []) := by
  cases bytes with
  | nil => exact ⟨[], .zero, .absent, nofun⟩
  | cons b rest =>
    rw [readFraction]
    split
    · rename_i hdot
      simp only [Bool.and_eq_true, beq_iff_eq, Bool.or_eq_true] at hdot
      obtain ⟨rfl, hbegins⟩ := hdot
      obtain ⟨part, hcovers, hdigits, hfilled⟩ := digitRun_covers isBase_decimal extended rest
      refine ⟨Byte.dot :: part, hcovers.cons (by decide), .present hdigits fun hbare => ?_,
        fun _ hdigit => hfilled hdigit⟩
      exact hbegins.resolve_right fun hdigit => hfilled hdigit hbare
    · rename_i hnone
      refine ⟨[], .zero, .absent, fun hhead hdigit => absurd ?_ hnone⟩
      obtain rfl : b = Byte.dot := by simpa using hhead
      rw [show beginsWith Byte.isDecimal rest = true from hdigit]
      simp

/-- A letter stands for itself in lower and in upper case. -/
theorem isLetterOf_cases {lower : UInt8} (hlower : lower ∈ [0x62, 0x65, 0x6F, 0x78]) {b : UInt8}
    (h : Byte.isLetterOf lower b = true) :
    b ≠ Byte.underscore ∧ (b = lower ∨ b = lower - 0x20) := by
  have hall : ∀ lower ∈ [0x62, 0x65, 0x6F, 0x78], ∀ b : BitVec 8,
      Byte.isLetterOf lower ⟨b⟩ = true →
      (⟨b⟩ : UInt8) ≠ Byte.underscore ∧ ((⟨b⟩ : UInt8) = lower ∨ (⟨b⟩ : UInt8) = lower - 0x20) := by
    decide +kernel
  exact hall lower hlower b.toBitVec h

/-- An exponent, or none. -/
theorem readExponent_covers (extended : Bool) (bytes : List UInt8) :
    ∃ part, Covers extended bytes (readExponent extended bytes).2.2 part ∧
      Exponent part (readExponent extended bytes).2.1 (readExponent extended bytes).1 := by
  cases bytes with
  | nil => exact ⟨[], .zero, .absent⟩
  | cons letter rest =>
    rw [readExponent]
    split
    · rename_i hmark
      obtain ⟨hmark, hdigit⟩ := Bool.and_eq_true_iff.mp hmark
      obtain ⟨hne, hcase⟩ := isLetterOf_cases (by simp) hmark
      obtain ⟨sign, hsigned, hsign⟩ := readSign_covers extended rest
      obtain ⟨part, hcovers, hdigits, hfilled⟩ :=
        digitRun_covers isBase_decimal extended (rest.drop (readSign rest).1)
      refine ⟨letter :: (sign ++ part), ?_, .present hcase hsign hdigits (hfilled hdigit)⟩
      have hlength : (readSign rest).1 +
          (digitRun Byte.isDecimal extended (rest.drop (readSign rest).1)).2 + 1 = 1 +
            (readSign rest).1 +
              (digitRun Byte.isDecimal extended (rest.drop (readSign rest).1)).2 := by omega
      have hall := (hsigned.append hcovers).cons hne
      rw [hlength] at hall
      exact hall
    · exact ⟨[], .zero, .absent⟩

/-- A decimal number: sign, digits, fraction and exponent, and a digit before or behind the dot. -/
theorem readDecimal?_shape {numeral : Numeral}
    (h : readDecimal? extended bytes = some (numeral, n)) :
    ∃ part, Covers extended bytes n part ∧ Shape extended part numeral := by
  unfold readDecimal? at h
  dsimp only at h
  split at h
  · rename_i hbegins
    obtain ⟨s, hs, hsign⟩ := readSign_covers extended bytes
    generalize readSign bytes = sign at *
    obtain ⟨i, hi, hinteger, hfilled⟩ :=
      digitRun_covers isBase_decimal extended (bytes.drop sign.1)
    have hdot : (bytes.drop sign.1).head? = some Byte.dot →
        beginsWith Byte.isDecimal (bytes.drop sign.1).tail = true →
        (digitRun Byte.isDecimal extended (bytes.drop sign.1)).2 = 0 :=
      fun hhead hdigit => (readFraction_of_dot extended hhead hdigit).1
    generalize digitRun Byte.isDecimal extended (bytes.drop sign.1) = integer at *
    obtain ⟨f, hf, hfraction, hfilled'⟩ :=
      readFraction_covers extended ((bytes.drop sign.1).drop integer.2)
    -- it begins with a digit, or with a dot before one, so one of the two parts has a digit
    have hsome : integer.1 ≠ [] ∨
        (readFraction extended ((bytes.drop sign.1).drop integer.2)).1 ≠ [] := by
      rcases Bool.or_eq_true_iff.mp hbegins with hdigit | hpoint
      · exact Or.inl (hfilled hdigit)
      · simp only [Bool.and_eq_true, beq_iff_eq] at hpoint
        rw [hdot hpoint.1 hpoint.2] at hfilled' ⊢
        exact Or.inr (hfilled' hpoint.1 hpoint.2)
    generalize readFraction extended ((bytes.drop sign.1).drop integer.2) = fraction at *
    obtain ⟨e, he, hexponent⟩ :=
      readExponent_covers extended ((bytes.drop sign.1).drop (integer.2 + fraction.2))
    generalize readExponent extended ((bytes.drop sign.1).drop (integer.2 + fraction.2)) =
      exponent at *
    cases h
    refine ⟨s ++ (i ++ (f ++ e)), ?_, .decimal hsign hinteger hfraction hexponent hsome⟩
    rw [← List.drop_drop] at he
    have hall := hs.append (hi.append (hf.append he))
    have htrail := hall.append (trailingLength_covers extended _)
    rw [List.append_nil] at htrail
    simpa only [Nat.add_assoc] using htrail
  · cases h

/-- A prefixed number: sign, prefix and digits, and perhaps separators. -/
theorem readPrefixed?_shape {mark : UInt8} {numeral : Numeral}
    (hletter : ∀ b, Byte.isLetterOf mark b = true → b ≠ Byte.underscore ∧ BaseLetter base b)
    (h : readPrefixed? base mark bytes = some (numeral, n)) :
    ∃ part, Covers true bytes n part ∧ Shape true part numeral := by
  obtain ⟨lead, letter, rest, hdrop, hcond, rfl, rfl⟩ := readPrefixed?_eq_some.mp h
  simp only [Bool.and_eq_true, beq_iff_eq] at hcond
  obtain ⟨⟨rfl, hmark⟩, hdigit⟩ := hcond
  obtain ⟨hne, hbased⟩ := hletter letter hmark
  obtain ⟨s, hs, hsign⟩ := readSign_covers true bytes
  obtain ⟨i, hi, hinteger, hfilled⟩ := digitRun_covers (isBase_of_letter hbased) true rest
  refine ⟨s ++ Byte.zero :: letter :: i, ?_,
    .prefixed hsign hbased hinteger (hfilled hdigit) rfl⟩
  have hbody : Covers true (bytes.drop (readSign bytes).1)
      ((digitRun (Byte.isDigitOf base) true rest).2 + 1 + 1) (Byte.zero :: letter :: i) := by
    rw [hdrop]
    exact (hi.cons hne).cons (by decide)
  have htrail := (hs.append hbody).append (trailingLength_covers true _)
  rw [List.append_nil] at htrail
  have hlength : (readSign bytes).1 + ((digitRun (Byte.isDigitOf base) true rest).2 + 1 + 1) =
      (readSign bytes).1 + 2 + (digitRun (Byte.isDigitOf base) true rest).2 := by omega
  rw [hlength] at htrail
  exact htrail

/-- A numeral is one of the two. -/
theorem read?_shape {numeral : Numeral} (h : read? extended bytes = some (numeral, n)) :
    ∃ part, Covers extended bytes n part ∧ Shape extended part numeral := by
  cases extended with
  | false => exact readDecimal?_shape h
  | true =>
    rw [read?_true] at h
    rcases Option.or_eq_some_iff.mp h with h | ⟨-, h⟩
    · exact readPrefixed?_shape
        (fun b hb => (isLetterOf_cases (by simp) hb).imp_right .binary) h
    · rcases Option.or_eq_some_iff.mp h with h | ⟨-, h⟩
      · exact readPrefixed?_shape
          (fun b hb => (isLetterOf_cases (by simp) hb).imp_right .octal) h
      · rcases Option.or_eq_some_iff.mp h with h | ⟨-, h⟩
        · exact readPrefixed?_shape
            (fun b hb => (isLetterOf_cases (by simp) hb).imp_right .hexadecimal) h
        · exact readDecimal?_shape h

/-- Whichever it is, its sign was read first. -/
theorem read?_negative {numeral : Numeral} (h : read? extended bytes = some (numeral, n)) :
    numeral.negative = (readSign bytes).2 := by
  have hdecimal : ∀ {extended : Bool}, readDecimal? extended bytes = some (numeral, n) →
      numeral.negative = (readSign bytes).2 := by
    intro extended h
    unfold readDecimal? at h
    dsimp only at h
    split at h
    · cases h
      rfl
    · cases h
  have hprefixed : ∀ {base : Nat} {letter : UInt8},
      readPrefixed? base letter bytes = some (numeral, n) →
      numeral.negative = (readSign bytes).2 := by
    intro base letter h
    obtain ⟨-, -, -, -, -, rfl, -⟩ := readPrefixed?_eq_some.mp h
    rfl
  cases extended with
  | false => exact hdecimal h
  | true =>
    rw [read?_true] at h
    rcases Option.or_eq_some_iff.mp h with h | ⟨-, h⟩
    · exact hprefixed h
    · rcases Option.or_eq_some_iff.mp h with h | ⟨-, h⟩
      · exact hprefixed h
      · rcases Option.or_eq_some_iff.mp h with h | ⟨-, h⟩
        · exact hprefixed h
        · exact hdecimal h

/-- **What is read as a numeral is written as one.** -/
theorem read?_written {numeral : Numeral} (h : read? extended bytes = some (numeral, n)) :
    numeral.Written extended (bytes.take n) := by
  obtain ⟨part, ⟨rfl, hseparated⟩, hshape⟩ := read?_shape h
  refine ⟨hshape, ?_, hshape.lt, hseparated⟩
  obtain ⟨k, rfl⟩ := Nat.exists_eq_add_of_lt (read?_pos h)
  rw [read?_negative h, readSign_negative]
  cases bytes with
  | nil => simp
  | cons b rest => simp

end Numeral
end StyleLex
