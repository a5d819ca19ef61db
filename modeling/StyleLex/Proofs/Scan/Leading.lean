/-
# The bytes that leaves and branches are read of

A leaf that does not grow begins with an ASCII byte of some class, and so does a branch that is no
identifier, or else it is a string in backticks (`Leaf.Takes.exists_head`,
`Branch.Begins.exists_head`).  So none of them begins with a byte that is odd.

But for the character that a backslash escapes, such leaves are ASCII throughout
(`Leaf.Takes.ascii`), and every opener is (`Branch.Begins.opener_ascii`).

These are facts about readings, with no scan in them, and they are collected from the classes of
bytes that the readings ask for.  They serve two results about finished trees: that no node begins
or ends within a character, for which ASCII is enough, and that unexpected bytes are apart from
everything else, for which the first byte of every other node must not be odd.
-/
import Mathlib.Data.List.TakeWhile
import StyleLex.Proofs.Scan.Beginnings
import StyleLex.Proofs.Scan.Leftovers
import StyleLex.Proofs.Token.Spelled

namespace StyleLex

/-! ## 1. Classes

Most classes are contained in a few larger ones, and the larger ones are all that the rest of the
module speaks of.  Facts about single bytes are decided for all of them. -/

namespace Byte

/-- The bytes that numerals are written with. -/
def isNumeral (b : UInt8) : Bool :=
  isAlphanumeric b || isSign b || b == dot || b == underscore

/-- The classes that a branch may begin with. -/
def opens (b : UInt8) : Bool := isNumeral b || isOperator b || isQuote b || isOpener b

/-- The classes that a leaf or a branch may begin with. -/
def leads (b : UInt8) : Bool := opens b || isSeparator b || isBlank b || b == backslash

/-- The bytes that an escape of a code point is spelled with, but for a literal one. -/
def spells (b : UInt8) : Bool :=
  isAlphanumeric b || b == backslash || b == leftBrace || b == rightBrace

/-- **A byte that leads is ASCII and not odd.** -/
theorem of_leads {b : UInt8} (h : leads b = true) : b < 0x80 ∧ isOdd b = false := by
  obtain ⟨⟨b⟩⟩ := b
  revert b
  decide +kernel

/-- What a branch begins with, an item begins with. -/
theorem leads_of_opens {b : UInt8} (h : opens b = true) : leads b = true := by simp [leads, h]

/-- No branch begins with a line break. -/
theorem not_newline_of_opens {b : UInt8} (h : opens b = true) : isNewline b = false := by
  obtain ⟨⟨b⟩⟩ := b
  revert b
  decide +kernel

/-- An escape is spelled in ASCII, on one line. -/
theorem of_spells {b : UInt8} (h : spells b = true) : b < 0x80 ∧ isNewline b = false := by
  obtain ⟨⟨b⟩⟩ := b
  revert b
  decide +kernel

/-- Numerals are written in ASCII. -/
theorem ascii_of_isNumeral {b : UInt8} (h : isNumeral b = true) : b < 0x80 :=
  (of_leads (by simp [leads, opens, h])).1

/-- Blanks are ASCII. -/
theorem ascii_of_isBlank {b : UInt8} (h : isBlank b = true) : b < 0x80 :=
  (of_leads (by simp [leads, h])).1

/-- Hexadecimal digits spell escapes. -/
theorem spells_of_isHexadecimal {b : UInt8} (h : isHexadecimal b = true) : spells b = true := by
  grind [isHexadecimal, isDecimal, spells, isAlphanumeric, isLetter, isUppercase, isLowercase]

/-- So do decimal ones. -/
theorem spells_of_isDecimal {b : UInt8} (h : isDecimal b = true) : spells b = true :=
  spells_of_isHexadecimal (by simp [isHexadecimal, h])

/-- The letters of `url`, in either case. -/
theorem isNumeral_of_isLetterOf {letter b : UInt8} (hletter : letter ∈ [0x75, 0x72, 0x6C])
    (h : isLetterOf letter b = true) : isNumeral b = true := by
  have hall : ∀ letter ∈ [0x75, 0x72, 0x6C], ∀ b : BitVec 8,
      isLetterOf letter ⟨b⟩ = true → isNumeral ⟨b⟩ = true := by
    decide +kernel
  exact hall letter hletter b.toBitVec h

/-! Bytes that are ASCII one by one. -/

theorem ascii_of_all {bytes : List UInt8} (h : (bytes.all fun b => b < 0x80) = true) :
    ∀ b ∈ bytes, b < 0x80 := fun b hb => of_decide_eq_true (List.all_eq_true.mp h b hb)

theorem ascii_take_one {rest : List UInt8} {b : UInt8} (h : rest.head? = some b) (hb : b < 0x80) :
    ∀ c ∈ rest.take 1, c < 0x80 := by
  obtain ⟨tail, rfl⟩ := List.head?_eq_some_iff.mp h
  simpa using hb

theorem ascii_take_two {rest : List UInt8} {a b : UInt8} (h : [a, b] <+: rest) (ha : a < 0x80)
    (hb : b < 0x80) : ∀ c ∈ rest.take 2, c < 0x80 := by
  obtain ⟨tail, rfl⟩ := h
  simpa using ⟨ha, hb⟩

/-- A run is ASCII if its class is. -/
theorem ascii_of_run (p : UInt8 → Bool) (hp : ∀ b, p b = true → b < 0x80) (rest : List UInt8) :
    ∀ b ∈ rest.take (rest.takeWhile p).length, b < 0x80 := by
  intro b hb
  rw [Escape.takeWhile_eq_take] at hb
  exact hp b (List.mem_takeWhile_imp hb)

/-- No name begins with an odd byte. -/
theorem not_odd_of_isNameStart {b : UInt8} (h : isNameStart b = true) : isOdd b = false := by
  refine Bool.eq_false_iff.mpr fun hodd => ?_
  rcases isOdd_cases hodd with hlow | rfl | rfl | rfl | rfl | rfl
  · grind [isNameStart, isLetter, isUppercase, isLowercase, isNonAscii]
  all_goals cases h

/-- Digits are decimal digits or letters. -/
theorem Denotes.isNumeral {base : Nat} {b value : UInt8} (hbase : base ≤ 16)
    (h : Denotes base b value) : isNumeral b = true := by
  have hdigit : isDigitOf 16 b = true :=
    (Name.digit_of_denotes ⟨Nat.lt_of_lt_of_le h.1 hbase, h.2⟩).1
  grind [isDigitOf, isHexadecimal, isNumeral, isAlphanumeric, isLetter, isUppercase, isLowercase]

end Byte

/-! ## 2. Numerals

A numeral is taken apart as its grammar has it (`Shape`), and every part is written with digits,
letters, signs, dots and underscores. -/

namespace Numeral

variable {extended : Bool} {base : Nat} {bytes values : List UInt8} {negative : Bool}

/-- Digits of any base that numerals have. -/
theorem Digits.all_isNumeral (hbase : base ≤ 16) (h : Digits base bytes values) :
    ∀ b ∈ bytes, Byte.isNumeral b = true := by
  induction h with
  | nil => exact List.forall_mem_nil _
  | cons hfirst _ ih => exact List.forall_mem_cons.mpr ⟨hfirst.isNumeral hbase, ih⟩

/-- A sign, if there is one. -/
theorem Sign.all_isNumeral (h : Sign bytes negative) : ∀ b ∈ bytes, Byte.isNumeral b = true := by
  cases h with
  | absent => exact List.forall_mem_nil _
  | plus | minus => exact List.forall_mem_singleton.mpr (by decide)

/-- A dot and digits, or nothing. -/
theorem Fraction.all_isNumeral (h : Fraction extended bytes values) :
    ∀ b ∈ bytes, Byte.isNumeral b = true := by
  cases h with
  | absent => exact List.forall_mem_nil _
  | present digits => exact List.forall_mem_cons.mpr ⟨by decide, digits.all_isNumeral (by decide)⟩

/-- A letter, a sign and digits. -/
theorem Exponent.all_isNumeral (h : Exponent bytes negative values) :
    ∀ b ∈ bytes, Byte.isNumeral b = true := by
  cases h with
  | absent => exact List.forall_mem_nil _
  | present marked sign digits =>
    refine List.forall_mem_cons.mpr ⟨by rcases marked with rfl | rfl <;> decide, ?_⟩
    exact List.forall_mem_append.mpr ⟨sign.all_isNumeral, digits.all_isNumeral (by decide)⟩

/-- All parts together, in each of the shapes. -/
theorem Shape.all_isNumeral {numeral : Numeral} (h : Shape extended bytes numeral) :
    ∀ b ∈ bytes, Byte.isNumeral b = true := by
  cases h with
  | decimal sign whole below power =>
    have htail := List.forall_mem_append.mpr ⟨below.all_isNumeral, power.all_isNumeral⟩
    exact List.forall_mem_append.mpr ⟨sign.all_isNumeral,
      List.forall_mem_append.mpr ⟨whole.all_isNumeral (by decide), htail⟩⟩
  | prefixed sign based whole =>
    refine List.forall_mem_append.mpr ⟨sign.all_isNumeral, List.forall_mem_cons.mpr ⟨by decide,
      List.forall_mem_cons.mpr ⟨?_, whole.all_isNumeral (by cases based <;> decide)⟩⟩⟩
    cases based with
    | binary marked | octal marked | hexadecimal marked =>
      rcases marked with rfl | rfl <;> decide

/-- **A numeral is written with the bytes of numerals.** -/
theorem bytes_of_read? {numeral : Numeral} {n : Nat}
    (h : read? extended bytes = some (numeral, n)) :
    ∀ b ∈ bytes.take n, Byte.isNumeral b = true := by
  intro b hb
  by_cases hseparator : b = Byte.underscore
  · subst hseparator
    rfl
  · refine (read?_written h).shape.all_isNumeral b ?_
    exact List.mem_filter.mpr ⟨hb, by simpa using hseparator⟩

end Numeral

/-! ## 3. Escapes

Of the three ways in which an escape is read, two are spelled in ASCII and end with ASCII.  The
third takes a whole character, whatever it is. -/

/-- The letters of named escapes spell escapes. -/
theorem Byte.spells_of_named? {b : UInt8} {codepoint : Nat}
    (h : Escape.named? b = some codepoint) : spells b = true := by
  have hsome : (Escape.named? b).isSome = true := by rw [h]; rfl
  clear h
  obtain ⟨⟨b⟩⟩ := b
  revert b
  decide +kernel

namespace Escape

variable {dialect : Dialect} {rest tail : List UInt8} {reading : Reading} {n : Nat}

/-- An escape begins with a backslash, and is read in one of three ways. -/
theorem exists_backslash (h : read? dialect rest = some reading) :
    ∃ tail, rest = Byte.backslash :: tail ∧
      (readExtended? tail = some reading ∨ readStandard? tail = some reading ∨
        readLiteral? tail = some reading) := by
  have hbegins : begins rest = true := by
    rw [← isSome_read? dialect, h]
    rfl
  obtain ⟨next, further, rfl, -⟩ := begins_iff.mp hbegins
  refine ⟨next :: further, rfl, ?_⟩
  rw [read?_eq] at h
  rcases Option.or_eq_some_iff.mp h with h | ⟨-, h⟩
  · split at h
    · exact Or.inl h
    · cases h
  · rcases Option.or_eq_some_iff.mp h with h | ⟨-, h⟩
    · split at h
      · exact Or.inr (Or.inl h)
      · cases h
    · exact Or.inr (Or.inr h)

/-- So do digits, if as many as needed are there. -/
theorem spells_of_fixedHex? {count codepoint : Nat} (h : fixedHex? count rest = some codepoint) :
    ∀ b ∈ rest.take count, Byte.spells b = true := by
  rw [fixedHex?] at h
  split at h
  · rename_i hdigits
    intro b hb
    exact Byte.spells_of_isHexadecimal
      (List.all_eq_true.mp (Bool.and_eq_true_iff.mp hdigits).2 b hb)
  · cases h

/-- Line breaks are ASCII. -/
theorem ascii_of_newlineLength? (h : newlineLength? rest = some n) :
    ∀ b ∈ rest.take n, b < 0x80 := by
  cases rest with
  | nil => cases h
  | cons b tail =>
    rw [newlineLength?] at h
    split at h
    · rename_i hreturn
      simp only [Bool.and_eq_true, beq_iff_eq] at hreturn
      obtain ⟨rfl, hfeed⟩ := hreturn
      obtain ⟨further, rfl⟩ := List.head?_eq_some_iff.mp hfeed
      cases h
      exact Byte.ascii_take_two ⟨further, rfl⟩ (by decide) (by decide)
    · split at h
      · rename_i hnewline
        cases h
        exact Byte.ascii_take_one rfl (Byte.ascii_of_isBlank (by simp [Byte.isBlank, hnewline]))
      · cases h

/-- So is what ends the digits of an escape. -/
theorem ascii_of_terminatorLength (rest : List UInt8) :
    ∀ b ∈ rest.take (terminatorLength rest), b < 0x80 := by
  cases rest with
  | nil => exact List.forall_mem_nil _
  | cons b tail =>
    rw [terminatorLength]
    split
    · rename_i hreturn
      simp only [Bool.and_eq_true, beq_iff_eq] at hreturn
      obtain ⟨rfl, hfeed⟩ := hreturn
      obtain ⟨further, rfl⟩ := List.head?_eq_some_iff.mp hfeed
      exact Byte.ascii_take_two ⟨further, rfl⟩ (by decide) (by decide)
    · split
      · rename_i hblank
        exact Byte.ascii_take_one rfl (Byte.ascii_of_isBlank (by simp [Byte.isBlank, hblank]))
      · exact List.forall_mem_nil _

/-- **How an extended escape is spelled.** -/
theorem Extended.spells (h : Extended tail reading) :
    ∀ b ∈ (Byte.backslash :: tail).take reading.length, Byte.spells b = true := by
  cases h with
  | named name =>
    simp only [List.take_succ_cons, List.take_zero, List.forall_mem_cons]
    exact ⟨by decide, Byte.spells_of_named? name, List.forall_mem_nil _⟩
  | byte digits =>
    simp only [List.take_succ_cons, List.forall_mem_cons]
    exact ⟨by decide, by decide, spells_of_fixedHex? digits⟩
  | word digits =>
    simp only [List.take_succ_cons, List.forall_mem_cons]
    exact ⟨by decide, by decide, spells_of_fixedHex? digits⟩
  | @braced digits =>
    have hlength : (readBraced digits).length =
        (digits.takeWhile Byte.isHexadecimal).length +
          (if (digits.drop (digits.takeWhile Byte.isHexadecimal).length).head? ==
            some Byte.rightBrace then 1 else 0) + 1 + 1 + 1 := by
      simp only [readBraced]
      omega
    rw [hlength]
    simp only [List.take_succ_cons, List.forall_mem_cons, List.take_add, List.forall_mem_append]
    refine ⟨by decide, by decide, by decide, fun b hb => ?_, ?_⟩
    · rw [takeWhile_eq_take] at hb
      exact Byte.spells_of_isHexadecimal (List.mem_takeWhile_imp hb)
    · split
      · rename_i hclosed
        obtain ⟨more, hmore⟩ := List.head?_eq_some_iff.mp (beq_iff_eq.mp hclosed)
        rw [hmore]
        simp [Byte.spells]
      · exact List.forall_mem_nil _
  | digit decimal =>
    simp only [List.take_succ_cons, List.take_zero, List.forall_mem_cons]
    exact ⟨by decide, by decide, Byte.spells_of_isDecimal decimal, List.forall_mem_nil _⟩

/-- **A standard escape** is digits and what ends them. -/
theorem exists_digits (h : readStandard? tail = some reading) :
    ∃ digits more, tail = digits ++ more ∧ (∀ b ∈ digits, Byte.spells b = true) ∧
      reading.length = 1 + digits.length + terminatorLength more := by
  unfold readStandard? at h
  generalize hrun : (tail.take 6).takeWhile Byte.isHexadecimal = digits at h
  obtain ⟨more, rfl⟩ : digits <+: tail :=
    hrun ▸ (List.takeWhile_prefix _).trans (List.take_prefix 6 tail)
  have hdigits : ∀ b ∈ digits, Byte.spells b = true := fun b hb =>
    Byte.spells_of_isHexadecimal (List.mem_takeWhile_imp (hrun ▸ hb))
  split at h
  · cases h
  · cases h
    exact ⟨_, more, rfl, hdigits, by rw [List.drop_left]⟩

/-- So a standard escape is. -/
theorem ascii_of_readStandard? (h : readStandard? tail = some reading) :
    ∀ b ∈ (Byte.backslash :: tail).take reading.length, b < 0x80 := by
  obtain ⟨digits, more, rfl, hdigits, hlength⟩ := exists_digits h
  rw [hlength, Nat.add_comm 1, Nat.add_right_comm, List.take_succ_cons, List.take_length_add_append,
    List.forall_mem_cons, List.forall_mem_append]
  exact ⟨by decide, fun b hb => (Byte.of_spells (hdigits b hb)).1, ascii_of_terminatorLength _⟩

/-- And so is a line continuation. -/
theorem ascii_of_continuationLength? (h : continuationLength? rest = some n) :
    ∀ b ∈ rest.take n, b < 0x80 := by
  cases rest with
  | nil => cases h
  | cons b tail =>
    rw [continuationLength?] at h
    split at h
    · rename_i hb
      obtain rfl : b = Byte.backslash := beq_iff_eq.mp (Bool.and_eq_true_iff.mp hb).1
      cases h
      rw [Nat.add_comm, List.take_succ_cons, List.forall_mem_cons]
      refine ⟨by decide, ?_⟩
      cases hline : newlineLength? tail with
      | none => exact List.forall_mem_nil _
      | some n => exact ascii_of_newlineLength? hline
    · cases h

end Escape

/-! ## 4. Leaves

By cases on what the leaf was read of. -/

namespace Leaf.Takes

variable {dialect : Dialect} {leaf : Leaf} {rest : List UInt8} {n : Nat}

/-- **A leaf that does not grow begins with a byte that leads.** -/
theorem exists_head (h : leaf.Takes dialect rest n) (hgrows : (Kind.leaf leaf).grows = false) :
    ∃ b, rest.head? = some b ∧ Byte.leads b = true := by
  cases h with
  | numeric read =>
    cases rest with
    | nil =>
      rw [Numeral.read?_nil] at read
      cases read
    | cons b tail =>
      obtain ⟨k, rfl⟩ := Nat.exists_eq_succ_of_ne_zero (Nat.ne_of_gt (Numeral.read?_pos read))
      refine ⟨b, rfl, ?_⟩
      simp [Byte.leads, Byte.opens, Numeral.bytes_of_read? read b List.mem_cons_self]
  | separator ahead separates => exact ⟨_, ahead, by simp [Byte.leads, separates]⟩
  | operator ahead operates => exact ⟨_, ahead, by simp [Byte.leads, Byte.opens, operates]⟩
  | blank ahead =>
    obtain ⟨b, run, hrun⟩ := List.exists_cons_of_ne_nil ahead
    obtain ⟨tail, rfl, hblank⟩ := Scan.takeWhile_ahead hrun
    exact ⟨b, rfl, by simp [Byte.leads, hblank]⟩
  | @cdx marker enabled ahead =>
    obtain ⟨tail, rfl⟩ := ahead
    cases marker with
    | opening => exact ⟨0x3C, rfl, by decide⟩
    | closing => exact ⟨0x2D, rfl, by decide⟩
  | escape read =>
    obtain ⟨tail, rfl, -⟩ := Escape.exists_backslash read
    exact ⟨_, rfl, by decide⟩
  | continuation read =>
    cases rest with
    | nil => cases read
    | cons b tail =>
      rw [Escape.continuationLength?] at read
      split at read
      · rename_i hb
        obtain rfl : b = Byte.backslash := beq_iff_eq.mp (Bool.and_eq_true_iff.mp hb).1
        exact ⟨_, rfl, by decide⟩
      · cases read
  | raw => cases hgrows
  | unexpected => cases hgrows

/-- **A leaf that does not grow is ASCII**, but for a character that a backslash escapes. -/
theorem ascii (h : leaf.Takes dialect rest n) (hgrows : (Kind.leaf leaf).grows = false) :
    (∀ b ∈ rest.take n, b < 0x80) ∨
      ∃ tail reading, rest = Byte.backslash :: tail ∧ n = reading.length ∧
        Escape.readLiteral? tail = some reading := by
  cases h with
  | numeric read =>
    exact Or.inl fun b hb => Byte.ascii_of_isNumeral (Numeral.bytes_of_read? read b hb)
  | separator ahead separates =>
    exact Or.inl (Byte.ascii_take_one ahead (Byte.of_leads (by simp [Byte.leads, separates])).1)
  | operator ahead operates =>
    exact Or.inl (Byte.ascii_take_one ahead
      (Byte.of_leads (by simp [Byte.leads, Byte.opens, operates])).1)
  | blank => exact Or.inl (Byte.ascii_of_run _ (fun _ => Byte.ascii_of_isBlank) rest)
  | @cdx marker enabled ahead =>
    refine Or.inl ?_
    rw [← List.prefix_iff_eq_take.mp ahead]
    exact Byte.ascii_of_all (by cases marker <;> decide)
  | escape read =>
    obtain ⟨tail, rfl, hextended | hstandard | hliteral⟩ := Escape.exists_backslash read
    · exact Or.inl fun b hb =>
        (Byte.of_spells ((Escape.extended_of_readExtended? hextended).spells b hb)).1
    · exact Or.inl (Escape.ascii_of_readStandard? hstandard)
    · exact Or.inr ⟨tail, _, rfl, rfl, hliteral⟩
  | continuation read => exact Or.inl (Escape.ascii_of_continuationLength? read)
  | raw => cases hgrows
  | unexpected => cases hgrows

end Leaf.Takes

/-! ## 5. Branches

By cases on the branch, with what stands where it begins. -/

namespace Scan

variable {ahead : List UInt8}

/-- A pattern begins with an operator or with a bracket. -/
theorem Spells.exists_head (h : Spells ahead) :
    ∃ b, ahead.head? = some b ∧ Byte.opens b = true := by
  rcases h.cases with ⟨b, tail, rfl, hoperator, -⟩ | ⟨bracket, tail, rfl⟩
  · exact ⟨b, rfl, by simp [Byte.opens, hoperator]⟩
  · exact ⟨bracket.opener, rfl, by cases bracket <;> decide⟩

/-- The name of an address is three letters, and its parenthesis follows. -/
theorem letters_of_beginsUrl (h : beginsUrl ahead = true) : ∃ u r l tail,
    ahead = u :: r :: l :: Byte.leftParenthesis :: tail ∧
      Byte.isNumeral u = true ∧ Byte.isNumeral r = true ∧ Byte.isNumeral l = true := by
  match ahead, h with
  | u :: r :: l :: parenthesis :: tail, h =>
    rw [beginsUrl, Bool.and_eq_true, Bool.and_eq_true, Bool.and_eq_true, beq_iff_eq] at h
    obtain ⟨⟨⟨hu, hr⟩, hl⟩, rfl⟩ := h
    exact ⟨u, r, l, tail, rfl, Byte.isNumeral_of_isLetterOf (by simp) hu,
      Byte.isNumeral_of_isLetterOf (by simp) hr, Byte.isNumeral_of_isLetterOf (by simp) hl⟩

/-- An identifier begins with a byte that names begin with, or with a backslash. -/
theorem not_odd_of_beginsIdentifier (h : beginsIdentifier ahead = true) :
    ∃ b, ahead.head? = some b ∧ Byte.isOdd b = false := by
  cases ahead with
  | nil => cases h
  | cons b tail =>
    refine ⟨b, rfl, ?_⟩
    rw [beginsIdentifier] at h
    split at h
    · rename_i hhyphen
      rw [beq_iff_eq.mp hhyphen]
      decide
    · rcases Bool.or_eq_true_iff.mp h with hstart | hescape
      · exact Byte.not_odd_of_isNameStart hstart
      · obtain ⟨next, further, heq, -⟩ := Escape.begins_iff.mp hescape
        obtain ⟨rfl, -⟩ := List.cons.inj heq
        decide

end Scan

namespace Branch.Begins

variable {dialect : Dialect} {branch : Branch} {ahead : List UInt8}

/-- **A branch that is no identifier begins with a byte that opens**, or with a backtick. -/
theorem exists_head (h : branch.Begins dialect ahead)
    (hother : ∀ value, branch ≠ .identifier value) :
    ∃ b, ahead.head? = some b ∧
      (Byte.opens b = true ∨ b = Byte.backtick ∧ dialect.extendedStrings = true) := by
  cases branch with
  | root => exact h.elim
  | group bracket => exact ⟨_, h, Or.inl (by cases bracket <;> decide)⟩
  | quoted quote =>
    refine ⟨_, h.1, ?_⟩
    cases quote with
    | backtick => exact Or.inr ⟨rfl, h.2 rfl⟩
    | _ => exact Or.inl (by decide)
  | url =>
    obtain ⟨u, r, l, tail, rfl, hu, -⟩ := Scan.letters_of_beginsUrl h
    exact ⟨u, rfl, Or.inl (by simp [Byte.opens, hu])⟩
  | comment form =>
    cases form with
    | block | line =>
      obtain ⟨tail, rfl⟩ := h
      exact ⟨_, rfl, Or.inl (by decide)⟩
  | quasi | annotation =>
    obtain ⟨b, hb, hopens⟩ := Scan.Spells.exists_head h
    exact ⟨b, hb, Or.inl hopens⟩
  | identifier value => exact absurd rfl (hother value)
  | hash hash => exact ⟨_, h, Or.inl (by decide)⟩

/-- A branch that is no name begins with an ASCII byte. -/
theorem head_ascii (h : branch.Begins dialect ahead) (hname : branch.isName = false) :
    ∃ b, ahead.head? = some b ∧ b < 0x80 := by
  obtain ⟨b, hb, hopens | ⟨rfl, -⟩⟩ := h.exists_head (by rintro value rfl; cases hname)
  · exact ⟨b, hb, (Byte.of_leads (Byte.leads_of_opens hopens)).1⟩
  · exact ⟨_, hb, by decide⟩

/-- A branch that is no identifier begins with no line break. -/
theorem head_not_newline (h : branch.Begins dialect ahead)
    (hother : ∀ value, branch ≠ .identifier value) :
    ∃ b, ahead.head? = some b ∧ Byte.isNewline b = false := by
  obtain ⟨b, hb, hopens | ⟨rfl, -⟩⟩ := h.exists_head hother
  · exact ⟨b, hb, Byte.not_newline_of_opens hopens⟩
  · exact ⟨_, hb, by decide⟩

/-- **A branch does not begin with an odd byte**, but for a string in backticks. -/
theorem head_not_odd (h : branch.Begins dialect ahead) :
    ∃ b, ahead.head? = some b ∧
      (Byte.isOdd b = false ∨ b = Byte.backtick ∧ dialect.extendedStrings = true) := by
  by_cases hidentifier : ∃ value, branch = .identifier value
  · obtain ⟨value, rfl⟩ := hidentifier
    obtain ⟨b, hb, hodd⟩ := Scan.not_odd_of_beginsIdentifier h
    exact ⟨b, hb, Or.inl hodd⟩
  · obtain ⟨b, hb, hopens⟩ := h.exists_head (not_exists.mp hidentifier)
    exact ⟨b, hb, hopens.imp_left fun hopens => (Byte.of_leads (Byte.leads_of_opens hopens)).2⟩

/-- **An opener is ASCII.**  An identifier has none. -/
theorem opener_ascii (h : branch.Begins dialect ahead) :
    ∀ b ∈ ahead.take branch.openerLength, b < 0x80 := by
  cases branch with
  | root => exact h.elim
  | group bracket => exact Byte.ascii_take_one h (by cases bracket <;> decide)
  | quoted quote => exact Byte.ascii_take_one h.1 (by cases quote <;> decide)
  | url =>
    obtain ⟨u, r, l, tail, rfl, hu, hr, hl⟩ := Scan.letters_of_beginsUrl h
    rw [Branch.openerLength]
    simp only [List.take_succ_cons, List.take_zero, List.forall_mem_cons]
    exact ⟨Byte.ascii_of_isNumeral hu, Byte.ascii_of_isNumeral hr, Byte.ascii_of_isNumeral hl,
      by decide, List.forall_mem_nil _⟩
  | comment form =>
    cases form with
    | block | line => exact Byte.ascii_take_two h (by decide) (by decide)
  | hash hash => exact Byte.ascii_take_one h (by decide)
  | _ => exact List.forall_mem_nil _

end Branch.Begins
end StyleLex
