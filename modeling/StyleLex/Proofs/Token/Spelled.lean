/-
# How names are spelled

A character of a name is written in one of three ways: as itself, behind a backslash, or by its
number in hexadecimal digits with a blank behind them (`Name.Spelling`).  Spellings follow each
other without anything between them, and the first one must begin a name (`Name.Spelled`).

Where a spelling begins with a backslash, the escape that is read there is the spelling, and it
stands for the character (`Name.Spelling.cases`); the run of name bytes in front of the next
backslash is the characters that stand for themselves (`Name.Spellings.run`).

The relation is the specification of how one may write a name, and it is independent of readers: a
character may be written in each of the three ways, and which one is the choice of the writer,
character by character.  Two restrictions are needed for it to be read back.  A literal escape must
not be a hexadecimal digit, since that would begin a number, nor a line break; and a number needs a
blank behind it, since a digit might follow.

In the other direction, what is left of a name at any time begins with an escape or with a run, and
there the characters that it spells can be told (`Continues`).
-/
import Mathlib.Data.Nat.Digits.Defs
import StyleLex.Proofs.Token.Encoded
import StyleLex.Proofs.Token.Escape
import StyleLex.Proofs.Token.Written

namespace StyleLex

/-! ## 1. Spellings

`own` is the class of bytes that stand for themselves.  It is smaller for the first character of a
name. -/

/-- A byte that may begin a name as it is: a hyphen begins one only if more follows. -/
def Byte.beginsName (b : UInt8) : Bool := isNameStart b && b != hyphen

namespace Name

/-- The ways to write a character, where the bytes of a class stand for themselves. -/
inductive Spelling (own : UInt8 → Bool) (c : Char) : List UInt8 → Prop where
  /-- As it is. -/
  | plain (bytes : ∀ b ∈ String.utf8EncodeChar c, own b = true) :
      Spelling own c (String.utf8EncodeChar c)
  /-- Behind a backslash, unless it is a hexadecimal digit or ends a line. -/
  | literal (digit : ∀ b value : UInt8, b.toNat = c.toNat → ¬ Byte.Denotes 16 b value)
      (line : c.toNat ≠ 0x0A ∧ c.toNat ≠ 0x0C ∧ c.toNat ≠ 0x0D) :
      Spelling own c (Byte.backslash :: String.utf8EncodeChar c)
  /-- By its number, in one to six digits, and a space, a tab or a line break of two bytes. -/
  | numbered {digits values blank : List UInt8} (written : Numeral.Digits 16 digits values)
      (count : 1 ≤ digits.length ∧ digits.length ≤ 6)
      (number : Nat.ofDigits 16 (values.reverse.map UInt8.toNat) = c.toNat)
      (ended : blank = [Byte.space] ∨ blank = [Byte.tab] ∨
        blank = [Byte.carriageReturn, Byte.lineFeed]) :
      Spelling own c (Byte.backslash :: (digits ++ blank))

/-- Spellings of characters inside a name, one after the other. -/
inductive Spellings : List Char → List UInt8 → Prop where
  | nil : Spellings [] []
  | cons {c : Char} {chars : List Char} {front rest : List UInt8}
      (first : Spelling Byte.isName c front) (more : Spellings chars rest) :
      Spellings (c :: chars) (front ++ rest)

/-- `Spelled text bytes`: the bytes spell the text as a name. -/
inductive Spelled : String → List UInt8 → Prop where
  | intro {text : String} {c : Char} {chars : List Char} {front rest : List UInt8}
      (named : text.toList = c :: chars) (first : Spelling Byte.beginsName c front)
      (more : Spellings chars rest) : Spelled text (front ++ rest)

variable {own : UInt8 → Bool} {c : Char} {front rest : List UInt8} {dialect : Dialect}

/-! ## 2. Digits

The digits of a number are read from the first to the last, and the number of a list of digits is
defined from the last to the first, so the values are reversed. -/

/-- A byte has one value. -/
theorem eq_of_denotes {b v w : UInt8} (hv : Byte.Denotes 16 b v) (hw : Byte.Denotes 16 b w) :
    v = w := by
  rw [← UInt8.toNat_inj]
  unfold Byte.Denotes at hv hw
  omega

/-- A digit is read as what it stands for. -/
theorem digit_of_denotes {b v : UInt8} (h : Byte.Denotes 16 b v) :
    Byte.isHexadecimal b = true ∧ Byte.digitValue b = v := by
  have hclass : Byte.isHexadecimal b = true := by
    unfold Byte.Denotes at h
    simp only [Byte.isHexadecimal, Byte.isDecimal, Bool.or_eq_true, Utf8.between_iff,
      UInt8.reduceToNat]
    omega
  have hdigit := (Numeral.isBase_of_letter (.hexadecimal (Or.inl rfl)) b hclass).2
  exact ⟨hclass, eq_of_denotes hdigit h⟩

/-- Digits have the number that they are read as. -/
theorem hexValue_of_digits {digits values : List UInt8} (h : Numeral.Digits 16 digits values) :
    (∀ b ∈ digits, Byte.isHexadecimal b = true) ∧
      Escape.hexValue digits = Nat.ofDigits 16 (values.reverse.map UInt8.toNat) := by
  have hfold : ∀ {digits values : List UInt8}, Numeral.Digits 16 digits values → ∀ number : Nat,
      digits.foldl (fun value b => value * 16 + (Byte.digitValue b).toNat) number =
        values.foldl (fun value v => value * 16 + v.toNat) number := by
    intro digits values h
    induction h with
    | nil => exact fun _ => rfl
    | cons hfirst hmore ih =>
      intro number
      rw [List.foldl_cons, List.foldl_cons, (digit_of_denotes hfirst).2, ih]
  refine ⟨?_, ?_⟩
  · induction h with
    | nil => exact List.forall_mem_nil _
    | cons hfirst hmore ih =>
      exact List.forall_mem_cons.mpr ⟨(digit_of_denotes hfirst).1, ih⟩
  · have hstep : (fun (value : Nat) (v : UInt8) => value * 16 + v.toNat) =
        fun value v => v.toNat + 16 * value := by
      funext value v
      omega
    rw [Escape.hexValue, hfold h, hstep, Nat.ofDigits_eq_foldr, List.foldr_map, List.foldr_reverse]
    rfl

/-! ## 3. Reading

By the three ways of spelling; each way has a reading of escapes that accepts it, and the readings
that are tried before do not. -/

/-- An ASCII byte is the character that it begins. -/
theorem toNat_lead {lead : UInt8} {more : List UInt8} (h : Utf8.Encoded c lead more)
    (hlead : lead.toNat < 0x80) : lead.toNat = c.toNat := by
  cases h with
  | one range first => exact first
  | _ => omega

/-- An escape in front of the bytes that it is read of. -/
theorem read?_literal (hextended : dialect.extendedEscapes = false)
    (digit : ∀ b value : UInt8, b.toNat = c.toNat → ¬ Byte.Denotes 16 b value)
    (line : c.toNat ≠ 0x0A ∧ c.toNat ≠ 0x0C ∧ c.toNat ≠ 0x0D) (rest : List UInt8) :
    Escape.read? dialect (Byte.backslash :: (String.utf8EncodeChar c ++ rest)) =
      some ⟨some c.toNat, (String.utf8EncodeChar c).length + 1, true⟩ := by
  have hscalar := Utf8.scalarAt_encodeChar c rest
  obtain ⟨lead, more, hbytes, hencoded⟩ := Utf8.exists_encoded c
  have hsequence := hencoded.sequence
  rw [hbytes, List.cons_append] at hscalar ⊢
  -- the other readings decline: no digit stands there, and no line break
  have hhexadecimal : Byte.isHexadecimal lead = false := by
    rw [Bool.eq_false_iff]
    intro hlead
    have hrange := Byte.isHexadecimal_range hlead
    exact digit lead _ (toNat_lead hencoded hrange.2)
      (Numeral.isBase_of_letter (.hexadecimal (Or.inl rfl)) lead hlead).2
  have hnewline : Byte.isNewline lead = false := by
    rw [Bool.eq_false_iff]
    intro hlead
    simp only [Byte.isNewline, Bool.or_eq_true, beq_iff_eq] at hlead
    have hvalue : lead.toNat = 0x0A ∨ lead.toNat = 0x0D ∨ lead.toNat = 0x0C := by
      rcases hlead with (rfl | rfl) | rfl <;> decide
    have hsame := toNat_lead hencoded (by omega)
    omega
  have hdigits : Escape.readStandard? (lead :: (more ++ rest)) = none := by
    rw [Escape.readStandard?, List.take_succ_cons,
      List.takeWhile_cons_of_neg (by rw [hhexadecimal]; decide)]
  have hdisabled : dialect.extendedEscapes = true →
      Escape.readExtended? (lead :: (more ++ rest)) = none := by
    intro henabled
    exact absurd (hextended.symm.trans henabled) (by decide)
  rw [Escape.read?_of_literal hdisabled fun _ => hdigits, Escape.readLiteral?, hnewline,
    if_neg Bool.false_ne_true, hscalar, hsequence.announced, List.length_cons]

/-- The blank behind the digits of an escape belongs to it, and is no digit. -/
theorem terminatorLength_blank {blank : List UInt8} (h : blank = [Byte.space] ∨
    blank = [Byte.tab] ∨ blank = [Byte.carriageReturn, Byte.lineFeed]) (rest : List UInt8) :
    Escape.terminatorLength (blank ++ rest) = blank.length ∧
      ∀ n, ((blank ++ rest).take n).takeWhile Byte.isHexadecimal = [] := by
  rcases h with rfl | rfl | rfl <;> exact ⟨rfl, fun n => by cases n <;> rfl⟩

/-- A number is read whole, with the blank that ends it. -/
theorem read?_numbered (hstandard : dialect.standardEscapes = true)
    (hextended : dialect.extendedEscapes = false) {digits values blank : List UInt8}
    (written : Numeral.Digits 16 digits values) (count : 1 ≤ digits.length ∧ digits.length ≤ 6)
    (ended : blank = [Byte.space] ∨ blank = [Byte.tab] ∨
      blank = [Byte.carriageReturn, Byte.lineFeed]) (rest : List UInt8) :
    Escape.read? dialect (Byte.backslash :: (digits ++ blank ++ rest)) =
      some ⟨some (Nat.ofDigits 16 (values.reverse.map UInt8.toNat)),
        (digits ++ blank).length + 1, true⟩ := by
  obtain ⟨hdigits, hvalue⟩ := hexValue_of_digits written
  obtain ⟨hblank, hend⟩ := terminatorLength_blank ended rest
  have hrun : ((digits ++ (blank ++ rest)).take 6).takeWhile Byte.isHexadecimal = digits := by
    rw [List.take_append, List.take_of_length_le count.2, List.takeWhile_append_of_pos hdigits,
      hend, List.append_nil]
  have hread : Escape.readStandard? (digits ++ (blank ++ rest)) =
      some ⟨some (Nat.ofDigits 16 (values.reverse.map UInt8.toNat)),
        (digits ++ blank).length + 1, true⟩ := by
    unfold Escape.readStandard?
    rw [hrun]
    cases digits with
    | nil => exact absurd count.1 (by simp)
    | cons d digits =>
      dsimp only
      rw [List.drop_left, hblank, hvalue, List.length_append, Nat.add_comm _ 1, Nat.add_assoc]
  rw [List.append_assoc, Escape.read?_eq, hstandard, hextended, if_pos rfl,
    if_neg Bool.false_ne_true, hread, Option.none_or, Option.some_or]

/-- **A spelling is the character itself, or the escape that is read where it stands.** -/
theorem Spelling.cases (h : Spelling own c front) (hstandard : dialect.standardEscapes = true)
    (hextended : dialect.extendedEscapes = false) :
    (front = String.utf8EncodeChar c ∧ ∀ b ∈ front, own b = true) ∨
      ∃ tail, front = Byte.backslash :: tail ∧ ∀ rest,
        Escape.read? dialect (front ++ rest) = some ⟨some c.toNat, front.length, true⟩ := by
  cases h with
  | plain bytes => exact Or.inl ⟨rfl, bytes⟩
  | literal digit line =>
    exact Or.inr ⟨_, rfl, read?_literal hextended digit line⟩
  | numbered written count number ended =>
    refine Or.inr ⟨_, rfl, fun rest => ?_⟩
    rw [← number]
    exact read?_numbered hstandard hextended written count ended rest

/-- What is left of a name: nothing, an escape and more, or characters as they are and more. -/
inductive Continues (dialect : Dialect) : List Char → List UInt8 → Prop where
  | nothing : Continues dialect [] []
  | escape {c : Char} {further : List Char} {bytes : List UInt8} {length : Nat}
      (read : Escape.read? dialect bytes = some ⟨some c.toNat, length, true⟩)
      (more : Spellings further (bytes.drop length)) : Continues dialect (c :: further) bytes
  | run {front further : List Char} {bytes : List UInt8}
      (ahead : bytes.takeWhile Byte.isName ≠ [])
      (own : bytes.takeWhile Byte.isName = front.flatMap String.utf8EncodeChar)
      (more : Spellings further (bytes.drop (bytes.takeWhile Byte.isName).length)) :
      Continues dialect (front ++ further) bytes

/-- **A run of name bytes is characters as they are**, and the name goes on behind them. -/
theorem Spellings.run {chars : List Char} {bytes : List UInt8} (h : Spellings chars bytes)
    (hstandard : dialect.standardEscapes = true) (hextended : dialect.extendedEscapes = false) :
    ∃ front further, chars = front ++ further ∧
      bytes.takeWhile Byte.isName = front.flatMap String.utf8EncodeChar ∧
      Spellings further (bytes.drop (bytes.takeWhile Byte.isName).length) := by
  induction h with
  | nil => exact ⟨[], [], rfl, rfl, .nil⟩
  | @cons c chars front rest first more ih =>
    rcases first.cases hstandard hextended with ⟨rfl, hown⟩ | ⟨tail, rfl, -⟩
    · obtain ⟨others, further, rfl, hrun, hmore⟩ := ih
      refine ⟨c :: others, further, rfl, ?_, ?_⟩
      · rw [List.takeWhile_append_of_pos hown, hrun, List.flatMap_cons]
      · rw [List.takeWhile_append_of_pos hown, List.length_append, List.drop_length_add_append]
        exact hmore
    · have hnone : (Byte.backslash :: tail ++ rest).takeWhile Byte.isName = [] :=
        List.takeWhile_cons_of_neg (by decide)
      refine ⟨[], _, rfl, hnone, ?_⟩
      rw [hnone]
      exact .cons first more

/-- **What is left of a name goes on in one of these ways.** -/
theorem Spellings.continues {chars : List Char} {bytes : List UInt8} (h : Spellings chars bytes)
    (hstandard : dialect.standardEscapes = true) (hextended : dialect.extendedEscapes = false) :
    Continues dialect chars bytes := by
  obtain ⟨others, further, hchars, hrun, hmore⟩ := h.run hstandard hextended
  cases h with
  | nil => exact .nothing
  | @cons c chars front rest first more =>
    rcases first.cases hstandard hextended with ⟨rfl, hown⟩ | ⟨tail, -, hread⟩
    · rw [hchars]
      refine .run ?_ hrun hmore
      obtain ⟨lead, tail, hbytes, -⟩ := Utf8.exists_encoded c
      rw [List.takeWhile_append_of_pos hown, hbytes]
      exact List.cons_ne_nil _ _
    · refine .escape (hread rest) ?_
      rw [List.drop_left]
      exact more

/-! ## 4. How a name begins

The scan opens a name by its first bytes, so something has to be said about these. -/

/-- A name that is spelled goes on with a name byte or a backslash. -/
theorem Spellings.head {chars : List Char} {b : UInt8} {tail : List UInt8}
    (h : Spellings chars (b :: tail)) (hstandard : dialect.standardEscapes = true)
    (hextended : dialect.extendedEscapes = false) :
    Byte.isName b = true ∨ b = Byte.backslash := by
  cases h.continues hstandard hextended with
  | escape read more =>
    have hbegins : Escape.begins (b :: tail) = true := by
      rw [← Escape.isSome_read? dialect, read]
      rfl
    obtain ⟨next, further, heq, -⟩ := Escape.begins_iff.mp hbegins
    exact Or.inr (List.cons.inj heq).1
  | run ahead own more =>
    refine Or.inl ?_
    by_contra hname
    exact ahead (List.takeWhile_cons_of_neg hname)

/-- No characters are spelled by no bytes. -/
theorem Spellings.eq_nil {chars : List Char} (h : Spellings chars [])
    (hstandard : dialect.standardEscapes = true) (hextended : dialect.extendedEscapes = false) :
    chars = [] := by
  cases h.continues hstandard hextended with
  | nothing => rfl
  | escape read more => cases read
  | run ahead own more => exact absurd rfl ahead

/-- A byte that begins a name as it is, is a name byte, and neither hyphen, operator nor bracket. -/
theorem apart_of_beginsName {b : UInt8} (h : Byte.beginsName b = true) :
    Byte.isName b = true ∧ b ≠ Byte.hyphen ∧ Byte.isNameStart b = true ∧
      Byte.isOperator b = false ∧ Byte.isOpener b = false := by
  obtain ⟨⟨b⟩⟩ := b
  revert b
  decide +kernel

/-- What may begin a name may also stand inside one. -/
theorem Spelling.inside (h : Spelling Byte.beginsName c front) : Spelling Byte.isName c front := by
  cases h with
  | plain bytes => exact .plain fun b hb => (apart_of_beginsName (bytes b hb)).1
  | literal digit line => exact .literal digit line
  | numbered written count number ended => exact .numbered written count number ended

/-- **A name that is spelled begins as one**: with a byte that begins one or with an escape. -/
theorem Spelled.begins {text : String} {bytes : List UInt8} (h : Spelled text bytes)
    (hstandard : dialect.standardEscapes = true) (hextended : dialect.extendedEscapes = false) :
    Spellings text.toList bytes ∧ ∃ b tail, bytes = b :: tail ∧
      (Byte.beginsName b = true ∨ b = Byte.backslash ∧ Escape.begins bytes = true) := by
  obtain ⟨named, first, more⟩ := h
  refine ⟨named ▸ .cons first.inside more, ?_⟩
  rcases first.cases hstandard hextended with ⟨rfl, hown⟩ | ⟨tail, rfl, hread⟩
  · rename_i c chars rest
    obtain ⟨lead, tail, hbytes, -⟩ := Utf8.exists_encoded c
    rw [hbytes] at hown ⊢
    exact ⟨lead, _, rfl, Or.inl (hown lead List.mem_cons_self)⟩
  · refine ⟨_, _, rfl, Or.inr ⟨rfl, ?_⟩⟩
    rw [← Escape.isSome_read? dialect, hread]
    rfl

end Name
end StyleLex
