/-
# Escapes: their flag, and what settles them

An escape of a code point is read where one begins, in any dialect (`Escape.isSome_read?`), so
dialects differ in how long it is and never in whether there is one.  It is flagged as unclosed
exactly if its bytes begin with a braced form and do not end with the brace (`Escape.closed_iff`).

Escapes are settled by their bytes (`Escape.read?_append`) but for one case: before a cut, braces
with nothing between them are no braced escape, while an opening brace with nothing behind it is
one that was left open.

That one case is the reason why cuts are studied at such length elsewhere: the text `\u{` before a
cut is an escape with an open brace, and with `}` behind it, it is the letter `u` and a pair of
braces.  `read?_cut` lists what may happen at a cut, and names this case.

Escapes of the extended dialect are listed by `Extended`, which stands for the nested choices of the
reader wherever it is enough to know which escape was read.
-/
import StyleLex.Proofs.Token.Settled

namespace StyleLex
namespace Escape

/-- Do these bytes begin with a brace that they do not close? -/
def LeftOpen (slice : List UInt8) : Prop :=
  [Byte.backslash, 0x75, Byte.leftBrace] <+: slice ∧ slice.getLast? ≠ some Byte.rightBrace

variable {dialect : Dialect} {tail : List UInt8} {reading : Reading}

/-! ## 1. Where an escape is

The three readings are tried in an order that the dialect decides, and the last one, which takes any
character for itself, is tried in every dialect.  Hence there is an escape behind every backslash
that does not continue a line. -/

/-- The three readings of the bytes after a backslash. -/
theorem read?_eq (dialect : Dialect) (rest : List UInt8) :
    read? dialect (Byte.backslash :: rest) =
      (if dialect.extendedEscapes then readExtended? rest else none).or
        ((if dialect.standardEscapes then readStandard? rest else none).or
          (readLiteral? rest)) := by
  rw [read?, if_pos (by decide)]
  simp

/-- Where no other escape is read, a literal one is. -/
theorem read?_of_literal {dialect : Dialect} {rest : List UInt8}
    (hextended : dialect.extendedEscapes = true → readExtended? rest = none)
    (hstandard : dialect.standardEscapes = true → readStandard? rest = none) :
    read? dialect (Byte.backslash :: rest) = readLiteral? rest := by
  have hfirst : (if dialect.extendedEscapes then readExtended? rest else none) = none := by
    split
    · rename_i henabled
      exact hextended henabled
    · rfl
  have hsecond : (if dialect.standardEscapes then readStandard? rest else none) = none := by
    split
    · rename_i henabled
      exact hstandard henabled
    · rfl
  rw [read?_eq, hfirst, hsecond, Option.none_or, Option.none_or]

/-- No escape of a code point has a line break after the backslash. -/
theorem readExtended?_of_isNewline {b : UInt8} (h : Byte.isNewline b = true)
    (rest : List UInt8) : readExtended? (b :: rest) = none := by
  simp only [Byte.isNewline, Bool.or_eq_true, beq_iff_eq] at h
  rcases h with (rfl | rfl) | rfl <;> rfl

/-- Nor has a standard one. -/
theorem readStandard?_of_isNewline {b : UInt8} (h : Byte.isNewline b = true)
    (rest : List UInt8) : readStandard? (b :: rest) = none := by
  simp only [Byte.isNewline, Bool.or_eq_true, beq_iff_eq] at h
  rcases h with (rfl | rfl) | rfl <;> rfl

/-- **An escape is read exactly where one begins**, whatever the dialect. -/
theorem isSome_read? (dialect : Dialect) (rest : List UInt8) :
    (read? dialect rest).isSome = begins rest := by
  match rest with
  | [] => rfl
  | [b] =>
    by_cases hb : b = Byte.backslash
    · subst hb
      rw [read?_eq]
      cases dialect.extendedEscapes <;> cases dialect.standardEscapes <;> rfl
    · rw [read?, if_neg (by simpa using hb)]
      rfl
  | b :: next :: further =>
    by_cases hb : b = Byte.backslash
    · subst hb
      rw [read?_eq, begins]
      cases hnext : Byte.isNewline next with
      | true =>
        rw [readExtended?_of_isNewline hnext, readStandard?_of_isNewline hnext, readLiteral?,
          if_pos hnext]
        simp
      | false =>
        have hliteral : (readLiteral? (next :: further)).isSome = true := by
          simp [readLiteral?, hnext]
        simp [Option.isSome_or, hliteral]
    · rw [read?, if_neg (by simpa using hb), begins]
      simp [hb]

/-- What begins an escape. -/
theorem begins_iff {rest : List UInt8} :
    begins rest = true ↔
      ∃ next further, rest = Byte.backslash :: next :: further ∧ Byte.isNewline next = false := by
  match rest with
  | [] => simp [begins]
  | [b] => simp [begins]
  | b :: next :: further =>
    simp only [begins, Bool.and_eq_true, beq_iff_eq, Bool.not_eq_true']
    constructor
    · rintro ⟨rfl, hnext⟩
      exact ⟨next, further, rfl, hnext⟩
    · rintro ⟨_, _, heq, hnext⟩
      obtain ⟨rfl, rfl, rfl⟩ := heq
      exact ⟨rfl, hnext⟩

/-- More bytes behind do not unmake an escape. -/
theorem begins_append {a : List UInt8} (h : begins a = true) (b : List UInt8) :
    begins (a ++ b) = true := by
  obtain ⟨next, further, rfl, hnext⟩ := begins_iff.mp h
  exact begins_iff.mpr ⟨next, further ++ b, rfl, hnext⟩

/-- An escape that the bytes behind a cut begin begins with a backslash right before it. -/
theorem begins_cut {a b : List UInt8} (ha : a ≠ []) (h : begins (a ++ b) = true)
    (hcut : begins a = false) : a = [Byte.backslash] := by
  match a, ha with
  | [x], _ =>
    obtain ⟨next, further, heq, -⟩ := begins_iff.mp h
    rw [(List.cons.inj heq).1]
  | x :: y :: rest, _ =>
    rw [show begins (x :: y :: rest) = begins (x :: y :: rest ++ b) from rfl, h] at hcut
    cases hcut

/-- The extended escapes, by what is behind the backslash. -/
inductive Extended : List UInt8 → Reading → Prop where
  | named {b : UInt8} {rest : List UInt8} {codepoint : Nat} (name : named? b = some codepoint) :
      Extended (b :: rest) ⟨some codepoint, 2, true⟩
  | byte {rest : List UInt8} {codepoint : Nat} (digits : fixedHex? 2 rest = some codepoint) :
      Extended (0x78 :: rest) ⟨some codepoint, 4, true⟩
  | word {rest : List UInt8} {codepoint : Nat} (digits : fixedHex? 4 rest = some codepoint) :
      Extended (0x75 :: rest) ⟨some codepoint, 6, true⟩
  | braced {digits : List UInt8} : Extended (0x75 :: Byte.leftBrace :: digits) (readBraced digits)
  | digit {digit : UInt8} {rest : List UInt8} (decimal : Byte.isDecimal digit = true) :
      Extended (0x64 :: digit :: rest) ⟨some digit.toNat, 3, true⟩

/-- Every extended escape is one of the five. -/
theorem extended_of_readExtended? (h : readExtended? tail = some reading) :
    Extended tail reading := by
  cases tail with
  | nil => cases h
  | cons b rest =>
    unfold readExtended? at h
    dsimp only at h
    split at h
    · rename_i hname
      cases h
      exact .named hname
    · split at h
      · rename_i hx
        obtain rfl : b = 0x78 := by simpa using hx
        obtain ⟨codepoint, hdigits, rfl⟩ := Option.map_eq_some_iff.mp h
        exact .byte hdigits
      · split at h
        · rename_i hu
          obtain rfl : b = 0x75 := by simpa using hu
          split at h
          · rename_i hdigits
            cases h
            exact .word hdigits
          · split at h
            · split at h
              · rename_i hbrace
                simp only [Bool.and_eq_true, beq_iff_eq] at hbrace
                obtain ⟨rfl, -⟩ := hbrace
                cases h
                exact .braced
              · cases h
            · cases h
        · split at h
          · rename_i hd
            obtain rfl : b = 0x64 := by simpa using hd
            split at h
            · split at h
              · rename_i hdecimal
                cases h
                exact .digit hdecimal
              · cases h
            · cases h
          · cases h

/-- An extended escape stands for a code point. -/
theorem readExtended?_codepoint (h : readExtended? tail = some reading) :
    reading.codepoint.isSome = true := by
  cases extended_of_readExtended? h <;> rfl

/-- A standard one does. -/
theorem readStandard?_codepoint (h : readStandard? tail = some reading) :
    reading.codepoint.isSome = true := by
  unfold readStandard? at h
  split at h
  · cases h
  · cases h
    rfl

/-- A literal one does. -/
theorem readLiteral?_codepoint (h : readLiteral? tail = some reading) :
    reading.codepoint.isSome = true := by
  cases tail with
  | nil => cases h
  | cons b rest =>
    rw [readLiteral?] at h
    split at h
    · cases h
    · cases h
      rfl

/-- **An escape that is read stands for a code point.** -/
theorem isSome_codepoint {rest : List UInt8} (h : read? dialect rest = some reading) :
    reading.codepoint.isSome = true := by
  have hbegins : begins rest = true := by
    rw [← isSome_read? dialect, h]
    rfl
  obtain ⟨next, further, rfl, -⟩ := begins_iff.mp hbegins
  rw [read?_eq] at h
  rcases Option.or_eq_some_iff.mp h with h | ⟨-, h⟩
  · split at h
    · exact readExtended?_codepoint h
    · cases h
  · rcases Option.or_eq_some_iff.mp h with h | ⟨-, h⟩
    · split at h
      · exact readStandard?_codepoint h
      · cases h
    · exact readLiteral?_codepoint h

/-! ## 2. The flag

The flag is set by the reader of braced escapes, and for all others it is true.  To say it by the
bytes, one has to see that none of the others begins with `\u{` and is three bytes long. -/

/-- What is left open has the three bytes with which a braced escape begins. -/
theorem leftOpen_take {rest : List UInt8} {n : Nat} (h : LeftOpen (rest.take n)) :
    3 ≤ n ∧ ∃ digits, rest = Byte.backslash :: 0x75 :: Byte.leftBrace :: digits := by
  obtain ⟨more, hmore⟩ := h.1
  have hlength := congrArg List.length hmore
  rw [List.length_append, List.length_take] at hlength
  simp only [List.length_cons, List.length_nil] at hlength
  refine ⟨by omega, ?_⟩
  obtain ⟨digits, hdigits⟩ : [Byte.backslash, 0x75, Byte.leftBrace] <+: rest :=
    (List.IsPrefix.trans ⟨more, hmore⟩ (List.take_prefix n rest))
  exact ⟨digits, hdigits.symm⟩

/-- A run is the first bytes, as many as it has. -/
theorem takeWhile_eq_take (p : UInt8 → Bool) (bytes : List UInt8) :
    bytes.take (bytes.takeWhile p).length = bytes.takeWhile p :=
  (List.prefix_iff_eq_take.mp (List.takeWhile_prefix p)).symm

/-- A braced escape is unclosed exactly if its brace is. -/
theorem readBraced_flag (digits : List UInt8) :
    (readBraced digits).closed = true ↔
      ¬ LeftOpen ((Byte.backslash :: 0x75 :: Byte.leftBrace :: digits).take
        (readBraced digits).length) := by
  generalize hrun : digits.takeWhile Byte.isHexadecimal = run
  have hsplit : digits = run ++ digits.drop run.length := by
    rw [← hrun]
    calc digits
        = digits.take (digits.takeWhile Byte.isHexadecimal).length ++
          digits.drop (digits.takeWhile Byte.isHexadecimal).length :=
          (List.take_append_drop _ _).symm
      _ = _ := by rw [takeWhile_eq_take]
  rw [readBraced, hrun]
  by_cases hclosed : (digits.drop run.length).head? = some Byte.rightBrace
  · -- closed: the brace is the last byte taken
    obtain ⟨further, hfurther⟩ : ∃ further, digits.drop run.length = Byte.rightBrace :: further :=
      List.head?_eq_some_iff.mp hclosed
    rw [hfurther] at hsplit
    have htake : (Byte.backslash :: 0x75 :: Byte.leftBrace :: digits).take (3 + run.length + 1) =
        [Byte.backslash, 0x75, Byte.leftBrace] ++ run ++ [Byte.rightBrace] := by
      rw [hsplit, show 3 + run.length + 1 = run.length + 1 + 1 + 1 + 1 by omega]
      simp [List.take_append, List.take_of_length_le]
    simp only [hclosed, beq_self_eq_true, if_true, true_iff]
    rw [htake]
    intro hopen
    exact hopen.2 List.getLast?_concat
  · -- open: the last byte taken is a digit or the opening brace
    have htake : (Byte.backslash :: 0x75 :: Byte.leftBrace :: digits).take (3 + run.length) =
        [Byte.backslash, 0x75, Byte.leftBrace] ++ run := by
      rw [hsplit, show 3 + run.length = run.length + 1 + 1 + 1 by omega]
      simp
    have hfalse : ((digits.drop run.length).head? == some Byte.rightBrace) = false := by
      simpa using hclosed
    simp only [hfalse, Bool.false_eq_true, if_false, Nat.add_zero, false_iff]
    rw [htake]
    refine fun hnot => hnot ⟨List.prefix_append _ _, ?_⟩
    rw [List.getLast?_append]
    cases hlast : run.getLast? with
    | none => decide
    | some last =>
      have hin : last ∈ digits.takeWhile Byte.isHexadecimal := by
        rw [hrun]
        exact List.mem_of_getLast? hlast
      have hhex : Byte.isHexadecimal last = true := by
        have := List.all_takeWhile (p := Byte.isHexadecimal) (l := digits)
        exact List.all_eq_true.mp this last hin
      rw [Option.some_or]
      rintro heq
      cases heq
      exact absurd hhex (by decide)

/-- No escape but a braced one can be unclosed. -/
theorem flag_of_not_brace {rest : List UInt8} {n : Nat}
    (h : ∀ digits, rest ≠ Byte.backslash :: 0x75 :: Byte.leftBrace :: digits ∨ n < 3) :
    true = true ↔ ¬ LeftOpen (rest.take n) := by
  refine iff_of_true rfl fun hopen => ?_
  obtain ⟨hn, digits, rfl⟩ := leftOpen_take hopen
  rcases h digits with h | h
  · exact h rfl
  · omega

/-- A brace is no digit. -/
theorem fixedHex?_not_brace {count : Nat} {digits : List UInt8} (hcount : 0 < count) :
    fixedHex? count (Byte.leftBrace :: digits) = none := by
  obtain ⟨k, rfl⟩ := Nat.exists_eq_succ_of_ne_zero (Nat.ne_of_gt hcount)
  have hbrace : Byte.isHexadecimal Byte.leftBrace = false := by decide
  simp [fixedHex?, hbrace]

/-- An extended escape has two bytes at least, and its flag tells whether a brace is left open. -/
theorem readExtended?_flag (h : readExtended? tail = some reading) :
    2 ≤ reading.length ∧
      (reading.closed = true ↔ ¬ LeftOpen ((Byte.backslash :: tail).take reading.length)) := by
  cases extended_of_readExtended? h with
  | named name => exact ⟨Nat.le_refl 2, flag_of_not_brace fun _ => Or.inr (by simp)⟩
  | byte digits => exact ⟨by simp, flag_of_not_brace fun _ => Or.inl (by simp)⟩
  | word hdigits =>
    refine ⟨by simp, flag_of_not_brace fun digits => Or.inl ?_⟩
    rintro heq
    simp only [List.cons.injEq, true_and] at heq
    rw [heq, fixedHex?_not_brace (by decide)] at hdigits
    cases hdigits
  | braced =>
    refine ⟨?_, readBraced_flag _⟩
    simp only [readBraced]
    omega
  | digit decimal => exact ⟨by simp, flag_of_not_brace fun _ => Or.inl (by simp)⟩

/-- The same of a standard one, which begins with a digit and so with no brace. -/
theorem readStandard?_flag (h : readStandard? tail = some reading) :
    2 ≤ reading.length ∧
      (reading.closed = true ↔ ¬ LeftOpen ((Byte.backslash :: tail).take reading.length)) := by
  unfold readStandard? at h
  cases hrun : (tail.take 6).takeWhile Byte.isHexadecimal with
  | nil => simp [hrun] at h
  | cons d digits =>
    rw [hrun] at h
    cases h
    refine ⟨?_, flag_of_not_brace fun more => Or.inl ?_⟩
    · simp only [List.length_cons]
      omega
    · rintro heq
      simp only [List.cons.injEq, true_and] at heq
      rw [heq] at hrun
      have hu : Byte.isHexadecimal 0x75 = false := by decide
      simp [hu] at hrun

/-- A character has a byte. -/
theorem sequenceLength_pos (b : UInt8) : 0 < Utf8.sequenceLength b := by
  unfold Utf8.sequenceLength
  split
  · decide
  · split
    · decide
    · split <;> decide

/-- The same of a literal one, which is the letter alone where a brace follows. -/
theorem readLiteral?_flag (h : readLiteral? tail = some reading) :
    2 ≤ reading.length ∧
      (reading.closed = true ↔ ¬ LeftOpen ((Byte.backslash :: tail).take reading.length)) := by
  cases tail with
  | nil => cases h
  | cons b rest =>
    rw [readLiteral?] at h
    split at h
    · cases h
    · cases h
      refine ⟨?_, flag_of_not_brace fun digits => ?_⟩
      · have := sequenceLength_pos b
        simp only
        omega
      · by_cases hb : b = 0x75
        · subst hb
          exact Or.inr (by rw [show Utf8.sequenceLength 0x75 = 1 by decide]; simp)
        · refine Or.inl fun heq => hb ?_
          simp only [List.cons.injEq, true_and] at heq
          exact heq.1

/-- **The flag of an escape**: it is closed unless its bytes leave a brace open. -/
theorem closed_iff {rest : List UInt8} (h : read? dialect rest = some reading) :
    2 ≤ reading.length ∧
      (reading.closed = true ↔ ¬ LeftOpen (rest.take reading.length)) := by
  have hbegins : begins rest = true := by
    rw [← isSome_read? dialect, h]
    rfl
  obtain ⟨next, further, rfl, -⟩ := begins_iff.mp hbegins
  rw [read?_eq] at h
  rcases Option.or_eq_some_iff.mp h with h | ⟨-, h⟩
  · split at h
    · exact readExtended?_flag h
    · cases h
  · rcases Option.or_eq_some_iff.mp h with h | ⟨-, h⟩
    · split at h
      · exact readStandard?_flag h
      · cases h
    · exact readLiteral?_flag h

/-- What a line continuation takes; it is no braced escape. -/
theorem continuationLength?_eq_some {rest : List UInt8} {n : Nat}
    (h : continuationLength? rest = some n) :
    rest ≠ [] ∧ 0 < n ∧ ¬ LeftOpen (rest.take n) := by
  cases rest with
  | nil => cases h
  | cons b tail =>
    rw [continuationLength?] at h
    split at h
    · rename_i hb
      cases h
      refine ⟨List.cons_ne_nil _ _, by omega, fun hopen => ?_⟩
      obtain ⟨-, digits, hdigits⟩ := leftOpen_take hopen
      obtain ⟨-, rfl⟩ := List.cons.inj hdigits
      have hnewline : newlineLength? (0x75 :: Byte.leftBrace :: digits) = none := rfl
      simp [hnewline] at hb
    · cases h

/-! ## 3. Settled

As for numerals, `…_append` says that an escape which ends within `a` is read of `a` alone, and
`…_eq_none` that a cut makes no escape.  The order in which the readings are tried makes both
necessary: a later one is tried only where the earlier ones fail, before the cut as with all bytes.
-/

/-- As many digits as needed, if they are before the cut. -/
theorem fixedHex?_append {count value : Nat} {a b : List UInt8}
    (h : fixedHex? count (a ++ b) = some value) (hcount : count ≤ a.length) :
    fixedHex? count a = some value := by
  rw [fixedHex?, List.take_append_of_le_length hcount] at h
  exact h

/-- If they are not there with all bytes, they are not there with fewer. -/
theorem fixedHex?_eq_none {count : Nat} {a b : List UInt8}
    (h : fixedHex? count (a ++ b) = none) : fixedHex? count a = none := by
  by_cases hcount : count ≤ a.length
  · rw [fixedHex?, List.take_append_of_le_length hcount] at h
    exact h
  · rw [fixedHex?, if_neg]
    rw [List.take_of_length_le (by omega)]
    simp only [Bool.and_eq_true, beq_iff_eq]
    omega

/-- The digits in braces end within `a`, and if they are closed, the brace does. -/
theorem readBraced_append {a b : List UInt8} (h : (readBraced (a ++ b)).length ≤ 3 + a.length) :
    readBraced (a ++ b) = readBraced a := by
  have hrun : (a ++ b).takeWhile Byte.isHexadecimal = a.takeWhile Byte.isHexadecimal := by
    refine takeWhile_append_of_le ?_
    simp only [readBraced] at h
    omega
  have hle : (a.takeWhile Byte.isHexadecimal).length ≤ a.length :=
    (List.takeWhile_prefix _).length_le
  have hclosed : (((a ++ b).drop (a.takeWhile Byte.isHexadecimal).length).head? ==
        some Byte.rightBrace) =
      ((a.drop (a.takeWhile Byte.isHexadecimal).length).head? == some Byte.rightBrace) := by
    rw [drop_append_of_le hle]
    cases hdrop : a.drop (a.takeWhile Byte.isHexadecimal).length with
    | cons x rest => rfl
    | nil =>
      have hfull : (a.takeWhile Byte.isHexadecimal).length = a.length := by
        have := congrArg List.length hdrop
        rw [List.length_drop, List.length_nil] at this
        omega
      simp only [readBraced, hrun, drop_append_of_le hle, hdrop, List.nil_append] at h
      split at h
      · omega
      · rename_i hb
        simpa using hb
  simp only [readBraced, hrun, hclosed]

/-- An extended escape is settled where it is read. -/
theorem readExtended?_append {a b : List UInt8} (h : readExtended? (a ++ b) = some reading)
    (hn : reading.length ≤ a.length + 1) : readExtended? a = some reading := by
  cases a with
  | nil =>
    have := (readExtended?_flag h).1
    simp only [List.length_nil] at hn
    omega
  | cons c rest =>
    simp only [List.cons_append, List.length_cons] at h hn
    unfold readExtended? at h ⊢
    dsimp only at h ⊢
    split at h
    · exact h
    · split at h
      · rename_i hx
        rw [if_pos hx]
        obtain ⟨value, hvalue, rfl⟩ := Option.map_eq_some_iff.mp h
        rw [fixedHex?_append hvalue (by simpa using hn)]
        rfl
      · rename_i hx
        rw [if_neg hx]
        split at h
        · rename_i hu
          rw [if_pos hu]
          split at h
          · rename_i value hvalue
            cases h
            rw [fixedHex?_append hvalue (by simpa using hn)]
          · rename_i hfixed
            rw [fixedHex?_eq_none hfixed]
            dsimp only
            -- a brace and a byte behind it tell a braced escape from the letter `u`
            cases rest with
            | nil =>
              cases b with
              | nil => cases h
              | cons y further =>
                simp only [List.nil_append] at h
                split at h
                · cases h
                  simp only [readBraced, List.length_nil] at hn
                  omega
                · cases h
            | cons y digits =>
              simp only [List.cons_append] at h
              split at h
              · rename_i hy
                cases h
                have hlength : (readBraced (digits ++ b)).length ≤ 3 + digits.length := by
                  simp only [List.length_cons] at hn
                  omega
                rw [readBraced_append hlength]
                dsimp only
                rw [if_pos]
                simp only [Bool.and_eq_true] at hy ⊢
                refine ⟨hy.1, ?_⟩
                cases digits with
                | nil => rfl
                | cons z more => exact hy.2
              · cases h
        · rename_i hu
          rw [if_neg hu]
          split at h
          · rename_i hd
            rw [if_pos hd]
            cases rest with
            | nil =>
              cases b with
              | nil => cases h
              | cons y further =>
                simp only [List.nil_append] at h
                split at h
                · cases h
                  simp at hn
                · cases h
            | cons digit further => exact h
          · cases h

/-- Where none is read, a cut makes one only of braces with nothing between them. -/
theorem readExtended?_eq_none {a b : List UInt8} (h : readExtended? (a ++ b) = none)
    (hbrace : a = [0x75, Byte.leftBrace] → b.head? ≠ some Byte.rightBrace) :
    readExtended? a = none := by
  cases a with
  | nil => rfl
  | cons c rest =>
    simp only [List.cons_append] at h
    unfold readExtended? at h ⊢
    dsimp only at h ⊢
    split at h
    · cases h
    · split at h
      · rename_i hx
        rw [if_pos hx]
        rw [fixedHex?_eq_none (Option.map_eq_none_iff.mp h)]
        rfl
      · rename_i hx
        rw [if_neg hx]
        split at h
        · rename_i hu
          rw [if_pos hu]
          split at h
          · cases h
          · rename_i hfixed
            rw [fixedHex?_eq_none hfixed]
            dsimp only
            cases rest with
            | nil => rfl
            | cons y digits =>
              simp only [List.cons_append] at h
              dsimp only
              split at h
              · cases h
              · rename_i hy
                rw [if_neg]
                intro hcut
                simp only [Bool.and_eq_true, beq_iff_eq, bne_iff_ne] at hcut hy
                refine hy ⟨hcut.1, ?_⟩
                cases digits with
                | nil =>
                  rw [List.nil_append]
                  exact hbrace (by rw [hcut.1, show c = 0x75 by simpa using hu])
                | cons z more => exact hcut.2
        · rename_i hu
          rw [if_neg hu]
          split at h
          · rename_i hd
            rw [if_pos hd]
            cases rest with
            | nil => rfl
            | cons digit further => exact h
          · rename_i hd
            rw [if_neg hd]

/-- What ends the digits is one blank or a line break of two bytes; it may not be cut in between. -/
theorem terminatorLength_append {a b : List UInt8}
    (h : terminatorLength (a ++ b) ≤ a.length) :
    terminatorLength (a ++ b) = terminatorLength a := by
  match a with
  | [] => exact Nat.le_zero.mp h
  | [x] =>
    simp only [List.cons_append, List.nil_append, terminatorLength] at h ⊢
    split at h
    · simp at h
    · rename_i hx
      have hcut : ¬ (x == Byte.carriageReturn &&
          ([] : List UInt8).head? == some Byte.lineFeed) = true := by simp
      rw [if_neg hx, if_neg hcut]
  | x :: y :: further => rfl

/-- The hexadecimal digits of a standard escape, after a cut behind them. -/
theorem takeWhile_take_append {p : UInt8 → Bool} {n : Nat} {a b : List UInt8}
    (h : (((a ++ b).take n).takeWhile p).length ≤ a.length) :
    ((a ++ b).take n).takeWhile p = (a.take n).takeWhile p := by
  rw [List.take_append] at h ⊢
  refine takeWhile_append_of_le ?_
  have hfront := (List.takeWhile_prefix p (l := a.take n ++ b.take (n - a.length))).length_le
  rw [List.length_append, List.length_take, List.length_take] at hfront
  rw [List.length_take]
  omega

/-- Digits, and what ends them, before the cut. -/
theorem readStandard?_append {a b : List UInt8} (h : readStandard? (a ++ b) = some reading)
    (hn : reading.length ≤ a.length + 1) : readStandard? a = some reading := by
  unfold readStandard? at h ⊢
  cases hrun : ((a ++ b).take 6).takeWhile Byte.isHexadecimal with
  | nil => simp [hrun] at h
  | cons d digits =>
    rw [hrun] at h
    cases h
    simp only at hn
    have hle : (d :: digits).length ≤ a.length := by omega
    rw [← takeWhile_take_append (b := b) (by rw [hrun]; exact hle), hrun]
    rw [drop_append_of_le hle] at hn ⊢
    rw [terminatorLength_append]
    rw [List.length_drop]
    omega

/-- Without a digit there is no standard escape, with or without the rest. -/
theorem readStandard?_eq_none {a b : List UInt8} (h : readStandard? (a ++ b) = none) :
    readStandard? a = none := by
  unfold readStandard? at h ⊢
  cases hrun : ((a ++ b).take 6).takeWhile Byte.isHexadecimal with
  | nil =>
    have hle := length_takeWhile_append_le Byte.isHexadecimal (a.take 6) (b.take (6 - a.length))
    rw [← List.take_append, hrun, List.length_nil, Nat.le_zero] at hle
    rw [List.length_eq_zero_iff.mp hle]
  | cons d digits => simp [hrun] at h

/-- A character is decoded from its own bytes. -/
theorem extendScalar_append : ∀ (n scalar : Nat) (a b : List UInt8), n ≤ a.length →
    Utf8.extendScalar n scalar (a ++ b) = Utf8.extendScalar n scalar a
  | 0, _, _, _, _ => by simp [Utf8.extendScalar]
  | n + 1, scalar, x :: rest, b, h => by
    rw [List.cons_append, Utf8.extendScalar, Utf8.extendScalar]
    exact extendScalar_append n _ rest b (by simpa using h)

/-- So its code point does not depend on what follows, if it is not cut. -/
theorem scalarAt_append {c : UInt8} {rest : List UInt8}
    (h : Utf8.sequenceLength c ≤ rest.length + 1) (b : List UInt8) :
    Utf8.scalarAt (c :: rest ++ b) = Utf8.scalarAt (c :: rest) := by
  rw [List.cons_append, Utf8.scalarAt, Utf8.scalarAt]
  split <;> rename_i hlength
  · rw [extendScalar_append _ _ _ _ (by omega)]
  · rw [extendScalar_append _ _ _ _ (by omega)]
  · rw [extendScalar_append _ _ _ _ (by omega)]
  · rfl

/-- A literal escape takes a whole character. -/
theorem readLiteral?_append {a b : List UInt8} (h : readLiteral? (a ++ b) = some reading)
    (hn : reading.length ≤ a.length + 1) : readLiteral? a = some reading := by
  cases a with
  | nil =>
    have := (readLiteral?_flag h).1
    simp only [List.length_nil] at hn
    omega
  | cons c rest =>
    rw [List.cons_append, readLiteral?, ← List.cons_append] at h
    rw [readLiteral?]
    split at h
    · cases h
    · rename_i hc
      cases h
      rw [if_neg hc, scalarAt_append]
      simpa using hn

/-- **An escape is settled by its bytes**, unless the cut makes a brace look open. -/
theorem read?_append {a b : List UInt8} (h : read? dialect (a ++ b) = some reading)
    (hn : reading.length ≤ a.length)
    (hbrace : a = [Byte.backslash, 0x75, Byte.leftBrace] → b.head? ≠ some Byte.rightBrace) :
    read? dialect a = some reading := by
  cases a with
  | nil =>
    have := (closed_iff h).1
    simp only [List.length_nil] at hn
    omega
  | cons c tail =>
    obtain ⟨next, further, hcons, -⟩ := begins_iff.mp (by
      rw [← isSome_read? dialect, h]
      rfl : begins (c :: tail ++ b) = true)
    obtain rfl : c = Byte.backslash := (List.cons.inj hcons).1
    rw [List.cons_append] at h
    rw [read?_eq] at h ⊢
    rw [List.length_cons] at hn
    -- the reading that succeeds does so before the cut, and those tried before it fail there as
    -- well
    rcases Option.or_eq_some_iff.mp h with h | ⟨hextended, h⟩
    · split at h
      · rename_i hflag
        rw [if_pos hflag, readExtended?_append h hn]
        rfl
      · cases h
    · have hnone : (if dialect.extendedEscapes then readExtended? tail else none) = none := by
        split
        · rename_i hflag
          rw [if_pos hflag] at hextended
          refine readExtended?_eq_none hextended fun heq => hbrace (by rw [heq])
        · rfl
      rw [hnone, Option.none_or]
      rcases Option.or_eq_some_iff.mp h with h | ⟨hstandard, h⟩
      · split at h
        · rename_i hflag
          rw [if_pos hflag, readStandard?_append h hn]
          rfl
        · cases h
      · have hnone : (if dialect.standardEscapes then readStandard? tail else none) = none := by
          split
          · rename_i hflag
            rw [if_pos hflag] at hstandard
            exact readStandard?_eq_none hstandard
          · rfl
        rw [hnone, Option.none_or]
        exact readLiteral?_append h hn

/-- Braces with nothing between them are no braced escape: what is read there is the `u` before
them. -/
theorem length_of_empty_braces {digits : List UInt8}
    (h : read? dialect (Byte.backslash :: 0x75 :: Byte.leftBrace :: Byte.rightBrace :: digits) =
      some reading) : reading.length = 2 := by
  have hextended :
      readExtended? (0x75 :: Byte.leftBrace :: Byte.rightBrace :: digits) = none := by
    have hfixed : fixedHex? 4 (Byte.leftBrace :: Byte.rightBrace :: digits) = none :=
      fixedHex?_not_brace (by decide)
    rw [readExtended?, hfixed]
    rfl
  rw [read?_eq, hextended] at h
  have hstandard :
      readStandard? (0x75 :: Byte.leftBrace :: Byte.rightBrace :: digits) = none := rfl
  rw [hstandard, ite_self, ite_self, Option.none_or, Option.none_or] at h
  cases h
  rfl

/-- **What an escape is with bytes to come**: the same as without them, or it takes some of them,
or it is cut between an opening brace and the closing one. -/
theorem read?_cut (dialect : Dialect) (a b : List UInt8) :
    (read? dialect (a ++ b) = none ∧ read? dialect a = none) ∨
      ∃ reading, read? dialect (a ++ b) = some reading ∧
        ((b ≠ [] ∧ a.length < reading.length) ∨
          (b ≠ [] ∧ reading.length = 2 ∧ a = [Byte.backslash, 0x75, Byte.leftBrace]) ∨
          ((reading.length ≤ a.length ∨ b = []) ∧ read? dialect a = some reading)) := by
  cases hread : read? dialect (a ++ b) with
  | none =>
    refine Or.inl ⟨rfl, ?_⟩
    have hbegins : begins (a ++ b) = false := by
      rw [← isSome_read? dialect, hread]
      rfl
    rw [← Option.isNone_iff_eq_none, ← Option.not_isSome, isSome_read?, Bool.not_eq_true']
    refine Bool.eq_false_iff.mpr fun ha => ?_
    rw [begins_append ha] at hbegins
    cases hbegins
  | some reading =>
    refine Or.inr ⟨reading, rfl, ?_⟩
    by_cases hb : b = []
    · subst hb
      rw [List.append_nil] at hread
      exact Or.inr (Or.inr ⟨Or.inr rfl, hread⟩)
    rcases Nat.lt_or_ge a.length reading.length with hn | hn
    · exact Or.inl ⟨hb, hn⟩
    by_cases hcut : a = [Byte.backslash, 0x75, Byte.leftBrace] ∧ b.head? = some Byte.rightBrace
    · obtain ⟨rfl, hhead⟩ := hcut
      obtain ⟨digits, rfl⟩ := List.head?_eq_some_iff.mp hhead
      exact Or.inr (Or.inl ⟨hb, length_of_empty_braces hread, rfl⟩)
    · refine Or.inr (Or.inr ⟨Or.inl hn, read?_append hread hn fun ha hhead => ?_⟩)
      exact hcut ⟨ha, hhead⟩

/-- A line continuation, as a reading. -/
def continuationOf (bytes : List UInt8) : Option (Unit × Nat) :=
  (continuationLength? bytes).map fun n => ((), n)

/-- What a backslash that begins no escape continues. -/
theorem continuationOf_cons (rest : List UInt8) :
    continuationOf (Byte.backslash :: rest) =
      if rest.isEmpty then some ((), 1)
      else (newlineOf rest).map fun found => ((), 1 + found.2) := by
  rw [continuationOf, continuationLength?, newlineOf]
  cases rest with
  | nil => rfl
  | cons x further => cases newlineLength? (x :: further) <;> rfl

/-- A backslash before a cut continues the line only if the bytes behind it do. -/
theorem splits_continuationOf {a b : List UInt8} (ha : a ≠ []) (h : begins (a ++ b) = false) :
    Splits continuationOf a b := by
  obtain ⟨x, rest, rfl⟩ := List.exists_cons_of_ne_nil ha
  by_cases hx : x = Byte.backslash
  · subst hx
    unfold Splits
    rw [List.cons_append, continuationOf_cons, continuationOf_cons]
    -- a backslash right before the cut: with nothing behind it, it continues the line too
    cases rest with
    | nil =>
      cases b with
      | nil => exact Or.inr ⟨(), 1, rfl, Or.inr ⟨Or.inr rfl, rfl⟩⟩
      | cons y further =>
        have hy : Byte.isNewline y = true := by
          simpa [begins] using h
        have hline : (newlineLength? (y :: further)).isSome = true := by
          rw [newlineLength?, if_pos hy]
          split <;> rfl
        obtain ⟨n, hn⟩ := Option.isSome_iff_exists.mp hline
        rw [List.nil_append, newlineOf, hn]
        have hpos := (newlineLength?_pos hn).1
        exact Or.inr ⟨(), 1 + n, rfl, Or.inl ⟨List.cons_ne_nil _ _, by simpa using hpos⟩⟩
    | cons y further =>
      rw [if_neg (by simp), if_neg (by simp)]
      rcases settles_newlineOf.split (y :: further) b with ⟨hf, hg⟩ | ⟨value, n, hf, hcut⟩
      · rw [hf, hg]
        exact Or.inl ⟨rfl, rfl⟩
      · refine Or.inr ⟨(), 1 + n, by rw [hf]; rfl, ?_⟩
        rw [List.length_cons]
        rcases hcut with ⟨hb, hn⟩ | ⟨hn, hg⟩
        · exact Or.inl ⟨hb, by omega⟩
        · rw [hg]
          exact Or.inr ⟨hn.imp_left fun hle => by omega, rfl⟩
  · have hnone : ∀ further, continuationOf (x :: further) = none := by
      intro further
      rw [continuationOf, continuationLength?, if_neg]
      · rfl
      · simp [hx]
    exact Or.inl ⟨hnone _, hnone _⟩

end Escape
end StyleLex
