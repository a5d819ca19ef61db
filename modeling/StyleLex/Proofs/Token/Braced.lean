/-
# Escapes in braces

An escape in braces may have any number of digits.  They are added up under a bound, and the sum
stays at the bound once it is there; so what is read is the number of the digits, or the bound if
the number is larger (`Escape.hexValueCapped_eq`).  A number above the bound has no character, and
neither has the bound: the character is that of the number all the same (`Escape.charOf_capped`).

The bound is there because the digits are added up in a machine word: without it a long row of
digits would overflow.  It is larger than any code point, so it can be told from a character, and as
every number that is no scalar value is read as U+FFFD, which of them it was does not matter.
-/
import StyleLex.Proofs.Token.Spelled

namespace StyleLex
namespace Escape

/-- Escapes in braces, one after the other, and the numbers that their digits spell. -/
inductive Braced : List Nat → List UInt8 → Prop where
  | nil : Braced [] []
  | cons {number : Nat} {numbers : List Nat} {digits values rest : List UInt8}
      (written : Numeral.Digits 16 digits values) (filled : digits ≠ [])
      (spells : Nat.ofDigits 16 (values.reverse.map UInt8.toNat) = number)
      (more : Braced numbers rest) :
      Braced (number :: numbers)
        (Byte.backslash :: 0x75 :: Byte.leftBrace :: (digits ++ Byte.rightBrace :: rest))

/-- The character of a number; U+FFFD stands for one that is no scalar value. -/
def character (number : Nat) : Char :=
  if number.isValidChar then Char.ofNat number else '\uFFFD'

/-! ## 1. Digits under a bound

The bound is taken in every step; taking it once at the end gives the same, since a number above it
stays above. -/

/-- **Digits that are added up under a bound are their number, or the bound.** -/
theorem hexValueCapped_eq (digits : List UInt8) :
    hexValueCapped digits = min (hexValue digits) largest := by
  have hfold : ∀ (digits : List UInt8) (value : Nat),
      digits.foldl (fun value b => min (value * 16 + (Byte.digitValue b).toNat) largest)
          (min value largest) =
        min (digits.foldl (fun value b => value * 16 + (Byte.digitValue b).toNat) value)
          largest := by
    intro digits
    induction digits with
    | nil => exact fun _ => rfl
    | cons b digits ih =>
      intro value
      have hstep : min (min value largest * 16 + (Byte.digitValue b).toNat) largest =
          min (value * 16 + (Byte.digitValue b).toNat) largest := by omega
      rw [List.foldl_cons, List.foldl_cons, hstep, ih]
  exact hfold digits 0

/-- The bound has no character, and no larger number has one. -/
theorem charOf_capped (number : Nat) : charOf (min number largest) = character number := by
  rcases Nat.le_total number largest with hle | hle
  · rw [Nat.min_eq_left hle]
    rfl
  · have hsmall : ∀ n, largest ≤ n → ¬ n.isValidChar := by
      intro n hn hvalid
      unfold largest at hn
      rcases hvalid with hvalid | ⟨-, hvalid⟩ <;> omega
    rw [Nat.min_eq_right hle, charOf, if_neg (hsmall _ (Nat.le_refl _)), character,
      if_neg (hsmall _ hle)]
    rfl

/-! ## 2. Reading

Behind the digits stands the closing brace, so the run of digits is exactly what is between the
braces. -/

/-- No four digits stand behind an opening brace that is there itself. -/
theorem fixedHex?_brace (bytes : List UInt8) : fixedHex? 4 (Byte.leftBrace :: bytes) = none := by
  have hbrace : Byte.isHexadecimal Byte.leftBrace = false := by decide
  simp [fixedHex?, hbrace]

/-- **An escape in braces is read to its closing brace.** -/
theorem read?_braced {dialect : Dialect} (hextended : dialect.extendedEscapes = true)
    {digits values : List UInt8} (written : Numeral.Digits 16 digits values)
    (filled : digits ≠ []) (rest : List UInt8) :
    read? dialect
        (Byte.backslash :: 0x75 :: Byte.leftBrace :: (digits ++ Byte.rightBrace :: rest)) =
      some ⟨some (min (Nat.ofDigits 16 (values.reverse.map UInt8.toNat)) largest),
        digits.length + 4, true⟩ := by
  obtain ⟨hdigits, hvalue⟩ := Name.hexValue_of_digits written
  have hrun : (digits ++ Byte.rightBrace :: rest).takeWhile Byte.isHexadecimal = digits := by
    rw [List.takeWhile_append_of_pos hdigits, List.takeWhile_cons_of_neg (by decide),
      List.append_nil]
  have hbraced : readBraced (digits ++ Byte.rightBrace :: rest) =
      ⟨some (min (Nat.ofDigits 16 (values.reverse.map UInt8.toNat)) largest),
        digits.length + 4, true⟩ := by
    have hhead : (Byte.rightBrace :: rest).head? = some Byte.rightBrace := rfl
    simp only [readBraced, hrun, hexValueCapped_eq, hvalue, List.drop_left, hhead, beq_self_eq_true,
      if_true, Nat.add_assoc, Nat.add_comm 3]
  have hopen : ((digits ++ Byte.rightBrace :: rest).head? != some Byte.rightBrace) = true := by
    obtain ⟨b, tail, rfl⟩ := List.exists_cons_of_ne_nil filled
    have hb : Byte.isHexadecimal b = true := hdigits b List.mem_cons_self
    rw [bne_iff_ne]
    intro hhead
    obtain rfl : b = Byte.rightBrace := Option.some.inj hhead
    exact absurd hb (by decide)
  have hread : readExtended? (0x75 :: Byte.leftBrace :: (digits ++ Byte.rightBrace :: rest)) =
      some (readBraced (digits ++ Byte.rightBrace :: rest)) := by
    have hnamed : named? 0x75 = none := by decide
    have hletter : ((0x75 : UInt8) == 0x78) = false := by decide
    simp only [readExtended?, hnamed, hletter, fixedHex?_brace, hopen, beq_self_eq_true,
      Bool.and_self, Bool.false_eq_true, if_false, if_true]
  rw [read?_eq, hextended, if_pos rfl, hread, hbraced]
  simp

/-- **The first of some escapes in braces is read**, and the others follow. -/
theorem Braced.next {dialect : Dialect} (hextended : dialect.extendedEscapes = true)
    {number : Nat} {numbers : List Nat} {bytes : List UInt8}
    (h : Braced (number :: numbers) bytes) :
    ∃ n, read? dialect bytes = some ⟨some (min number largest), n, true⟩ ∧
      Braced numbers (bytes.drop n) := by
  cases h with
  | @cons _ _ digits values rest written filled spells more =>
    refine ⟨digits.length + 4, ?_, ?_⟩
    · rw [read?_braced hextended written filled, spells]
    · rw [List.drop_succ_cons, List.drop_succ_cons, List.drop_succ_cons,
        List.drop_length_add_append]
      exact more

end Escape
end StyleLex
