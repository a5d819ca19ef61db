/-
# Where a text may be cut

Bytes are decoded character by character, and an ill-formed part counts as one.  Cut between two
of these, and the parts have the texts that the whole has there (`Utf8.Boundary.decode_eq`); a cut
inside one leaves ill-formed bytes on both sides.

This is about any bytes, well formed or not.  Replacement characters make it delicate: three bytes
that begin a character of four are one replacement, and cut after the first they are several.  So a
boundary is defined by the decoder itself, as a place where it begins a character.

It is used for hashes that are resumed, whose text is read in two pieces.
-/
import StyleLex.Proofs.Token.Encoded

namespace StyleLex
namespace Utf8

/-- A place between the characters of some bytes, ill-formed parts included. -/
inductive Boundary : List UInt8 → Nat → Prop where
  | front {bytes : List UInt8} : Boundary bytes 0
  | behind {lead : UInt8} {rest : List UInt8} {n : Nat}
      (further : Boundary (rest.drop (firstChar lead rest).2) n) :
      Boundary (lead :: rest) (1 + (firstChar lead rest).2 + n)

/-- **A character is decoded from the bytes that belong to it.**  Where the bytes end sooner, a
sequence is as ill-formed as it was. -/
theorem firstChar_take (lead : UInt8) (rest : List UInt8) {k : Nat}
    (hk : (firstChar lead rest).2 ≤ k) : firstChar lead (rest.take k) = firstChar lead rest := by
  have hscalar : ∀ {n}, sequenceLength lead = n + 1 → n ≤ k →
      scalarAt (lead :: rest.take k) = scalarAt (lead :: rest) :=
    fun hlength hn => scalarAt_take lead rest (by omega)
  rw [firstChar.eq_def lead rest] at hk ⊢
  rw [firstChar.eq_def]
  by_cases hascii : lead < 0x80
  · rw [if_pos hascii, if_pos hascii]
  rw [if_neg hascii] at hk ⊢
  rw [if_neg hascii]
  -- of each length: the bytes may end before the cut, at it, or behind it
  by_cases htwo : (0xC2 ≤ lead && lead ≤ 0xDF) = true
  · rw [if_pos htwo] at hk ⊢
    rw [if_pos htwo]
    obtain ⟨hlow, hhigh⟩ := between_iff.mp htwo
    have hvalue := hscalar (lead_two (by simp at hlow hhigh; omega)).1
    clear hscalar
    rcases rest with _ | ⟨a, tail⟩ <;> rcases k with _ | k <;>
      simp only [List.take_succ_cons, List.take_zero, List.take_nil] at * <;> grind
  rw [if_neg htwo] at hk ⊢
  rw [if_neg htwo]
  by_cases hthree : (0xE0 ≤ lead && lead ≤ 0xEF) = true
  · rw [if_pos hthree] at hk ⊢
    rw [if_pos hthree]
    obtain ⟨hlow, hhigh⟩ := between_iff.mp hthree
    have hvalue := hscalar (lead_three (by simp at hlow hhigh; omega)).1
    clear hscalar
    rcases rest with _ | ⟨a, _ | ⟨b, tail⟩⟩ <;> rcases k with _ | _ | k <;>
      simp only [List.take_succ_cons, List.take_zero, List.take_nil] at * <;> grind
  rw [if_neg hthree] at hk ⊢
  rw [if_neg hthree]
  by_cases hfour : (0xF0 ≤ lead && lead ≤ 0xF4) = true
  · rw [if_pos hfour] at hk ⊢
    rw [if_pos hfour]
    obtain ⟨hlow, hhigh⟩ := between_iff.mp hfour
    have hvalue := hscalar (lead_four (by simp at hlow hhigh; omega)).1
    clear hscalar
    rcases rest with _ | ⟨a, _ | ⟨b, _ | ⟨c, tail⟩⟩⟩ <;> rcases k with _ | _ | _ | k <;>
      simp only [List.take_succ_cons, List.take_zero, List.take_nil] at * <;> grind
  · rw [if_neg hfour, if_neg hfour]

/-- The text so far stays in front, and bytes that belong to it are passed over. -/
theorem decodeOnto_eq : ∀ (bytes : List UInt8) (text : String) (skip : Nat),
    decodeOnto text skip bytes = text ++ decode (bytes.drop skip)
  | [], text, skip => by
    rw [List.drop_nil, decode, decodeOnto, decodeOnto, String.append_empty]
  | b :: rest, text, skip + 1 => by
    rw [decodeOnto, List.drop_succ_cons]
    exact decodeOnto_eq rest text skip
  | lead :: rest, text, 0 => by
    rw [List.drop_zero, decode, decodeOnto, decodeOnto]
    rw [decodeOnto_eq rest, decodeOnto_eq rest, ← String.append_assoc]
    congr 1

/-- The first character, and then what is behind it. -/
theorem decode_cons (lead : UInt8) (rest : List UInt8) :
    decode (lead :: rest) =
      (firstChar lead rest).1.toString ++ decode (rest.drop (firstChar lead rest).2) := by
  rw [decode, decodeOnto, decodeOnto_eq]
  rfl

/-- **Between two characters a text may be cut.** -/
theorem Boundary.decode_eq {bytes : List UInt8} {k : Nat} (h : Boundary bytes k) :
    decode bytes = decode (bytes.take k) ++ decode (bytes.drop k) := by
  induction h with
  | front => exact String.empty_append.symm
  | @behind lead rest n further ih =>
    rw [Nat.add_assoc, Nat.add_comm 1, List.take_succ_cons, List.drop_succ_cons, decode_cons,
      decode_cons, firstChar_take lead rest (Nat.le_add_right _ n), ih, String.append_assoc,
      List.take_drop, List.drop_drop]

/-- An ASCII byte is a character by itself. -/
theorem Boundary.behind_ascii {lead : UInt8} {rest : List UInt8} {n : Nat}
    (hascii : lead < 0x80) (h : Boundary (lead :: rest) (n + 1)) : Boundary rest n := by
  have hnone : (firstChar lead rest).2 = 0 := by rw [firstChar.eq_def, if_pos hascii]
  generalize hk : n + 1 = k at h
  cases h with
  | front => cases hk
  | @behind _ _ m further =>
    rw [hnone] at hk further
    obtain rfl : n = m := by omega
    exact further

end Utf8
end StyleLex
