/-
# Encoded characters

The bytes of a character are a lead byte and the continuation bytes that it announces
(`Utf8.encodeChar_eq`), and the three readings of UTF-8 agree on them: the code point of the
sequence is the character's (`Utf8.scalarAt_encodeChar`), and decoding goes on right behind it
(`Utf8.decodeOnto_encoded`).  So decoding undoes encoding (`Utf8.decode_flatMap`).

An ASCII byte in a text stands for itself, and behind it stands the rest of a text
(`Utf8.exists_behind_ascii`).

Lean's encoding of characters and the reader's decoding were written independently, so that the two
fit is something to prove.  `Encoded` writes the four lengths out in numbers, so that the arithmetic
of shifts and masks becomes linear arithmetic with quotients and remainders.

The decoder accepts well formed sequences only, and its conditions on the second byte, which exclude
overlong forms and surrogates, hold because a character is a scalar value.
-/
import StyleLex.Proofs.Token.Digits

namespace StyleLex
namespace Utf8

/-! ## 1. The bytes of a character

What a byte announces depends on its range, and the bits it contributes are the byte without the
announcement. -/

/-- A lead byte, and the continuation bytes that it announces. -/
structure Sequence (lead : UInt8) (more : List UInt8) : Prop where
  announced : sequenceLength lead = more.length + 1
  continues : ∀ b ∈ more, isContinuation b = true
  leads : isContinuation lead = false
  /-- An ASCII byte announces nothing. -/
  ascii : lead < 0x80 ↔ more = []

/-- A continuation byte contributes six bits. -/
theorem continuation_of_range {b : UInt8} (h : 0x80 ≤ b.toNat ∧ b.toNat < 0xC0) :
    isContinuation b = true ∧ (b &&& 0x3F).toNat + 0x80 = b.toNat := by
  obtain ⟨⟨b⟩⟩ := b
  revert b
  decide +kernel

/-- An ASCII byte is a character of its own. -/
theorem lead_one {b : UInt8} (h : b.toNat < 0x80) :
    sequenceLength b = 1 ∧ isContinuation b = false := by
  obtain ⟨⟨b⟩⟩ := b
  revert b
  decide +kernel

/-- A lead byte of two bytes contributes five bits. -/
theorem lead_two {b : UInt8} (h : 0xC0 ≤ b.toNat ∧ b.toNat < 0xE0) :
    sequenceLength b = 2 ∧ isContinuation b = false ∧ (b &&& 0x1F).toNat + 0xC0 = b.toNat := by
  obtain ⟨⟨b⟩⟩ := b
  revert b
  decide +kernel

/-- A lead byte of three bytes contributes four. -/
theorem lead_three {b : UInt8} (h : 0xE0 ≤ b.toNat ∧ b.toNat < 0xF0) :
    sequenceLength b = 3 ∧ isContinuation b = false ∧ (b &&& 0x0F).toNat + 0xE0 = b.toNat := by
  obtain ⟨⟨b⟩⟩ := b
  revert b
  decide +kernel

/-- A lead byte of four bytes contributes three. -/
theorem lead_four {b : UInt8} (h : 0xF0 ≤ b.toNat ∧ b.toNat < 0xF8) :
    sequenceLength b = 4 ∧ isContinuation b = false ∧ (b &&& 0x07).toNat + 0xF0 = b.toNat := by
  obtain ⟨⟨b⟩⟩ := b
  revert b
  decide +kernel

/-- The four lengths of a character, with the bytes of each. -/
inductive Encoded (c : Char) (lead : UInt8) : List UInt8 → Prop where
  | one (range : c.toNat < 0x80) (first : lead.toNat = c.toNat) : Encoded c lead []
  | two {b : UInt8} (range : 0x80 ≤ c.toNat ∧ c.toNat < 0x800)
      (first : lead.toNat = c.toNat / 64 + 0xC0) (second : b.toNat = c.toNat % 64 + 0x80) :
      Encoded c lead [b]
  | three {b d : UInt8} (range : 0x800 ≤ c.toNat ∧ c.toNat < 0x10000)
      (first : lead.toNat = c.toNat / 4096 + 0xE0) (second : b.toNat = c.toNat / 64 % 64 + 0x80)
      (third : d.toNat = c.toNat % 64 + 0x80) : Encoded c lead [b, d]
  | four {b d e : UInt8} (range : 0x10000 ≤ c.toNat)
      (first : lead.toNat = c.toNat / 262144 + 0xF0)
      (second : b.toNat = c.toNat / 4096 % 64 + 0x80) (third : d.toNat = c.toNat / 64 % 64 + 0x80)
      (fourth : e.toNat = c.toNat % 64 + 0x80) : Encoded c lead [b, d, e]

/-- A character is a scalar value: below U+110000, and no surrogate. -/
theorem toNat_range (c : Char) :
    c.toNat < 0x110000 ∧ ¬ (0xD800 ≤ c.toNat ∧ c.toNat < 0xE000) := by
  have hvalid : c.toNat < 0xD800 ∨ 0xDFFF < c.toNat ∧ c.toNat < 0x110000 := c.valid
  omega

/-- A character is encoded in one of the four lengths. -/
theorem exists_encoded (c : Char) :
    ∃ lead more, String.utf8EncodeChar c = lead :: more ∧ Encoded c lead more := by
  have hrange := toNat_range c
  have hbyte : ∀ {n : Nat}, n < 256 → (UInt8.ofNat n).toNat = n := UInt8.toNat_ofNat_of_lt'
  rw [String.utf8EncodeChar]
  simp only [show c.val.toNat = c.toNat from rfl]
  split
  · exact ⟨_, _, rfl, .one (by omega) (hbyte (by omega))⟩
  · split
    · refine ⟨_, _, rfl, .two (by omega) ((hbyte ?_).trans ?_) (hbyte ?_)⟩ <;> omega
    · split
      · refine ⟨_, _, rfl, .three (by omega) ((hbyte ?_).trans ?_) (hbyte ?_) (hbyte ?_)⟩ <;> omega
      · refine ⟨_, _, rfl, .four (by omega) ((hbyte ?_).trans ?_) (hbyte ?_) (hbyte ?_)
          (hbyte ?_)⟩ <;> omega

variable {c : Char} {lead : UInt8} {more : List UInt8}

/-- In each of them the bytes are one sequence. -/
theorem Encoded.sequence (h : Encoded c lead more) : Sequence lead more := by
  have hrange := toNat_range c
  have hascii : ∀ {b : UInt8}, b < 0x80 ↔ b.toNat < 0x80 := UInt8.lt_iff_toNat_lt
  have hmore : ∀ {b : UInt8}, 0x80 ≤ b.toNat ∧ b.toNat < 0xC0 → isContinuation b = true :=
    fun h => (continuation_of_range h).1
  cases h with
  | one range first =>
    obtain ⟨hlength, hlead⟩ := lead_one (first ▸ range)
    exact ⟨hlength, List.forall_mem_nil _, hlead, iff_of_true (hascii.mpr (first ▸ range)) rfl⟩
  | two range first second =>
    obtain ⟨hlength, hlead, -⟩ := lead_two (b := lead) (by omega)
    refine ⟨hlength, ?_, hlead, iff_of_false (by rw [hascii]; omega) (List.cons_ne_nil _ _)⟩
    rw [List.forall_mem_singleton]
    exact hmore (by omega)
  | three range first second third =>
    obtain ⟨hlength, hlead, -⟩ := lead_three (b := lead) (by omega)
    refine ⟨hlength, ?_, hlead, iff_of_false (by rw [hascii]; omega) (List.cons_ne_nil _ _)⟩
    rw [List.forall_mem_cons, List.forall_mem_singleton]
    exact ⟨hmore (by omega), hmore (by omega)⟩
  | four range first second third fourth =>
    obtain ⟨hlength, hlead, -⟩ := lead_four (b := lead) (by omega)
    refine ⟨hlength, ?_, hlead, iff_of_false (by rw [hascii]; omega) (List.cons_ne_nil _ _)⟩
    rw [List.forall_mem_cons, List.forall_mem_cons, List.forall_mem_singleton]
    exact ⟨hmore (by omega), hmore (by omega), hmore (by omega)⟩

/-- **The bytes of a character are one sequence.** -/
theorem encodeChar_eq (c : Char) :
    ∃ lead more, String.utf8EncodeChar c = lead :: more ∧ Sequence lead more := by
  obtain ⟨lead, more, hbytes, h⟩ := exists_encoded c
  exact ⟨lead, more, hbytes, h.sequence⟩

/-! ## 2. Reading it back

Three functions read a character back: one finds its code point, one decides whether the bytes are
well formed, and one goes through a whole text. -/

/-- The code point of the sequence is the character's, whatever comes behind it. -/
theorem Encoded.scalarAt_eq (h : Encoded c lead more) (rest : List UInt8) :
    scalarAt (lead :: (more ++ rest)) = c.toNat := by
  have hrange := toNat_range c
  have hmore : ∀ {b : UInt8}, 0x80 ≤ b.toNat ∧ b.toNat < 0xC0 →
      (b &&& 0x3F).toNat + 0x80 = b.toNat := fun h => (continuation_of_range h).2
  cases h with
  | one range first =>
    obtain ⟨hlength, -⟩ := lead_one (first ▸ range)
    rw [scalarAt, hlength]
    exact first
  | @two b range first second =>
    obtain ⟨hlength, -, hlead⟩ := lead_two (b := lead) (by omega)
    have hsecond := hmore (b := b) (by omega)
    rw [scalarAt, hlength]
    simp only [List.cons_append, List.nil_append, extendScalar]
    omega
  | @three b d range first second third =>
    obtain ⟨hlength, -, hlead⟩ := lead_three (b := lead) (by omega)
    have hsecond := hmore (b := b) (by omega)
    have hthird := hmore (b := d) (by omega)
    rw [scalarAt, hlength]
    simp only [List.cons_append, List.nil_append, extendScalar]
    omega
  | @four b d e range first second third fourth =>
    obtain ⟨hlength, -, hlead⟩ := lead_four (b := lead) (by omega)
    have hsecond := hmore (b := b) (by omega)
    have hthird := hmore (b := d) (by omega)
    have hfourth := hmore (b := e) (by omega)
    rw [scalarAt, hlength]
    simp only [List.cons_append, List.nil_append, extendScalar]
    omega

/-- The same of the bytes of a character. -/
theorem scalarAt_encodeChar (c : Char) (rest : List UInt8) :
    scalarAt (String.utf8EncodeChar c ++ rest) = c.toNat := by
  obtain ⟨lead, more, hbytes, h⟩ := exists_encoded c
  rw [hbytes, List.cons_append]
  exact h.scalarAt_eq rest

/-- Comparing bytes is comparing their numbers. -/
theorem between_iff {low high b : UInt8} :
    (low ≤ b && b ≤ high) = true ↔ low.toNat ≤ b.toNat ∧ b.toNat ≤ high.toNat := by
  rw [Bool.and_eq_true, decide_eq_true_eq, decide_eq_true_eq, UInt8.le_iff_toNat_le,
    UInt8.le_iff_toNat_le]

/-- Behind the lead byte of three bytes, no byte makes the form overlong or a surrogate. -/
theorem isSecondOfThree_of {a b : UInt8} (ha : 0xE0 ≤ a.toNat)
    (hb : 0x80 ≤ b.toNat ∧ b.toNat < 0xC0) (hlong : a.toNat = 0xE0 → 0xA0 ≤ b.toNat)
    (hscalar : a.toNat = 0xED → b.toNat < 0xA0) : isSecondOfThree a b = true := by
  unfold isSecondOfThree
  split
  · rename_i hfirst
    obtain rfl : a = 0xE0 := by simpa using hfirst
    have := hlong rfl
    simp only [between_iff, UInt8.reduceToNat]
    omega
  · split
    · rename_i hlast
      obtain rfl : a = 0xED := by simpa using hlast
      have := hscalar rfl
      simp only [between_iff, UInt8.reduceToNat]
      omega
    · simp only [between_iff, UInt8.reduceToNat]
      omega

/-- Behind the lead byte of four bytes, no byte makes the form overlong or too large. -/
theorem isSecondOfFour_of {a b : UInt8} (hb : 0x80 ≤ b.toNat ∧ b.toNat < 0xC0)
    (hlong : a.toNat = 0xF0 → 0x90 ≤ b.toNat) (hscalar : a.toNat = 0xF4 → b.toNat < 0x90) :
    isSecondOfFour a b = true := by
  unfold isSecondOfFour
  split
  · rename_i hfirst
    obtain rfl : a = 0xF0 := by simpa using hfirst
    have := hlong rfl
    simp only [between_iff, UInt8.reduceToNat]
    omega
  · split
    · rename_i hlast
      obtain rfl : a = 0xF4 := by simpa using hlast
      have := hscalar rfl
      simp only [between_iff, UInt8.reduceToNat]
      omega
    · simp only [between_iff, UInt8.reduceToNat]
      omega

/-- **Decoding finds the character**, and takes no byte behind it. -/
theorem Encoded.firstChar_eq (h : Encoded c lead more) (rest : List UInt8) :
    firstChar lead (more ++ rest) = (c, more.length) := by
  have hscalar := h.scalarAt_eq rest
  have hchar : Char.ofNat c.toNat = c := Char.ofNat_toNat c
  have hrange := toNat_range c
  have hmore : ∀ {b : UInt8}, 0x80 ≤ b.toNat ∧ b.toNat < 0xC0 → isContinuation b = true :=
    fun h => (continuation_of_range h).1
  have hascii : lead < 0x80 ↔ lead.toNat < 0x80 := UInt8.lt_iff_toNat_lt
  have htwo : (0xC2 ≤ lead && lead ≤ 0xDF) = true ↔ 0xC2 ≤ lead.toNat ∧ lead.toNat ≤ 0xDF :=
    between_iff
  have hthree : (0xE0 ≤ lead && lead ≤ 0xEF) = true ↔ 0xE0 ≤ lead.toNat ∧ lead.toNat ≤ 0xEF :=
    between_iff
  have hfour : (0xF0 ≤ lead && lead ≤ 0xF4) = true ↔ 0xF0 ≤ lead.toNat ∧ lead.toNat ≤ 0xF4 :=
    between_iff
  -- the decoder tries the lengths in this order, by the range of the first byte
  cases h with
  | one range first =>
    rw [firstChar.eq_def, if_pos (by rw [hascii]; omega), first, hchar]
    rfl
  | @two b range first second =>
    have hb := hmore (b := b) (by omega)
    rw [firstChar.eq_def, if_neg (by rw [hascii]; omega), if_pos (by rw [htwo]; omega)]
    simp only [List.cons_append, List.nil_append, hb, if_true] at hscalar ⊢
    rw [hscalar, hchar]
    rfl
  | @three b d range first second third =>
    have hb : isSecondOfThree lead b = true :=
      isSecondOfThree_of (by omega) (by omega) (by omega) (by omega)
    have hd := hmore (b := d) (by omega)
    rw [firstChar.eq_def, if_neg (by rw [hascii]; omega), if_neg (by rw [htwo]; omega),
      if_pos (by rw [hthree]; omega)]
    simp only [List.cons_append, List.nil_append, hb, hd, Bool.not_true, Bool.false_eq_true,
      if_false] at hscalar ⊢
    rw [hscalar, hchar]
    rfl
  | @four b d e range first second third fourth =>
    have hb : isSecondOfFour lead b = true :=
      isSecondOfFour_of (by omega) (by omega) (by omega)
    have hd := hmore (b := d) (by omega)
    have he := hmore (b := e) (by omega)
    rw [firstChar.eq_def, if_neg (by rw [hascii]; omega), if_neg (by rw [htwo]; omega),
      if_neg (by rw [hthree]; omega), if_pos (by rw [hfour]; omega)]
    simp only [List.cons_append, List.nil_append, hb, hd, he, Bool.not_true, Bool.false_eq_true,
      if_false] at hscalar ⊢
    rw [hscalar, hchar]
    rfl

/-- Bytes that are not announced are not looked at. -/
theorem extendScalar_take : ∀ {n k : Nat}, n ≤ k → ∀ (scalar : Nat) (bytes : List UInt8),
    extendScalar n scalar (bytes.take k) = extendScalar n scalar bytes
  | 0, _, _, _, _ => by rw [extendScalar, extendScalar]
  | _ + 1, _ + 1, _, _, [] => rfl
  | n + 1, k + 1, h, scalar, b :: rest => by
    rw [List.take_succ_cons, extendScalar, extendScalar,
      extendScalar_take (Nat.le_of_succ_le_succ h)]

/-- A code point is read off the bytes that its first byte announces. -/
theorem scalarAt_take (lead : UInt8) (rest : List UInt8) {k : Nat}
    (h : sequenceLength lead ≤ k + 1) :
    scalarAt (lead :: rest.take k) = scalarAt (lead :: rest) := by
  rw [scalarAt, scalarAt]
  split <;> rename_i hlength
  · rw [extendScalar_take (by omega)]
  · rw [extendScalar_take (by omega)]
  · rw [extendScalar_take (by omega)]
  · rfl

/-- The bytes of a character that was decoded are passed over. -/
theorem decodeOnto_skip (text : String) : ∀ (more rest : List UInt8),
    decodeOnto text more.length (more ++ rest) = decodeOnto text 0 rest
  | [], rest => rfl
  | _ :: more, rest => by
    rw [List.cons_append, List.length_cons, decodeOnto]
    exact decodeOnto_skip text more rest

/-- A character that was encoded is put behind the text so far. -/
theorem decodeOnto_encodeChar (text : String) (c : Char) (rest : List UInt8) :
    decodeOnto text 0 (String.utf8EncodeChar c ++ rest) = decodeOnto (text.push c) 0 rest := by
  obtain ⟨lead, more, hbytes, h⟩ := exists_encoded c
  rw [hbytes, List.cons_append, decodeOnto, h.firstChar_eq]
  exact decodeOnto_skip _ more rest

/-- **Decoding goes on behind what was encoded.** -/
theorem decodeOnto_encoded (rest : List UInt8) : ∀ (chars : List Char) (text : String),
    decodeOnto text 0 (chars.flatMap String.utf8EncodeChar ++ rest) =
      decodeOnto (text ++ String.ofList chars) 0 rest
  | [], text => by
    rw [List.flatMap_nil, List.nil_append, String.ofList_nil, String.append_empty]
  | c :: chars, text => by
    rw [List.flatMap_cons, List.append_assoc, decodeOnto_encodeChar, decodeOnto_encoded rest chars]
    congr 1
    rw [← String.toList_inj]
    simp

/-- **The bytes of characters are decoded to these.** -/
theorem decode_flatMap (chars : List Char) :
    decode (chars.flatMap String.utf8EncodeChar) = String.ofList chars := by
  have h := decodeOnto_encoded [] chars ""
  rwa [List.append_nil, String.empty_append] at h

/-! ## 3. Places in a text

ASCII bytes never belong to longer characters, so a text may be cut behind one. -/

/-- **Behind an ASCII byte of a text stands the rest of a text.** -/
theorem exists_behind_ascii {b : UInt8} (hascii : b < 0x80) (back : List UInt8) :
    ∀ (chars : List Char) (front : List UInt8),
    chars.flatMap String.utf8EncodeChar = front ++ b :: back →
    ∃ further : List Char, back = further.flatMap String.utf8EncodeChar
  | [], front, h => by
    rw [List.flatMap_nil] at h
    exact absurd h.symm (by simp)
  | c :: chars, front, h => by
    obtain ⟨lead, more, hbytes, hsequence⟩ := encodeChar_eq c
    rw [List.flatMap_cons] at h
    rcases List.append_eq_append_iff.mp h with ⟨behind, -, hrest⟩ | ⟨behind, hfront, hrest⟩
    · exact exists_behind_ascii hascii back chars behind hrest
    · cases behind with
      | nil => exact exists_behind_ascii hascii back chars [] hrest.symm
      | cons x behind =>
        obtain ⟨rfl, hback⟩ := List.cons.inj hrest
        rw [hbytes] at hfront
        -- the byte is in the sequence of the character, so it is all of it
        cases front with
        | nil =>
          obtain ⟨rfl, rfl⟩ := List.cons.inj hfront
          rw [hsequence.ascii.mp hascii] at hback
          exact ⟨chars, hback⟩
        | cons y front =>
          obtain ⟨rfl, rfl⟩ := List.cons.inj hfront
          have hcontinues := hsequence.continues b (by simp)
          have hnot : isContinuation b = false :=
            (lead_one (UInt8.lt_iff_toNat_lt.mp hascii)).2
          rw [hnot] at hcontinues
          cases hcontinues

end Utf8
end StyleLex
