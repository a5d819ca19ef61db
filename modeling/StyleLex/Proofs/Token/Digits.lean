/-
# The digits of a hash

A hash gathers digits from the bytes that are written, run by run and escape by escape, and its
value is made of the same children, as text.  The two say the same: a run of digits is its own
text, and any other run has a text that is not all digits (`sameDigits_decode`); an escape is a
digit if its text is one (`Gathers.escaped`).

So what a hash has gathered hangs on its text alone (`Gathers`): it is the digits, if the text has
nothing else, and else nothing.  Every child keeps it so, and when the hash closes, its color can
be read off the text (`Gathers.settle`).

Two sorts of bytes are compared, those written in the source and those of the decoded text.  They
differ where the source is no valid text, as a byte that begins no character is decoded as a
replacement, and where an escape stands for a character.  Neither makes a digit out of something
else: a character that is no digit is encoded with a byte that is no digit, and a byte that is no
digit begins no character that is one.

`Follows` deals with one byte in advance: a hash looks at the byte behind its sign when it opens,
and if that is no digit, it has ruled out a color before any child was read.
-/
import StyleLex.Proofs.Scan.Step

namespace StyleLex

/-! ## 1. The bytes of a text

The bytes of a text, character by character. -/

namespace Utf8

/-- A text is encoded one character after the other. -/
theorem encode_eq_flatMap (text : String) :
    encode text = text.toList.flatMap String.utf8EncodeChar := by
  rw [encode, String.toUTF8_eq_toByteArray, ← String.utf8Encode_toList, List.utf8Encode]
  exact List.toList_data_toByteArray

/-- Texts are encoded part by part. -/
@[simp] theorem encode_append (text more : String) :
    encode (text ++ more) = encode text ++ encode more := by
  simp [encode_eq_flatMap]

/-- One character more is encoded behind the others. -/
@[simp] theorem encode_push (text : String) (c : Char) :
    encode (text.push c) = encode text ++ String.utf8EncodeChar c := by
  simp [encode_eq_flatMap]

/-- The text of one character. -/
theorem encode_toString (c : Char) : encode c.toString = String.utf8EncodeChar c := by
  simp [encode_eq_flatMap]

end Utf8

/-! ## 2. Digits and characters

Digits are ASCII, so code point, character and byte are the same number for them. -/

namespace Byte

variable {b : UInt8} {n : Nat}

/-- Digits are ASCII, and none is below the digit zero. -/
theorem isHexadecimal_range (h : isHexadecimal b = true) : 48 ≤ b.toNat ∧ b.toNat < 128 := by
  obtain ⟨⟨b⟩⟩ := b
  revert b
  decide +kernel

/-- A valid code point is that of its character. -/
theorem toNat_ofNat (h : n.isValidChar) : (Char.ofNat n).toNat = n := by
  rw [Char.ofNat, dif_pos h]
  rfl

/-- The character of a byte has the byte as its code point. -/
theorem toNat_toChar (b : UInt8) : (toChar b).toNat = b.toNat :=
  toNat_ofNat (Or.inl (by have := b.toNat_lt; omega))

/-- Only the code point of a digit has the digit as its character. -/
theorem eq_toNat_of_ofNat_eq (hb : isHexadecimal b = true) (h : Char.ofNat n = toChar b) :
    n = b.toNat := by
  by_cases hvalid : n.isValidChar
  · rw [← toNat_toChar, ← h, toNat_ofNat hvalid]
  · -- the character is the first of all then, which is no digit
    have hzero : (toChar b).toNat = 0 := by
      rw [← h, Char.ofNat, dif_neg hvalid]
      rfl
    have hrange := isHexadecimal_range hb
    rw [toNat_toChar] at hzero
    omega

/-- A digit is encoded as itself. -/
theorem encodeChar_toChar (h : isHexadecimal b = true) :
    String.utf8EncodeChar (toChar b) = [b] := by
  have hvalue : (toChar b).val.toNat = b.toNat := toNat_toChar b
  have hrange := isHexadecimal_range h
  rw [String.utf8EncodeChar]
  simp only [hvalue]
  rw [if_pos (by omega), UInt8.ofNat_toNat]

/-- A character that is no digit has a byte that is none. -/
theorem all_encodeChar {c : Char} (h : ∀ b, isHexadecimal b = true → c ≠ toChar b) :
    (String.utf8EncodeChar c).all isHexadecimal = false := by
  have hlead : ∀ n, 192 ≤ n → n < 256 → isHexadecimal (UInt8.ofNat n) = false := by
    intro n hlow hhigh
    rw [Bool.eq_false_iff]
    intro hdigit
    have hrange := isHexadecimal_range hdigit
    rw [UInt8.toNat_ofNat_of_lt' hhigh] at hrange
    omega
  rw [String.utf8EncodeChar]
  split
  · rename_i hascii
    rw [List.all_cons, List.all_nil, Bool.and_true, Bool.eq_false_iff]
    intro hdigit
    refine h _ hdigit ?_
    rw [toChar, UInt8.toNat_ofNat_of_lt' (show c.val.toNat < 256 by omega)]
    exact (Char.ofNat_toNat c).symm
  · split
    · rw [List.all_cons, hlead _ (by omega) (by omega), Bool.false_and]
    · split
      · rw [List.all_cons, hlead _ (by omega) (by omega), Bool.false_and]
      · rw [List.all_cons, hlead _ (by omega) (by omega), Bool.false_and]

/-- A code point that is no digit has a character that is none. -/
theorem all_encode_ofNat (h : ∀ b, isHexadecimal b = true → n ≠ b.toNat) :
    (String.utf8EncodeChar (Char.ofNat n)).all isHexadecimal = false :=
  all_encodeChar fun b hb heq => h b hb (eq_toNat_of_ofNat_eq hb heq)

/-- A code point beyond ASCII is no digit. -/
theorem ne_digit_of_le (hn : 128 ≤ n) : ∀ b, isHexadecimal b = true → n ≠ b.toNat := by
  intro b hb
  have := isHexadecimal_range hb
  omega

/-- A byte that is no digit is the code point of none. -/
theorem ne_digit_of_not (h : isHexadecimal b = false) :
    ∀ d, isHexadecimal d = true → b.toNat ≠ d.toNat := by
  rintro d hd heq
  rw [UInt8.toNat_inj.mp heq, hd] at h
  cases h

end Byte

/-! ## 3. Digits and runs

A run is decoded character by character.  The first byte decides whether the character is a digit,
in each of the lengths that a character can have. -/

namespace Utf8

/-- A lead byte of two has enough bits to be beyond ASCII. -/
theorem scalar_two {lead : UInt8} (h : (0xC2 ≤ lead && lead ≤ 0xDF) = true) :
    sequenceLength lead = 2 ∧ 2 ≤ (lead &&& 0x1F).toNat := by
  obtain ⟨⟨lead⟩⟩ := lead
  revert lead
  decide +kernel

/-- A lead byte of three has too, or it is the lowest one. -/
theorem scalar_three {lead : UInt8} (h : (0xE0 ≤ lead && lead ≤ 0xEF) = true) :
    sequenceLength lead = 3 ∧ (lead = 0xE0 ∨ 1 ≤ (lead &&& 0x0F).toNat) := by
  obtain ⟨⟨lead⟩⟩ := lead
  revert lead
  decide +kernel

/-- A lead byte of four has too, or it is the lowest one. -/
theorem scalar_four {lead : UInt8} (h : (0xF0 ≤ lead && lead ≤ 0xF4) = true) :
    sequenceLength lead = 4 ∧ (lead = 0xF0 ∨ 1 ≤ (lead &&& 0x07).toNat) := by
  obtain ⟨⟨lead⟩⟩ := lead
  revert lead
  decide +kernel

/-- What may follow the lowest lead bytes keeps the form from being overlong. -/
theorem second_of_lowest {second : UInt8}
    (h : isSecondOfThree 0xE0 second = true ∨ isSecondOfFour 0xF0 second = true) :
    2 ≤ (second &&& 0x3F).toNat := by
  obtain ⟨⟨second⟩⟩ := second
  revert second
  decide +kernel

/-- **A byte that is no digit begins a character that is none.** -/
theorem firstChar_of_not_hexadecimal {lead : UInt8} (h : Byte.isHexadecimal lead = false)
    (rest : List UInt8) : ∃ n, (firstChar lead rest).1 = Char.ofNat n ∧
      ∀ b, Byte.isHexadecimal b = true → n ≠ b.toNat := by
  have hreplaced : ∃ n, replacement = Char.ofNat n ∧
      ∀ b, Byte.isHexadecimal b = true → n ≠ b.toNat :=
    ⟨0xFFFD, rfl, Byte.ne_digit_of_le (by decide)⟩
  -- ASCII, then characters of two, three and four bytes; what is not well formed is replaced
  unfold firstChar
  split
  · exact ⟨lead.toNat, rfl, Byte.ne_digit_of_not h⟩
  · split
    · rename_i htwo
      obtain ⟨hlength, hlead⟩ := scalar_two htwo
      split
      · rename_i second _
        split
        · refine ⟨_, rfl, Byte.ne_digit_of_le ?_⟩
          simp only [scalarAt, hlength, extendScalar]
          omega
        · exact hreplaced
      · exact hreplaced
    · split
      · rename_i hthree
        obtain ⟨hlength, hlead⟩ := scalar_three hthree
        split
        · rename_i second third _
          split
          · exact hreplaced
          · rename_i hsecond
            split
            · exact hreplaced
            · refine ⟨_, rfl, Byte.ne_digit_of_le ?_⟩
              simp only [scalarAt, hlength, extendScalar]
              rcases hlead with rfl | hlead
              · have := second_of_lowest (Or.inl (by simpa using hsecond))
                omega
              · omega
        · exact hreplaced
        · exact hreplaced
      · split
        · rename_i hfour
          obtain ⟨hlength, hlead⟩ := scalar_four hfour
          split
          · rename_i second third fourth _
            split
            · exact hreplaced
            · rename_i hsecond
              split
              · exact hreplaced
              · split
                · exact hreplaced
                · refine ⟨_, rfl, Byte.ne_digit_of_le ?_⟩
                  simp only [scalarAt, hlength, extendScalar]
                  rcases hlead with rfl | hlead
                  · have := second_of_lowest (Or.inr (by simpa using hsecond))
                    omega
                  · omega
          · exact hreplaced
          · exact hreplaced
          · exact hreplaced
        · exact hreplaced

/-- A digit is a character of its own. -/
theorem firstChar_of_hexadecimal {lead : UInt8} (h : Byte.isHexadecimal lead = true)
    (rest : List UInt8) : firstChar lead rest = (Byte.toChar lead, 0) := by
  have hascii : lead < 0x80 := UInt8.lt_iff_toNat_lt.mpr (Byte.isHexadecimal_range h).2
  rw [firstChar.eq_def, if_pos hascii]
  rfl

/-- Text that goes on keeps what it has. -/
theorem all_encode_decodeOnto (skip : Nat) (bytes : List UInt8) {text : String}
    (h : (encode text).all Byte.isHexadecimal = false) :
    (encode (decodeOnto text skip bytes)).all Byte.isHexadecimal = false := by
  induction bytes generalizing skip text with
  | nil => cases skip <;> exact h
  | cons lead rest ih =>
    cases skip with
    | zero => exact ih _ (by rw [encode_push, List.all_append, h, Bool.false_and])
    | succ skip => exact ih skip h

/-- Two strings of bytes are the same to a color: they are equal, or neither is all digits. -/
def SameDigits (written text : List UInt8) : Prop :=
  written = text ∨
    written.all Byte.isHexadecimal = false ∧ text.all Byte.isHexadecimal = false

/-- **A run and its text are the same to a color.** -/
theorem sameDigits_decode (run : List UInt8) : SameDigits run (encode (decode run)) := by
  have hdigits : ∀ (run : List UInt8) (text : String), run.all Byte.isHexadecimal = true →
      encode (decodeOnto text 0 run) = encode text ++ run := by
    intro run
    induction run with
    | nil => simp [decodeOnto]
    | cons lead rest ih =>
      intro text hall
      rw [List.all_cons, Bool.and_eq_true] at hall
      rw [decodeOnto, firstChar_of_hexadecimal hall.1]
      dsimp only
      rw [ih _ hall.2, encode_push, Byte.encodeChar_toChar hall.1, List.append_assoc,
        List.singleton_append]
  -- the first byte that is no digit begins a character that is none, and that one stays
  have hother : ∀ (run : List UInt8) (text : String), run.all Byte.isHexadecimal = false →
      (encode (decodeOnto text 0 run)).all Byte.isHexadecimal = false := by
    intro run
    induction run with
    | nil => intro text hall; cases hall
    | cons lead rest ih =>
      intro text hall
      rw [decodeOnto]
      cases hlead : Byte.isHexadecimal lead with
      | true =>
        rw [List.all_cons, hlead, Bool.true_and] at hall
        rw [firstChar_of_hexadecimal hlead]
        exact ih _ hall
      | false =>
        obtain ⟨n, hchar, hn⟩ := firstChar_of_not_hexadecimal hlead rest
        refine all_encode_decodeOnto _ rest ?_
        rw [encode_push, hchar, List.all_append, Byte.all_encode_ofNat hn, Bool.and_false]
  cases hall : run.all Byte.isHexadecimal with
  | true => exact Or.inl (hdigits run "" hall).symm
  | false => exact Or.inr ⟨hall, hother run "" hall⟩

end Utf8

/-! ## 4. What a hash gathers

The hash itself: it keeps digits as long as it has seen nothing else, and drops them for good when
it does. -/

namespace Hash

/-- What a hash has gathered of some bytes: the digits, if they are all digits, and else
nothing. -/
inductive Gathers (hash : Hash) (bytes : List UInt8) : Prop where
  | kept (color : hash.color = .unchecked) (digits : hash.digits.toList = bytes)
      (all : bytes.all Byte.isHexadecimal = true)
  | ruledOut (color : hash.color = .invalid) (digits : hash.digits = #[])
      (other : bytes.all Byte.isHexadecimal = false)

/-- What is gathered does not change whether the hash is a name. -/
@[simp] theorem isName_accumulate (hash : Hash) (b : UInt8) :
    (hash.accumulate b).isName = hash.isName := by
  unfold accumulate
  split
  · rfl
  · split <;> rfl

/-- Nor does a run. -/
@[simp] theorem isName_foldl (run : List UInt8) (hash : Hash) :
    (run.foldl accumulate hash).isName = hash.isName := by
  induction run generalizing hash with
  | nil => rfl
  | cons b rest ih => rw [List.foldl_cons, ih, isName_accumulate]

/-- Nor does an escape. -/
@[simp] theorem isName_escaped (reading : Escape.Reading) (hash : Hash) :
    (Scan.Hash.escaped reading hash).isName = hash.isName := by
  unfold Scan.Hash.escaped accumulateCodepoint
  split
  · split
    · exact isName_accumulate _ _
    · rfl
  · rfl

/-- Nor does settling. -/
@[simp] theorem isName_settle (hash : Hash) : hash.settle.isName = hash.isName := by
  unfold settle
  split <;> rfl

namespace Gathers

variable {hash : Hash} {bytes : List UInt8}

/-- One more byte is gathered. -/
theorem accumulate (h : hash.Gathers bytes) (b : UInt8) :
    (hash.accumulate b).Gathers (bytes ++ [b]) := by
  cases h with
  | kept color digits all =>
    rw [Hash.accumulate, if_neg (by rw [color]; decide)]
    cases hb : Byte.isHexadecimal b with
    | true => exact .kept color (by simp [digits]) (by simp [all, hb])
    | false => exact .ruledOut rfl rfl (by simp [hb])
  | ruledOut color digits other =>
    rw [Hash.accumulate, if_pos color]
    exact .ruledOut color digits (by rw [List.all_append, other, Bool.false_and])

/-- A run is gathered byte by byte. -/
theorem foldl (run : List UInt8) (h : hash.Gathers bytes) :
    (run.foldl Hash.accumulate hash).Gathers (bytes ++ run) := by
  induction run generalizing hash bytes with
  | nil => rwa [List.append_nil]
  | cons b rest ih =>
    rw [List.foldl_cons, List.append_cons]
    exact ih (h.accumulate b)

/-- What is the same to a color is gathered alike. -/
theorem congr {written text : List UInt8} (h : hash.Gathers (bytes ++ written))
    (hsame : Utf8.SameDigits written text) : hash.Gathers (bytes ++ text) := by
  rcases hsame with rfl | ⟨hwritten, htext⟩
  · exact h
  · cases h with
    | kept color digits all =>
      rw [List.all_append, hwritten, Bool.and_false] at all
      cases all
    | ruledOut color digits other =>
      exact .ruledOut color digits (by rw [List.all_append, htext, Bool.and_false])

/-- **An escape gathers its text**: the digit that it stands for, or what rules a color out. -/
theorem escaped {reading : Escape.Reading} (h : hash.Gathers bytes)
    (hread : reading.codepoint.isSome = true) :
    (Scan.Hash.escaped reading hash).Gathers
      (bytes ++ Utf8.encode (Escape.text ⟨reading.codepoint⟩)) := by
  obtain ⟨codepoint, hcodepoint⟩ := Option.isSome_iff_exists.mp hread
  have htext : Utf8.encode (Escape.text ⟨reading.codepoint⟩) =
      String.utf8EncodeChar (Escape.charOf codepoint) := by
    rw [hcodepoint]
    exact Utf8.encode_toString _
  rw [htext, Scan.Hash.escaped, hcodepoint]
  -- a code point that is no digit has another character, or none and so the replacement
  have hother : (∀ b, Byte.isHexadecimal b = true → codepoint ≠ b.toNat) →
      (String.utf8EncodeChar (Escape.charOf codepoint)).all Byte.isHexadecimal = false := by
    intro hne
    unfold Escape.charOf
    -- a code point below 256 is gathered as a byte, any other one rules a color out
    split
    · exact Byte.all_encode_ofNat hne
    · exact Byte.all_encode_ofNat (Byte.ne_digit_of_le (by decide))
  dsimp only
  rw [accumulateCodepoint]
  split
  · rename_i hbyte
    have hvalue : (UInt8.ofNat codepoint).toNat = codepoint := UInt8.toNat_ofNat_of_lt' hbyte
    refine (h.accumulate (UInt8.ofNat codepoint)).congr ?_
    cases hdigit : Byte.isHexadecimal (UInt8.ofNat codepoint) with
    | true =>
      refine Or.inl ?_
      have hvalid : codepoint.isValidChar := Or.inl (by omega)
      have hchar : Escape.charOf codepoint = Byte.toChar (UInt8.ofNat codepoint) := by
        rw [Escape.charOf, if_pos hvalid, Byte.toChar, hvalue]
      rw [hchar, Byte.encodeChar_toChar hdigit]
    | false =>
      refine Or.inr ⟨by simp [hdigit], hother ?_⟩
      rw [← hvalue]
      exact Byte.ne_digit_of_not hdigit
  · rename_i hlarge
    refine .ruledOut rfl rfl ?_
    rw [List.all_append, hother (Byte.ne_digit_of_le (by omega)), Bool.and_false]

end Gathers

/-! ## 5. What a hash settles

Settling looks at how many digits there are, if there is nothing else. -/

/-- A color is written with hexadecimal digits only, three, four, six or eight of them. -/
def SpellsColor (text : List UInt8) : Prop :=
  text.all Byte.isHexadecimal = true ∧ text.length ∈ [3, 4, 6, 8]

/-- **The color of a hash that closes can be read off its text**, and its digits are the text if it
is one. -/
theorem Gathers.settle {hash : Hash} {text : List UInt8} (h : hash.Gathers text) :
    hash.settle.color = .valid ∧ SpellsColor text ∧ hash.settle.digits.toList = text ∨
      hash.settle.color = .invalid ∧ ¬ SpellsColor text ∧ hash.settle.digits = #[] := by
  cases h with
  | kept color digits all =>
    rw [Hash.settle, ← Array.length_toList, digits]
    by_cases hcount : text.length ∈ colorDigitCounts
    · rw [if_pos ⟨by rw [color]; decide, hcount⟩]
      exact Or.inl ⟨rfl, ⟨all, hcount⟩, digits⟩
    · rw [if_neg fun h => hcount h.2]
      exact Or.inr ⟨rfl, fun h => hcount h.2, rfl⟩
  | ruledOut color digits other =>
    rw [Hash.settle, if_neg fun h => h.1 color]
    exact Or.inr ⟨rfl, fun h => Bool.false_ne_true (other.symm.trans h.1), rfl⟩

/-! ## 6. What a hash begins with

The beginning of a hash, and its first child. -/

/-- A hash goes on from what it has gathered of its text.  While it has none, it may have looked at
the byte ahead, and found it to be no digit. -/
def Follows (hash : Hash) (text rest : List UInt8) : Prop :=
  hash.Gathers text ∨ text = [] ∧ ∃ b tail, rest = b :: tail ∧ Byte.isName b = true ∧
    Byte.isHexadecimal b = false ∧ hash.Gathers [b]

/-- **A hash begins with its sign**, and it is a name if a name begins behind that. -/
theorem begin?_eq_some {ahead : List UInt8} {hash : Hash} (h : begin? ahead = some hash) :
    ∃ b tail, ahead = Byte.hash :: b :: tail ∧
      (hash.isName = true ↔ Byte.isNameStart b = true ∨ b = Byte.backslash) ∧
      hash.Follows [] (b :: tail) := by
  cases ahead with
  | nil => cases h
  | cons sign rest =>
    rw [begin?] at h
    split at h
    · rename_i hsign
      obtain rfl := beq_iff_eq.mp hsign
      cases rest with
      | nil => cases h
      | cons b tail =>
        refine ⟨b, tail, rfl, ?_⟩
        rw [List.head?_cons] at h
        dsimp only at h
        split at h
        · rename_i hname
          cases h
          have hother : b ≠ Byte.backslash := by
            rintro rfl
            cases hname
          refine ⟨by simp [hother], ?_⟩
          cases hdigit : Byte.isHexadecimal b with
          | true => exact Or.inl (.kept rfl rfl rfl)
          | false =>
            exact Or.inr ⟨rfl, b, tail, rfl, hname, hdigit, .ruledOut rfl rfl (by simp [hdigit])⟩
        · split at h
          · rename_i hbegins
            cases h
            obtain ⟨next, further, heq, -⟩ := Escape.begins_iff.mp hbegins
            obtain ⟨rfl, -⟩ := List.cons.inj heq
            exact ⟨by simp, Or.inl (.kept rfl rfl rfl)⟩
          · cases h
    · cases h

namespace Follows

variable {hash : Hash} {text rest : List UInt8}

/-- A run begins with the byte that was looked at. -/
theorem foldl (h : hash.Follows text rest) (hrun : rest.takeWhile Byte.isName ≠ []) :
    ((rest.takeWhile Byte.isName).foldl accumulate hash).Gathers
      (text ++ rest.takeWhile Byte.isName) := by
  rcases h with h | ⟨rfl, b, tail, rfl, hname, hdigit, h⟩
  · exact h.foldl _
  · rw [List.takeWhile_cons, if_pos hname, List.foldl_cons]
    have hstays : hash.accumulate b = hash := by
      cases h with
      | kept color digits all => simp [hdigit] at all
      | ruledOut color digits other => rw [accumulate, if_pos color]
    rw [hstays]
    exact h.foldl _

/-- The same by the text of the run, which is that of the leaf. -/
theorem run (h : hash.Follows text rest) (hrun : rest.takeWhile Byte.isName ≠ []) :
    ((rest.takeWhile Byte.isName).foldl accumulate hash).Gathers
      (text ++ Utf8.encode (Utf8.decode (rest.takeWhile Byte.isName))) :=
  (h.foldl hrun).congr (Utf8.sameDigits_decode _)

/-- Where an escape is read, no byte was looked at. -/
theorem escaped {dialect : Dialect} {reading : Escape.Reading} (h : hash.Follows text rest)
    (hread : Escape.read? dialect rest = some reading) :
    (Scan.Hash.escaped reading hash).Gathers
      (text ++ Utf8.encode (Escape.text ⟨reading.codepoint⟩)) := by
  rcases h with h | ⟨rfl, b, tail, rfl, hname, -, -⟩
  · exact h.escaped (Escape.isSome_codepoint hread)
  · have hbegins : Escape.begins (b :: tail) = true := by
      rw [← Escape.isSome_read? dialect, hread]
      rfl
    obtain ⟨next, further, heq, -⟩ := Escape.begins_iff.mp hbegins
    obtain ⟨rfl, -⟩ := List.cons.inj heq
    cases hname

/-- Where the name is complete, what was looked at has been gathered. -/
theorem gathers (h : hash.Follows text rest) (hdone : ¬ Scan.NameAhead rest) :
    hash.Gathers text := by
  rcases h with h | ⟨rfl, b, tail, rfl, hname, -, -⟩
  · exact h
  · exact absurd (Or.inl (by simpa using hname)) hdone

end Follows
end Hash
end StyleLex
