/-
# Where characters begin

In a text a character begins at every place where no continuation byte is (`Utf8.IsText.split`), so
one byte ahead tells whether a text may be cut here.  In particular a character begins behind every
ASCII byte, and behind the character that a backslash stands before (`Utf8.IsText.leads_behind`,
`Utf8.IsText.leads_behind_escaped`).

`IsText` is the hypothesis of this part of the theory: the bytes are those of a text, which is what
a caller with a string has.  A place in them is given by what is behind it, and whether a character
begins there is a question about one byte (`Leads`).  For places between characters of a string,
`Between` says it with strings, as a reader of the result would.
-/
import StyleLex.Proofs.Token.Encoded

namespace StyleLex
namespace Utf8

/-! ## 1. Places

That a byte which continues no character begins one is true in texts only, and the proof goes
through the text character by character. -/

/-- The bytes of some characters. -/
def IsText (bytes : List UInt8) : Prop :=
  ∃ chars : List Char, bytes = chars.flatMap String.utf8EncodeChar

/-- No character goes on here. -/
def Leads (rest : List UInt8) : Prop := ∀ b ∈ rest.head?, isContinuation b = false

/-- A place between two characters of a text, or at one of its ends. -/
def Between (text : String) (k : Nat) : Prop :=
  ∃ front back : String, text = front ++ back ∧ (encode front).length = k

/-- The bytes of a text are one. -/
theorem isText_encode (text : String) : IsText (encode text) :=
  ⟨text.toList, encode_eq_flatMap text⟩

/-- At the end no character goes on. -/
theorem leads_nil : Leads [] := nofun

/-- No ASCII byte continues a character. -/
theorem not_continuation_of_ascii {b : UInt8} (h : b < 0x80) : isContinuation b = false :=
  (lead_one (UInt8.lt_iff_toNat_lt.mp h)).2

/-- Where an ASCII byte is ahead, no character goes on. -/
theorem leads_of_head? {rest : List UInt8} {b : UInt8} (hb : rest.head? = some b) (h : b < 0x80) :
    Leads rest := by
  intro c hc
  obtain rfl : b = c := Option.some.inj (hb.symm.trans hc)
  exact not_continuation_of_ascii h

/-- **A text may be cut where no character goes on.** -/
theorem exists_split : ∀ (chars : List Char) (k : Nat),
    k ≤ (chars.flatMap String.utf8EncodeChar).length →
    Leads ((chars.flatMap String.utf8EncodeChar).drop k) →
    ∃ front back, chars = front ++ back ∧ (front.flatMap String.utf8EncodeChar).length = k
  | chars, 0, _, _ => ⟨[], chars, rfl, rfl⟩
  | [], k + 1, hk, _ => absurd hk (Nat.not_succ_le_zero k)
  | c :: chars, k + 1, hk, hleads => by
    obtain ⟨lead, more, hbytes, hsequence⟩ := encodeChar_eq c
    rw [List.flatMap_cons, hbytes, List.cons_append] at hk hleads
    rw [List.drop_succ_cons] at hleads
    rw [List.length_cons, List.length_append] at hk
    by_cases hinside : k < more.length
    · -- a place in the sequence of the character
      have hhead : ((more ++ chars.flatMap String.utf8EncodeChar).drop k).head? =
          some more[k] := by
        rw [List.head?_drop, List.getElem?_append_left hinside, List.getElem?_eq_getElem hinside]
      have hcontinues := hsequence.continues _ (List.getElem_mem hinside)
      rw [hleads _ hhead] at hcontinues
      cases hcontinues
    · obtain ⟨j, rfl⟩ := Nat.exists_eq_add_of_le (Nat.le_of_not_lt hinside)
      rw [← List.drop_drop, List.drop_left] at hleads
      obtain ⟨front, back, rfl, hfront⟩ := exists_split chars j (by omega) hleads
      refine ⟨c :: front, back, rfl, ?_⟩
      rw [List.flatMap_cons, hbytes, List.length_append, List.length_cons, hfront]
      omega

namespace IsText

variable {input rest : List UInt8} {i k : Nat} {b : UInt8}

/-- A text begins with a character. -/
theorem leads (h : IsText rest) : Leads rest := by
  obtain ⟨chars, rfl⟩ := h
  cases chars with
  | nil => exact leads_nil
  | cons c chars =>
    obtain ⟨lead, more, hbytes, hsequence⟩ := encodeChar_eq c
    rw [List.flatMap_cons, hbytes, List.cons_append]
    rintro _ ⟨⟩
    exact hsequence.leads

/-- Cut where a character begins, a text leaves two texts. -/
theorem split (h : IsText input) (hk : k ≤ input.length) (hleads : Leads (input.drop k)) :
    IsText (input.take k) ∧ IsText (input.drop k) := by
  obtain ⟨chars, rfl⟩ := h
  obtain ⟨front, back, rfl, rfl⟩ := exists_split chars k hk hleads
  rw [List.flatMap_append, List.take_left, List.drop_left]
  exact ⟨⟨front, rfl⟩, ⟨back, rfl⟩⟩

/-- What stands behind an ASCII byte is a text. -/
theorem behind (h : IsText input) (hb : (input.drop i).head? = some b) (hascii : b < 0x80) :
    IsText (input.drop (i + 1)) := by
  obtain ⟨chars, rfl⟩ := h
  obtain ⟨back, hback⟩ := List.head?_eq_some_iff.mp hb
  have hsplit : chars.flatMap String.utf8EncodeChar =
      (chars.flatMap String.utf8EncodeChar).take i ++ b :: back := by
    rw [← hback, List.take_append_drop]
  rw [← List.drop_drop, hback]
  exact exists_behind_ascii hascii back chars _ hsplit

/-- **A character begins behind every ASCII byte**, and hence behind some. -/
theorem leads_behind (h : IsText input) {n : Nat} (hn : 0 < n)
    (hascii : ∀ b ∈ (input.drop i).take n, b < 0x80) : Leads (input.drop (i + n)) := by
  obtain ⟨m, rfl⟩ := Nat.exists_eq_add_one_of_ne_zero (Nat.ne_of_gt hn)
  cases hlast : (input.drop (i + m)).head? with
  | none =>
    have hnil := List.head?_eq_none_iff.mp hlast
    rw [← Nat.add_assoc, ← List.drop_drop, hnil, List.drop_nil]
    exact leads_nil
  | some last =>
    refine (h.behind hlast (hascii last ?_)).leads
    rw [← List.drop_drop, List.head?_drop] at hlast
    rw [List.take_add_one, hlast]
    exact List.mem_append_right _ (List.mem_singleton_self last)

/-- **A character begins behind the one that a backslash stands before.** -/
theorem leads_behind_escaped (h : IsText input) {lead : UInt8} {more : List UInt8}
    (hahead : input.drop i = Byte.backslash :: lead :: more) :
    Leads (input.drop (i + (1 + sequenceLength lead))) := by
  obtain ⟨chars, hchars⟩ := h.behind (b := Byte.backslash) (by rw [hahead]; rfl) (by decide)
  rw [← List.drop_drop, hahead, List.drop_succ_cons, List.drop_zero] at hchars
  cases chars with
  | nil => cases hchars
  | cons c chars =>
    obtain ⟨first, tail, hbytes, hsequence⟩ := encodeChar_eq c
    rw [List.flatMap_cons, hbytes, List.cons_append] at hchars
    obtain ⟨rfl, rfl⟩ := List.cons.inj hchars
    rw [← List.drop_drop, hahead, Nat.add_comm, List.drop_succ_cons, hsequence.announced,
      List.drop_succ_cons, List.drop_left]
    exact leads ⟨chars, rfl⟩

/-- The bytes of a text are those of what they are decoded to. -/
theorem encode_decode (h : IsText rest) : encode (decode rest) = rest := by
  obtain ⟨chars, rfl⟩ := h
  rw [decode_flatMap, encode_eq_flatMap, String.toList_ofList]

end IsText

/-- Where no character of a text goes on, there is one in front and another one behind. -/
theorem between_of_leads {text : String} {k : Nat} (hk : k ≤ (encode text).length)
    (hleads : Leads ((encode text).drop k)) : Between text k := by
  rw [encode_eq_flatMap] at hk hleads
  obtain ⟨front, back, hchars, hfront⟩ := exists_split text.toList k hk hleads
  refine ⟨String.ofList front, String.ofList back, ?_, ?_⟩
  · rw [← String.ofList_append, ← hchars, String.ofList_toList]
  · rw [encode_eq_flatMap, String.toList_ofList]
    exact hfront

/-- **What is cut out of a text is encoded back to its bytes.** -/
theorem encode_decode_slice {input : List UInt8} {start stop : Nat} (h : IsText input)
    (hle : start ≤ stop) (hstop : stop ≤ input.length) (hstart : Leads (input.drop start))
    (hend : Leads (input.drop stop)) :
    encode (decode ((input.drop start).take (stop - start))) =
      (input.drop start).take (stop - start) := by
  obtain ⟨-, htext⟩ := h.split (Nat.le_trans hle hstop) hstart
  have hcut : Leads ((input.drop start).drop (stop - start)) := by
    rw [List.drop_drop, Nat.add_sub_cancel' hle]
    exact hend
  exact (htext.split (by rw [List.length_drop]; omega) hcut).1.encode_decode

/-! ## 2. Texts in parts

Facts about whole texts that are put together from parts. -/

section Parts

variable {bytes : List UInt8}

/-- Decoding undoes encoding. -/
theorem decode_encode (text : String) : decode (encode text) = text := by
  rw [encode_eq_flatMap, decode_flatMap, String.ofList_toList]

/-- **A text has as many characters as bytes that begin one.** -/
theorem IsText.length_decode (h : IsText bytes) :
    (decode bytes).length = bytes.countP fun b => !isContinuation b := by
  obtain ⟨chars, rfl⟩ := h
  rw [decode_flatMap, String.length_ofList]
  induction chars with
  | nil => rfl
  | cons c chars ih =>
    obtain ⟨lead, more, hbytes, hsequence⟩ := encodeChar_eq c
    have hmore : more.countP (fun b => !isContinuation b) = 0 :=
      List.countP_eq_zero.mpr fun b hb => by simp [hsequence.continues b hb]
    rw [List.length_cons, ih, List.flatMap_cons, List.countP_append, hbytes, List.countP_cons,
      hmore, hsequence.leads]
    exact Nat.add_comm _ _

/-- A run of a text is a text, if only ASCII ends it. -/
theorem IsText.takeWhile (h : IsText bytes) {p : UInt8 → Bool}
    (hp : ∀ b, p b = false → b < 0x80) : IsText (bytes.takeWhile p) := by
  have hsplit := List.takeWhile_append_dropWhile (p := p) (l := bytes)
  have hrest : bytes.drop (bytes.takeWhile p).length = bytes.dropWhile p := by
    have hdrop := congrArg (List.drop (bytes.takeWhile p).length) hsplit
    rw [List.drop_left] at hdrop
    exact hdrop.symm
  have hcut : Leads (bytes.drop (bytes.takeWhile p).length) := by
    rw [hrest]
    intro b hb
    have hnot := List.head?_dropWhile_not p bytes
    rw [hb] at hnot
    exact not_continuation_of_ascii (hp b hnot)
  have hfront := (h.split (List.takeWhile_prefix p).length_le hcut).1
  rw [← List.prefix_iff_eq_take.mp (List.takeWhile_prefix p)] at hfront
  exact hfront

end Parts

end Utf8
end StyleLex
