/-
# Where an extension has nothing to read

Each extension is about a few words, such as `0x` or `//`: bytes that must be there for it to read
anything.  `Occurs` finds such a word anywhere in some bytes, letters in either case.  A word that
occurs in a part of the bytes occurs in the bytes (`Occurs.of_drop`), so bytes without it are
without it wherever a scan stands.

Here is what the readers of single tokens make of that: without a backslash there is no escape,
and numerals without separators, dots and prefixes are read alike with and without extensions
(`Numeral.read?_plain`).

The words are given as texts and compared in lower case, because letters in prefixes of numbers and
in the name of an address may be of either case.  For the other words the comparison in lower case
is the comparison of bytes, as they have no letters.
-/
import StyleLex.Proofs.Token.Numeral

namespace StyleLex

/-! ## 1. Words

A word that is found in front of some position is found in the bytes. -/

/-- An uppercase letter as the lowercase one; any other byte as it is. -/
def Byte.lowercase (b : UInt8) : UInt8 := if Byte.isUppercase b then b + 0x20 else b

/-- Comparison in either case is comparison in lower case. -/
theorem Byte.lowercase_of_isLetterOf {letter b : UInt8} (hletter : isLowercase letter = true)
    (h : isLetterOf letter b = true) : lowercase b = letter := by
  obtain rfl := beq_iff_eq.mp h
  clear h
  obtain ⟨⟨b⟩⟩ := b
  revert b
  decide +kernel

/-- Is the word somewhere in the bytes, its letters in either case?  Words are in lower case. -/
def Occurs (word : String) (bytes : List UInt8) : Prop :=
  Utf8.encode word <:+: bytes.map Byte.lowercase

namespace Occurs

variable {word : String} {bytes : List UInt8}

/-- What occurs further on occurs. -/
theorem of_drop {n : Nat} (h : Occurs word (bytes.drop n)) : Occurs word bytes := by
  rw [Occurs, List.map_drop] at h
  exact h.trans (List.drop_suffix n _).isInfix

/-- What is at the front occurs. -/
theorem of_front {front : List UInt8} (hfront : front <+: bytes)
    (h : front.map Byte.lowercase = Utf8.encode word) : Occurs word bytes := by
  rw [Occurs, ← h]
  exact (hfront.map Byte.lowercase).isInfix

/-- A word of one byte occurs where the byte does. -/
theorem of_mem {b : UInt8} (hin : b ∈ bytes) (h : Utf8.encode word = [Byte.lowercase b]) :
    Occurs word bytes := by
  obtain ⟨before, after, rfl⟩ := List.append_of_mem hin
  refine ⟨before.map Byte.lowercase, after.map Byte.lowercase, ?_⟩
  simp [h]

end Occurs

/-! ## 2. Escapes

Without a backslash no reader of escapes accepts, whatever the dialect. -/

/-- Escapes begin with a backslash. -/
theorem Escape.backslash_of_read? {dialect : Dialect} {bytes : List UInt8} {reading : Reading}
    (h : read? dialect bytes = some reading) : Byte.backslash ∈ bytes := by
  cases bytes with
  | nil => cases h
  | cons b rest =>
    rw [read?] at h
    split at h
    · rename_i hb
      simp [beq_iff_eq.mp hb]
    · cases h

/-! ## 3. Numerals

Each extension of numerals is one place in the reader where a flag is asked.  Without the bytes it
is about, the part is read as if the flag were not set. -/

namespace Numeral

variable {p : UInt8 → Bool} {bytes : List UInt8} {extended : Bool}

/-- Digits are separated by separators only.  By induction on the bytes. -/
theorem digitsOnto_plain (separated : Bool) {digits : Array UInt8} {length : Nat}
    (h : Byte.underscore ∉ bytes) :
    digitsOnto p separated digits length bytes = digitsOnto p false digits length bytes := by
  induction bytes generalizing digits length with
  | nil => rfl
  | cons b rest ih =>
    simp only [List.mem_cons, not_or] at h
    have hb : (b == Byte.underscore) = false := beq_eq_false_iff_ne.mpr (Ne.symm h.1)
    simp [digitsOnto, hb, ih h.2]

/-- So is a whole run. -/
theorem digitRun_plain (separated : Bool) (h : Byte.underscore ∉ bytes) :
    digitRun p separated bytes = digitRun p false bytes := by
  rw [digitRun, digitRun, digitsOnto_plain separated h]

/-- Without separators none is at the end. -/
theorem trailingLength_plain (extended : Bool) (h : Byte.underscore ∉ bytes) :
    trailingLength extended bytes = 0 := by
  cases bytes with
  | nil => rfl
  | cons b rest =>
    have hb : (b == Byte.underscore) = false := by
      simpa using Ne.symm (List.ne_of_not_mem_cons h)
    simp [trailingLength, hb]

/-- Without a dot there is no fraction. -/
theorem readFraction_plain (extended : Bool) (h : Byte.dot ∉ bytes) :
    readFraction extended bytes = ([], 0) := by
  cases bytes with
  | nil => rfl
  | cons b rest =>
    have hb : (b == Byte.dot) = false := by
      simpa using Ne.symm (List.ne_of_not_mem_cons h)
    simp [readFraction, hb]

/-- An exponent has digits, and they may be separated. -/
theorem readExponent_plain (extended : Bool) (h : Byte.underscore ∉ bytes) :
    readExponent extended bytes = readExponent false bytes := by
  cases bytes with
  | nil => rfl
  | cons mark rest =>
    have hdigits : Byte.underscore ∉ rest.drop (readSign rest).1 :=
      fun hin => h (List.mem_cons_of_mem _ (List.mem_of_mem_drop hin))
    simp only [readExponent, digitRun_plain extended hdigits]

/-- So a decimal number is read alike, part by part. -/
theorem readDecimal?_plain (extended : Bool) (hseparator : Byte.underscore ∉ bytes)
    (hdot : Byte.dot ∉ bytes) : readDecimal? extended bytes = readDecimal? false bytes := by
  have hdrop : ∀ {b : UInt8} {n : Nat}, b ∉ bytes → b ∉ bytes.drop n :=
    fun h hin => h (List.mem_of_mem_drop hin)
  simp only [readDecimal?, List.drop_drop, digitRun_plain extended (hdrop hseparator),
    readFraction_plain _ (hdrop hdot), readExponent_plain extended (hdrop hseparator),
    trailingLength_plain _ (hdrop hseparator)]

/-- A prefixed number has its prefix. -/
theorem occurs_of_readPrefixed? {base : Nat} {letter : UInt8} {word : String}
    {numeral : Numeral} {n : Nat} (hletter : Byte.isLowercase letter = true)
    (hword : Utf8.encode word = [Byte.zero, letter])
    (h : readPrefixed? base letter bytes = some (numeral, n)) : Occurs word bytes := by
  obtain ⟨lead, mark, rest, hdrop, hcond, -, -⟩ := readPrefixed?_eq_some.mp h
  simp only [Bool.and_eq_true, beq_iff_eq] at hcond
  obtain ⟨⟨rfl, hmark⟩, -⟩ := hcond
  refine Occurs.of_drop (n := (readSign bytes).1) ?_
  rw [hdrop]
  have hfront : [Byte.zero, mark] <+: Byte.zero :: mark :: rest := ⟨rest, rfl⟩
  refine Occurs.of_front hfront ?_
  simp [hword, Byte.lowercase_of_isLetterOf hletter hmark]
  decide

/-- **Plain numerals are read alike with and without extensions.** -/
theorem read?_plain (extended : Bool)
    (h : ∀ word ∈ ["_", ".", "0b", "0o", "0x"], ¬ Occurs word bytes) :
    read? extended bytes = read? false bytes := by
  cases extended with
  | false => rfl
  | true =>
    have hprefixed : ∀ (base : Nat) (letter : UInt8) (word : String),
        Byte.isLowercase letter = true → Utf8.encode word = [Byte.zero, letter] →
        word ∈ ["_", ".", "0b", "0o", "0x"] → readPrefixed? base letter bytes = none := by
      intro base letter word hletter hword hin
      refine Option.eq_none_iff_forall_ne_some.mpr fun found hfound => ?_
      exact h word hin (occurs_of_readPrefixed? hletter hword hfound)
    have hseparator : Byte.underscore ∉ bytes := fun hin => h "_" (by simp) (.of_mem hin rfl)
    have hdot : Byte.dot ∉ bytes := fun hin => h "." (by simp) (.of_mem hin rfl)
    rw [read?_true, hprefixed 2 0x62 "0b" (by decide) rfl (by simp),
      hprefixed 8 0x6F "0o" (by decide) rfl (by simp),
      hprefixed 16 0x78 "0x" (by decide) rfl (by simp), readDecimal?_plain true hseparator hdot]
    rfl

end Numeral
end StyleLex
