/-
# Numerals are settled

A numeral is the longest text that reads as one, so a reader of numerals looks past what it takes:
for a digit after a separator, for one after a dot, for one after an exponent mark.  Wherever it
finds one it takes it; so nothing that it leaves behind has a part in what it took
(`Numeral.settles_read?`).  A numeral takes at least one byte (`Numeral.read?_pos`).

That a reading is settled (`Settles`) means that cutting the source behind what it took changes
nothing, and that a cut never makes a numeral where there was none.  It is shown from the parts to
the whole: a run of digits, a fraction, an exponent, the separators at the end, and then the two
sorts of numerals.  The lemmas `…_append` say it of one part, in the form that if the part ends
within `a`, it is the same with `b` behind `a` or without.

The part that needs care is a digit separator.  It is taken only before a digit, and the digit may
be cut off.  But a run that takes the separator takes the digit as well, so such a run does not end
before the cut.
-/
import StyleLex.Proofs.Token.Settled

namespace StyleLex
namespace Numeral

variable {p : UInt8 → Bool} {separated extended : Bool}

/-! ## 1. Digits

Digits are gathered by `digitsOnto`, from the array and the length so far; the statements are about
these two at once, by induction on the bytes. -/

/-- What begins with a digit still does with more bytes behind. -/
theorem beginsWith_append {a : List UInt8} (h : beginsWith p a = true) (b : List UInt8) :
    beginsWith p (a ++ b) = true := by
  cases a with
  | nil => cases h
  | cons x rest => exact h

/-- Only the first byte counts. -/
theorem beginsWith_of_ne_nil {a : List UInt8} (hne : a ≠ []) (b : List UInt8) :
    beginsWith p (a ++ b) = beginsWith p a := by
  rw [beginsWith, beginsWith, head?_append_of_ne_nil hne]

/-- Gathering digits gives no byte back. -/
theorem le_digitsOnto (p : UInt8 → Bool) (separated : Bool) :
    ∀ (bytes : List UInt8) (digits : Array UInt8) (length : Nat),
    length ≤ (digitsOnto p separated digits length bytes).2
  | [], _, _ => Nat.le_refl _
  | b :: rest, digits, length => by
    rw [digitsOnto]
    split
    · exact Nat.le_of_succ_le (le_digitsOnto p separated rest _ _)
    · split
      · exact Nat.le_of_succ_le (le_digitsOnto p separated rest _ _)
      · exact Nat.le_refl _

/-- Where no byte was taken, no digit was. -/
theorem digitsOnto_eq_self {bytes : List UInt8} {digits : Array UInt8} {length : Nat}
    (h : (digitsOnto p separated digits length bytes).2 ≤ length) :
    digitsOnto p separated digits length bytes = (digits, length) := by
  cases bytes with
  | nil => rfl
  | cons b rest =>
    rw [digitsOnto] at h ⊢
    split at h
    · have := le_digitsOnto p separated rest
        (digits.push (Byte.digitValue b)) (length + 1)
      omega
    · split at h
      · have := le_digitsOnto p separated rest digits (length + 1)
        omega
      · rename_i h₁ h₂
        rw [if_neg h₁, if_neg h₂]

/-- Digits that end inside `a` are digits of `a`. -/
theorem digitsOnto_append (p : UInt8 → Bool) (separated : Bool) :
    ∀ (a b : List UInt8) (digits : Array UInt8) (length : Nat),
    (digitsOnto p separated digits length (a ++ b)).2 ≤ length + a.length →
    digitsOnto p separated digits length (a ++ b) = digitsOnto p separated digits length a
  | [], b, digits, length, h => by
    rw [List.nil_append] at h ⊢
    exact digitsOnto_eq_self h
  | x :: rest, b, digits, length, h => by
    rw [List.length_cons] at h
    rw [List.cons_append, digitsOnto] at h ⊢
    rw [digitsOnto]
    split at h
    · rename_i hx
      rw [if_pos hx, if_pos hx]
      exact digitsOnto_append p separated rest b _ _ (by omega)
    · rename_i hx
      rw [if_neg hx, if_neg hx]
      split at h
      · rename_i hsep
        rw [if_pos hsep]
        have hrest : rest ≠ [] := by
          rintro rfl
          have hb : beginsWith p b = true := by
            simp only [List.nil_append, Bool.and_eq_true] at hsep
            exact hsep.2
          cases b with
          | nil => cases hb
          | cons y further =>
            have hy : p y = true := by simpa [beginsWith] using hb
            rw [List.nil_append, digitsOnto, if_pos hy] at h
            have := le_digitsOnto p separated further
              (digits.push (Byte.digitValue y)) (length + 1 + 1)
            simp only [List.length_nil] at h
            omega
        rw [beginsWith_of_ne_nil hrest] at hsep
        rw [if_pos hsep]
        exact digitsOnto_append p separated rest b _ _ (by omega)
      · rename_i hsep
        rw [if_neg hsep]
        rw [if_neg]
        intro hcut
        simp only [Bool.and_eq_true] at hcut hsep
        exact hsep ⟨hcut.1, beginsWith_append hcut.2 b⟩

/-- The same for a whole run, which begins with nothing gathered. -/
theorem digitRun_append {a b : List UInt8} (h : (digitRun p separated (a ++ b)).2 ≤ a.length) :
    digitRun p separated (a ++ b) = digitRun p separated a := by
  have := digitsOnto_append p separated a b #[] 0
    (by simpa [digitRun] using h)
  rw [digitRun, digitRun, this]

/-- A digit ahead is taken. -/
theorem digitRun_pos (separated : Bool) {bytes : List UInt8} (h : beginsWith p bytes = true) :
    0 < (digitRun p separated bytes).2 := by
  cases bytes with
  | nil => cases h
  | cons b rest =>
    have hb : p b = true := by simpa [beginsWith] using h
    rw [digitRun]
    simp only [digitsOnto, if_pos hb]
    exact le_digitsOnto _ _ rest _ 1

/-- Separators at the end are settled as well: one is taken, or two, and a cut between the two is a
cut inside. -/
theorem trailingLength_append {a b : List UInt8}
    (h : trailingLength extended (a ++ b) ≤ a.length) :
    trailingLength extended (a ++ b) = trailingLength extended a := by
  cases a with
  | nil =>
    rw [List.nil_append] at h ⊢
    exact Nat.le_zero.mp h
  | cons x rest =>
    cases rest with
    | nil =>
      rw [List.cons_append, List.nil_append, trailingLength] at h ⊢
      rw [trailingLength]
      split at h
      · rename_i hx
        rw [if_pos hx, if_pos hx]
        split at h
        · simp at h
        · rename_i hb
          rw [if_neg hb]
          rfl
      · rename_i hx
        rw [if_neg hx, if_neg hx]
    | cons y further => rfl

/-! ## 2. Parts

A part that is absent takes nothing, so the first question for each is whether the cut may hide it.
It may not if the part is there and ends before the cut. -/

/-- A sign is the first byte or none. -/
theorem readSign_append {a : List UInt8} (h : a ≠ []) (b : List UInt8) :
    readSign (a ++ b) = readSign a := by
  cases a with
  | nil => exact absurd rfl h
  | cons x rest => rfl

/-- Without extensions a dot needs a digit behind it, and a fraction that ends before the cut has it
there. -/
theorem readFraction_append {a b : List UInt8}
    (h : (readFraction extended (a ++ b)).2 ≤ a.length) :
    readFraction extended (a ++ b) = readFraction extended a := by
  cases a with
  | nil =>
    cases b with
    | nil => rfl
    | cons y further =>
      rw [List.nil_append, readFraction] at h ⊢
      split at h
      · simp at h
      · rename_i hy
        rw [if_neg hy]
        rfl
  | cons x rest =>
    rw [List.cons_append, readFraction] at h ⊢
    rw [readFraction]
    split at h
    · rename_i hx
      have hrun : (digitRun Byte.isDecimal extended (rest ++ b)).2 ≤ rest.length := by
        simpa using h
      have hcut : (x == Byte.dot && (extended || beginsWith Byte.isDecimal rest)) = true := by
        cases rest with
        | nil =>
          cases extended with
          | true => simpa using hx
          | false =>
            simp only [Bool.false_or, Bool.and_eq_true] at hx
            have := digitRun_pos false hx.2
            simp only [List.length_nil] at hrun
            omega
        | cons y further => exact hx
      rw [if_pos hx, if_pos hcut, digitRun_append hrun]
    · rename_i hx
      rw [if_neg hx, if_neg]
      intro hcut
      simp only [Bool.and_eq_true, Bool.or_eq_true] at hcut hx
      exact hx ⟨hcut.1, hcut.2.imp id fun hb => beginsWith_append hb b⟩

/-- A sign is among the bytes. -/
theorem readSign_le (bytes : List UInt8) : (readSign bytes).1 ≤ bytes.length := by
  cases bytes with
  | nil => exact Nat.le_refl _
  | cons x rest =>
    rw [readSign]
    split
    · exact Nat.succ_le_succ (Nat.zero_le _)
    · exact Nat.zero_le _

/-- An exponent has a letter, perhaps a sign, and a digit at least.  With the digit cut off, there
is none. -/
theorem readExponent_append {a b : List UInt8}
    (h : (readExponent extended (a ++ b)).2.2 ≤ a.length) :
    readExponent extended (a ++ b) = readExponent extended a := by
  cases a with
  | nil =>
    cases b with
    | nil => rfl
    | cons y further =>
      simp only [List.nil_append, readExponent] at h ⊢
      split at h
      · simp at h
      · rename_i hy
        rw [if_neg hy]
  | cons x rest =>
    simp only [List.cons_append, readExponent] at h ⊢
    -- with nothing behind the letter there is no digit before the cut
    by_cases hrest : rest = []
    · subst hrest
      split at h
      · rename_i hx
        simp only [Bool.and_eq_true] at hx
        have := digitRun_pos extended hx.2
        simp only [List.length_cons, List.length_nil] at h
        omega
      · rename_i hx
        rw [if_neg hx, if_neg]
        simp [readSign, beginsWith]
    · rw [readSign_append hrest, drop_append_of_le (readSign_le rest)] at h ⊢
      split at h
      · -- no exponent with all bytes, so none with fewer of them
        rename_i hx
        have hsign := readSign_le rest
        have hrun : (digitRun Byte.isDecimal extended
            (rest.drop (readSign rest).1 ++ b)).2 ≤ (rest.drop (readSign rest).1).length := by
          rw [List.length_drop]
          simp only [List.length_cons] at h
          omega
        simp only [Bool.and_eq_true] at hx
        have hne : rest.drop (readSign rest).1 ≠ [] := by
          intro hnil
          have := digitRun_pos extended hx.2
          rw [hnil, List.length_nil] at hrun
          rw [hnil] at this
          omega
        rw [beginsWith_of_ne_nil hne, ← Bool.and_eq_true] at hx
        rw [beginsWith_of_ne_nil hne, if_pos hx, if_pos hx, digitRun_append hrun]
      · rename_i hx
        rw [if_neg hx, if_neg]
        intro hcut
        simp only [Bool.and_eq_true] at hcut hx
        exact hx ⟨hcut.1, beginsWith_append hcut.2 b⟩

/-! ## 3. Numerals

A numeral is read in the order of its parts, and the offsets of the later ones depend on the lengths
of the earlier ones.  `readPrefixed?_eq_some` and `readDecimal?_eq` state what is read as equations
between these, so that the parts may be replaced one after the other. -/

/-- Two bytes at the front of `a ++ b`, where `a` is long enough. -/
theorem eq_cons_cons_of_append {a b rest : List UInt8} {x y : UInt8}
    (h : a ++ b = x :: y :: rest) (hlength : 2 ≤ a.length) :
    ∃ front, a = x :: y :: front ∧ rest = front ++ b := by
  match a, hlength with
  | x' :: y' :: front, _ =>
    simp only [List.cons_append, List.cons.injEq] at h
    obtain ⟨rfl, rfl, rfl⟩ := h
    exact ⟨front, rfl, rfl⟩

/-- What a prefixed number is read from. -/
theorem readPrefixed?_eq_some {base : Nat} {letter : UInt8} {bytes : List UInt8}
    {numeral : Numeral} {n : Nat} :
    readPrefixed? base letter bytes = some (numeral, n) ↔
      ∃ lead mark rest, bytes.drop (readSign bytes).1 = lead :: mark :: rest ∧
        (lead == Byte.zero && Byte.isLetterOf letter mark &&
          beginsWith (Byte.isDigitOf base) rest) = true ∧
        numeral = { base := base, negative := (readSign bytes).2,
                    integer := (digitRun (Byte.isDigitOf base) true rest).1 } ∧
        n = (readSign bytes).1 + 2 + (digitRun (Byte.isDigitOf base) true rest).2 +
          trailingLength true (bytes.drop ((readSign bytes).1 + 2 +
            (digitRun (Byte.isDigitOf base) true rest).2)) := by
  unfold readPrefixed?
  constructor
  · intro h
    dsimp only at h
    split at h
    · rename_i lead mark rest hdrop
      split at h
      · rename_i hcond
        cases h
        exact ⟨lead, mark, rest, hdrop, hcond, rfl, rfl⟩
      · cases h
    · cases h
  · rintro ⟨lead, mark, rest, hdrop, hcond, rfl, rfl⟩
    simp only [hdrop]
    rw [if_pos hcond]

/-- A prefixed number is settled: prefix, digits and separators are. -/
theorem settles_readPrefixed? (base : Nat) (letter : UInt8) :
    Settles (readPrefixed? base letter) where
  some := by
    intro a b numeral n h hn
    -- what was taken ends within `a`, and so every part of it does
    obtain ⟨lead, mark, rest, hdrop, hcond, hnumeral, hlength⟩ := readPrefixed?_eq_some.mp h
    have hdigit : beginsWith (Byte.isDigitOf base) rest = true := by
      simp only [Bool.and_eq_true] at hcond
      exact hcond.2
    have hrun := digitRun_pos true hdigit
    have ha : a ≠ [] := by
      rintro rfl
      simp only [List.length_nil] at hn
      omega
    rw [readSign_append ha] at hdrop hnumeral hlength
    have hsign := readSign_le a
    rw [drop_append_of_le hsign] at hdrop
    obtain ⟨front, hfront, rfl⟩ := eq_cons_cons_of_append hdrop (by
      rw [List.length_drop]
      omega)
    have hsize : (a.drop (readSign a).1).length = front.length + 2 := by
      rw [hfront]
      rfl
    rw [List.length_drop] at hsize
    have hrunle : (digitRun (Byte.isDigitOf base) true (front ++ b)).2 ≤ front.length := by
      omega
    have hne : front ≠ [] := by
      rintro rfl
      simp only [List.length_nil] at hrunle
      omega
    rw [digitRun_append hrunle] at hnumeral hlength hrunle
    rw [drop_append_of_le (by omega)] at hlength
    rw [trailingLength_append (by rw [List.length_drop]; omega)] at hlength
    rw [beginsWith_of_ne_nil hne] at hcond
    exact readPrefixed?_eq_some.mpr ⟨lead, mark, front, hfront, hcond, hnumeral, hlength⟩
  none := by
    intro a b h
    refine Option.eq_none_iff_forall_ne_some.mpr fun found hfound => ?_
    -- conversely, a prefix and a digit before the cut are there with all bytes
    obtain ⟨numeral, n⟩ := found
    obtain ⟨lead, mark, rest, hdrop, hcond, -, -⟩ := readPrefixed?_eq_some.mp hfound
    have ha : a ≠ [] := by
      rintro rfl
      cases hdrop
    have hlonger : readPrefixed? base letter (a ++ b) = some (_, _) :=
      readPrefixed?_eq_some.mpr ⟨lead, mark, rest ++ b, by
        rw [readSign_append ha, drop_append_of_le (readSign_le a), hdrop]
        rfl, by
        simp only [Bool.and_eq_true] at hcond ⊢
        exact ⟨hcond.1, beginsWith_append hcond.2 b⟩, rfl, rfl⟩
    rw [h] at hlonger
    cases hlonger

/-- Does a decimal number begin here, behind its sign? -/
def beginsDecimal (unsigned : List UInt8) : Bool :=
  beginsWith Byte.isDecimal unsigned ||
    (unsigned.head? == some Byte.dot && beginsWith Byte.isDecimal unsigned.tail)

/-- More bytes behind do not unmake the beginning. -/
theorem beginsDecimal_append {a : List UInt8} (h : beginsDecimal a = true) (b : List UInt8) :
    beginsDecimal (a ++ b) = true := by
  cases a with
  | nil => cases h
  | cons x rest =>
    simp only [beginsDecimal, Bool.or_eq_true, Bool.and_eq_true] at h ⊢
    exact h.imp (fun hx => beginsWith_append hx b)
      fun hx => ⟨hx.1, beginsWith_append (a := rest) hx.2 b⟩

/-- A dot with a digit behind it is a fraction of at least two bytes. -/
theorem readFraction_of_dot (extended : Bool) {unsigned : List UInt8}
    (hdot : unsigned.head? = some Byte.dot)
    (hdigit : beginsWith Byte.isDecimal unsigned.tail = true) :
    (digitRun Byte.isDecimal extended unsigned).2 = 0 ∧
      2 ≤ (readFraction extended unsigned).2 := by
  cases unsigned with
  | nil => cases hdot
  | cons x rest =>
    obtain rfl : x = Byte.dot := by simpa using hdot
    have hrun := digitRun_pos extended hdigit
    refine ⟨?_, ?_⟩
    · have hunder : (Byte.dot == Byte.underscore) = false := by decide
      simp only [digitRun, digitsOnto]
      rw [if_neg (by decide), if_neg (by simp [hunder])]
    · rw [List.tail_cons] at hdigit hrun
      rw [readFraction, if_pos (by simp [hdigit])]
      simp only
      omega

/-- What a decimal number is read from. -/
theorem readDecimal?_eq (bytes : List UInt8) {sign : Nat} {unsigned : List UInt8} {i f : Nat}
    (hsign : sign = (readSign bytes).1) (hunsigned : unsigned = bytes.drop sign)
    (hi : i = (digitRun Byte.isDecimal extended unsigned).2)
    (hf : f = (readFraction extended (unsigned.drop i)).2) :
    readDecimal? extended bytes =
      if beginsDecimal unsigned then
        some
          ({ base := 10
             negative := (readSign bytes).2
             exponentNegative := (readExponent extended (unsigned.drop (i + f))).2.1
             integer := (digitRun Byte.isDecimal extended unsigned).1
             fraction := (readFraction extended (unsigned.drop i)).1
             exponent := (readExponent extended (unsigned.drop (i + f))).1 },
            sign + i + f + (readExponent extended (unsigned.drop (i + f))).2.2 +
              trailingLength extended (bytes.drop
                (sign + i + f + (readExponent extended (unsigned.drop (i + f))).2.2)))
      else none := by
  subst hsign hunsigned hi hf
  rfl

/-- What a decimal number begins with is among the bytes that it takes. -/
theorem beginsDecimal_of_append (extended : Bool) {a b : List UInt8}
    (h : beginsDecimal (a ++ b) = true)
    (hlength : (digitRun Byte.isDecimal extended (a ++ b)).2 + (readFraction extended
      ((a ++ b).drop (digitRun Byte.isDecimal extended (a ++ b)).2)).2 ≤ a.length) :
    beginsDecimal a = true := by
  simp only [beginsDecimal, Bool.or_eq_true, Bool.and_eq_true, beq_iff_eq] at h ⊢
  rcases h with h | ⟨hdot, hdigit⟩
  · have hrun := digitRun_pos extended h
    cases a with
    | nil =>
      simp only [List.length_nil] at hlength
      omega
    | cons x rest => exact Or.inl h
  · obtain ⟨hzero, htwo⟩ := readFraction_of_dot extended hdot hdigit
    rw [hzero, List.drop_zero] at hlength
    match a, hlength with
    | [], hlength =>
      simp only [List.length_nil] at hlength
      omega
    | [x], hlength =>
      simp only [List.length_singleton] at hlength
      omega
    | x :: y :: rest, _ => exact Or.inr ⟨hdot, hdigit⟩

/-- A decimal number takes a digit or a dot. -/
theorem decimal_pos (extended : Bool) {unsigned : List UInt8} (h : beginsDecimal unsigned = true) :
    0 < (digitRun Byte.isDecimal extended unsigned).2 +
      (readFraction extended
        (unsigned.drop (digitRun Byte.isDecimal extended unsigned).2)).2 := by
  simp only [beginsDecimal, Bool.or_eq_true, Bool.and_eq_true, beq_iff_eq] at h
  rcases h with h | ⟨hdot, hdigit⟩
  · have := digitRun_pos extended h
    omega
  · obtain ⟨hzero, htwo⟩ := readFraction_of_dot extended hdot hdigit
    rw [hzero, List.drop_zero]
    omega

/-- A decimal number is settled, part by part. -/
theorem settles_readDecimal? (extended : Bool) : Settles (readDecimal? extended) where
  some := by
    intro a b numeral n h hn
    rw [readDecimal?_eq (a ++ b) rfl rfl rfl rfl] at h
    split at h
    · rename_i hbegins
      have hlength := (Prod.mk.inj (Option.some.inj h)).2
      have hpos := decimal_pos extended hbegins
      have ha : a ≠ [] := by
        rintro rfl
        simp only [List.length_nil] at hn
        omega
      have hsign := readSign_le a
      rw [readSign_append ha, drop_append_of_le hsign] at h hbegins hlength hpos
      generalize hu : a.drop (readSign a).1 = u at *
      have hcut : beginsDecimal u = true := beginsDecimal_of_append extended hbegins (by
        have : u.length = a.length - (readSign a).1 := by
          rw [← hu, List.length_drop]
        omega)
      have husize : u.length = a.length - (readSign a).1 := by
        rw [← hu, List.length_drop]
      have hi : (digitRun Byte.isDecimal extended (u ++ b)).2 ≤ u.length := by omega
      rw [digitRun_append hi] at h hlength hpos hi
      generalize hrun : digitRun Byte.isDecimal extended u = run at *
      rw [drop_append_of_le hi] at h hlength hpos
      have hf : (readFraction extended (u.drop run.2 ++ b)).2 ≤ (u.drop run.2).length := by
        rw [List.length_drop]
        omega
      rw [readFraction_append hf] at h hlength hpos hf
      rw [List.length_drop] at hf
      rw [drop_append_of_le (a := u) (by omega)] at h hlength
      rw [readExponent_append (by rw [List.length_drop]; omega)] at h hlength
      rw [drop_append_of_le (a := a) (by omega)] at h hlength
      rw [trailingLength_append (by rw [List.length_drop]; omega)] at h
      rw [readDecimal?_eq a rfl hu.symm (congrArg Prod.snd hrun.symm) rfl, if_pos hcut, hrun]
      exact h
    · cases h
  none := by
    intro a b h
    cases ha : a with
    | nil => rfl
    | cons x rest =>
      rw [← ha]
      have hne : a ≠ [] := by
        rw [ha]
        exact List.cons_ne_nil _ _
      rw [readDecimal?_eq (a ++ b) rfl rfl rfl rfl] at h
      split at h
      · cases h
      · rename_i hbegins
        rw [readDecimal?_eq a rfl rfl rfl rfl, if_neg]
        intro hcut
        rw [readSign_append hne, drop_append_of_le (readSign_le a)] at hbegins
        exact hbegins (beginsDecimal_append hcut b)

/-- Where numbers may have prefixes, those are tried first, each base in turn. -/
theorem read?_true (bytes : List UInt8) :
    read? true bytes = (readPrefixed? 2 0x62 bytes).or ((readPrefixed? 8 0x6F bytes).or
      ((readPrefixed? 16 0x78 bytes).or (readDecimal? true bytes))) := by
  simp [read?]

/-- **A numeral is settled by its bytes.** -/
theorem settles_read? (extended : Bool) : Settles (read? extended) := by
  cases extended with
  | false => exact settles_readDecimal? false
  | true =>
    rw [show read? true = _ from funext read?_true]
    exact (settles_readPrefixed? 2 0x62).or ((settles_readPrefixed? 8 0x6F).or
      ((settles_readPrefixed? 16 0x78).or (settles_readDecimal? true)))

/-- A numeral takes a byte. -/
theorem read?_pos {bytes : List UInt8} {numeral : Numeral} {n : Nat}
    (h : read? extended bytes = some (numeral, n)) : 0 < n := by
  have hprefixed : ∀ {base letter}, readPrefixed? base letter bytes = some (numeral, n) →
      0 < n := by
    intro base letter h
    obtain ⟨-, -, -, -, -, -, rfl⟩ := readPrefixed?_eq_some.mp h
    omega
  have hdecimal : readDecimal? extended bytes = some (numeral, n) → 0 < n := by
    intro h
    rw [readDecimal?_eq bytes rfl rfl rfl rfl] at h
    split at h
    · rename_i hbegins
      have hlength := (Prod.mk.inj (Option.some.inj h)).2
      have hpos := decimal_pos extended hbegins
      omega
    · cases h
  cases extended with
  | false => exact hdecimal h
  | true =>
    rw [read?_true] at h
    rcases Option.or_eq_some_iff.mp h with h | ⟨-, h⟩
    · exact hprefixed h
    · rcases Option.or_eq_some_iff.mp h with h | ⟨-, h⟩
      · exact hprefixed h
      · rcases Option.or_eq_some_iff.mp h with h | ⟨-, h⟩
        · exact hprefixed h
        · exact hdecimal h

/-- No bytes are no numeral. -/
theorem read?_nil : read? extended [] = none := by
  cases extended <;> rfl

end Numeral
end StyleLex
