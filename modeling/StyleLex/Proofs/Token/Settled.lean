/-
# Readings that are settled by what they take

A reading of the front of a byte list looks at bytes that it does not take: a run of digits looks
at the byte after it, and a carriage return at the line feed that may follow.  Yet what it takes
is settled by the bytes taken: cut the list anywhere behind them, and the reading is the same.  And
where nothing was read, nothing is read after a cut.  `Settles` says both; a cut *inside* what was
taken is free to change everything.

This is the form in which all readers of tokens are compared with a cut: `Settles` is about a
reading by itself, `Splits` about one reading and one cut.  A reading that looks further than this,
as those of escapes and line continuations do, does not settle, but may still split at most cuts; so
readers of the scan ask for `Splits` only.
-/
import StyleLex.Token.Escape
import StyleLex.Token.Numeral

namespace StyleLex

/-! ## 1. Runs

Lists that are cut, and runs in them. -/

section Runs

variable {α : Type} {p : α → Bool}

/-- A run that ends inside `a` is a run of `a`. -/
theorem takeWhile_append_of_le : ∀ {a b : List α},
    ((a ++ b).takeWhile p).length ≤ a.length → (a ++ b).takeWhile p = a.takeWhile p
  | [], b, h => by
    rw [List.nil_append] at h ⊢
    exact List.length_eq_zero_iff.mp (Nat.le_zero.mp h)
  | x :: rest, b, h => by
    rw [List.cons_append, List.takeWhile_cons] at h ⊢
    rw [List.takeWhile_cons]
    split at h
    · rename_i hx
      rw [if_pos hx, if_pos hx, takeWhile_append_of_le (by simpa using h)]
    · rename_i hx
      rw [if_neg hx, if_neg hx]

/-- The runs of a part are no longer. -/
theorem length_takeWhile_append_le (p : α → Bool) : ∀ a b : List α,
    (a.takeWhile p).length ≤ ((a ++ b).takeWhile p).length
  | [], b => Nat.zero_le _
  | x :: rest, b => by
    rw [List.cons_append, List.takeWhile_cons, List.takeWhile_cons]
    split
    · simpa using length_takeWhile_append_le p rest b
    · exact Nat.le_refl _

/-- The first byte is before the cut. -/
theorem head?_append_of_ne_nil {a : List α} (h : a ≠ []) (b : List α) :
    (a ++ b).head? = a.head? := by
  cases a with
  | nil => exact absurd rfl h
  | cons x rest => rfl

/-- A part of the list that is dropped is dropped from `a`. -/
theorem drop_append_of_le {a : List α} {n : Nat} (h : n ≤ a.length) (b : List α) :
    (a ++ b).drop n = a.drop n ++ b :=
  List.drop_append_of_le_length h

end Runs

/-! ## 2. Settled readings

The small readings of which others are made: one byte, a given text, a run.  Each is settled by
itself, and choices and conditions keep it. -/

/-- A reading with its length is the same after a cut behind it, and there is none after a cut
where there was none before. -/
structure Settles {α : Type} (read : List UInt8 → Option (α × Nat)) : Prop where
  some : ∀ {a b : List UInt8} {value : α} {n : Nat},
    read (a ++ b) = .some (value, n) → n ≤ a.length → read a = .some (value, n)
  none : ∀ {a b : List UInt8}, read (a ++ b) = .none → read a = .none

/-- What a reading makes of `a` with `b` behind it: the same as of `a` alone, or it takes bytes of
`b`. -/
def Splits {α : Type} (read : List UInt8 → Option (α × Nat)) (a b : List UInt8) : Prop :=
  (read (a ++ b) = none ∧ read a = none) ∨
    ∃ value n, read (a ++ b) = some (value, n) ∧
      ((b ≠ [] ∧ a.length < n) ∨ ((n ≤ a.length ∨ b = []) ∧ read a = some (value, n)))

namespace Settles

variable {α : Type} {read other : List UInt8 → Option (α × Nat)}

/-- A choice between settled readings is settled. -/
theorem or (h : Settles read) (h' : Settles other) :
    Settles fun bytes => (read bytes).or (other bytes) where
  some := by
    intro a b value n hread hn
    cases hfirst : read (a ++ b) with
    | none =>
      rw [hfirst, Option.none_or] at hread
      rw [h.none hfirst, Option.none_or]
      exact h'.some hread hn
    | some found =>
      rw [hfirst, Option.some_or] at hread
      cases hread
      rw [h.some hfirst hn, Option.some_or]
  none := by
    intro a b hread
    obtain ⟨hfirst, hsecond⟩ := Option.or_eq_none_iff.mp hread
    rw [h.none hfirst, h'.none hsecond, Option.none_or]

/-- With bytes to come, a settled reading is the same as without them, or it takes some of them. -/
theorem split (h : Settles read) (a b : List UInt8) : Splits read a b := by
  cases hread : read (a ++ b) with
  | none => exact Or.inl ⟨hread, h.none hread⟩
  | some found =>
    obtain ⟨value, n⟩ := found
    refine Or.inr ⟨value, n, hread, ?_⟩
    by_cases hb : b = []
    · subst hb
      rw [List.append_nil] at hread
      exact Or.inr ⟨Or.inr rfl, hread⟩
    · rcases Nat.lt_or_ge a.length n with hn | hn
      · exact Or.inl ⟨hb, hn⟩
      · exact Or.inr ⟨Or.inl hn, h.some hread hn⟩

/-- Whether anything is read may hang on something that is known. -/
theorem guard (h : Settles read) (p : Prop) [Decidable p] :
    Settles fun bytes => if p then read bytes else .none := by
  by_cases hp : p
  · simpa [hp] using h
  · constructor
    · intro a b value n hread
      rw [if_neg hp] at hread
      cases hread
    · intro a b _
      rw [if_neg hp]

end Settles

/-- What a test makes of the first byte. -/
def headOf {α : Type} (test : UInt8 → Option α) : List UInt8 → Option (α × Nat)
  | b :: _ => (test b).map fun value => (value, 1)
  | [] => none

/-- One byte settles a test of it. -/
theorem settles_headOf {α : Type} (test : UInt8 → Option α) : Settles (headOf test) where
  some := by
    intro a b value n hread hn
    cases a with
    | cons x rest => exact hread
    | nil =>
      cases b with
      | nil => cases hread
      | cons x rest =>
        obtain ⟨found, -, hfound⟩ := Option.map_eq_some_iff.mp hread
        cases hfound
        cases hn
  none := by
    intro a b hread
    cases a with
    | nil => rfl
    | cons x rest => exact hread

/-- A text that has to be there. -/
def textOf {α : Type} (text : List UInt8) (value : α) (bytes : List UInt8) : Option (α × Nat) :=
  if text.isPrefixOf bytes then some (value, text.length) else none

/-- A text is there before the cut, or it is cut. -/
theorem settles_textOf {α : Type} (text : List UInt8) (value : α) :
    Settles (textOf text value) where
  some := by
    intro a b found n hread hn
    unfold textOf at hread ⊢
    split at hread
    · rename_i hfront
      cases hread
      rw [List.isPrefixOf_iff_prefix] at hfront
      rw [if_pos (List.isPrefixOf_iff_prefix.mpr
        (List.prefix_of_prefix_length_le hfront (List.prefix_append a b) hn))]
    · cases hread
  none := by
    intro a b hread
    unfold textOf at hread ⊢
    split at hread
    · cases hread
    · rename_i hfront
      rw [if_neg]
      intro ha
      rw [List.isPrefixOf_iff_prefix] at ha hfront
      exact hfront (ha.trans (List.prefix_append a b))

/-- A run that is not empty. -/
def runOf (p : UInt8 → Bool) (bytes : List UInt8) : Option (List UInt8 × Nat) :=
  if (bytes.takeWhile p).isEmpty then none
  else some (bytes.takeWhile p, (bytes.takeWhile p).length)

/-- A run ends before the byte that ends it, or with the list; a cut may only end it earlier. -/
theorem settles_runOf (p : UInt8 → Bool) : Settles (runOf p) where
  some := by
    intro a b value n hread hn
    unfold runOf at hread ⊢
    split at hread
    · cases hread
    · rename_i hrun
      cases hread
      rw [← takeWhile_append_of_le hn, if_neg hrun]
  none := by
    intro a b hread
    unfold runOf at hread ⊢
    split at hread
    · rename_i hrun
      rw [List.isEmpty_iff] at hrun
      have hle := length_takeWhile_append_le p a b
      rw [hrun] at hle
      rw [if_pos (List.isEmpty_iff.mpr (List.length_eq_zero_iff.mp (Nat.le_zero.mp hle)))]
    · cases hread

/-! ## 3. Line breaks

A line break is one byte or two, and a cut may be between them. -/

/-- The length of a line break is settled by its bytes. -/
theorem Escape.newlineLength?_append {a b : List UInt8} {n : Nat}
    (h : newlineLength? (a ++ b) = some n) (hn : n ≤ a.length) :
    newlineLength? a = some n := by
  cases a with
  | nil =>
    obtain rfl := Nat.le_zero.mp hn
    cases b with
    | nil => cases h
    | cons x rest =>
      simp only [List.nil_append, newlineLength?] at h
      split at h
      · cases h
      · split at h <;> cases h
  | cons x rest =>
    simp only [List.cons_append, newlineLength?] at h ⊢
    cases rest with
    | nil =>
      split at h
      · cases h
        simp at hn
      · rw [if_neg (by simp)]
        exact h
    | cons y rest => exact h

/-- Where none begins, none begins before a cut. -/
theorem Escape.newlineLength?_eq_none {a b : List UInt8}
    (h : newlineLength? (a ++ b) = none) : newlineLength? a = none := by
  cases a with
  | nil => rfl
  | cons x rest =>
    simp only [List.cons_append, newlineLength?] at h ⊢
    split at h
    · cases h
    · split at h
      · cases h
      · rename_i hx
        rw [if_neg, if_neg hx]
        intro hcr
        simp only [Bool.and_eq_true, beq_iff_eq] at hcr
        rw [hcr.1] at hx
        exact hx (by decide)

/-- It has a byte, and no more than there are. -/
theorem Escape.newlineLength?_pos {rest : List UInt8} {n : Nat}
    (h : newlineLength? rest = some n) : 0 < n ∧ n ≤ rest.length := by
  cases rest with
  | nil => cases h
  | cons x rest =>
    rw [newlineLength?] at h
    split at h
    · rename_i hcr
      cases h
      cases rest with
      | nil => simp at hcr
      | cons y rest => simp
    · split at h
      · cases h
        simp
      · cases h

/-- A line break begins with a byte that no closer begins with. -/
theorem Escape.isNewline_of_newlineLength? {b : UInt8} {rest : List UInt8} {n : Nat}
    (h : newlineLength? (b :: rest) = some n) : Byte.isNewline b = true := by
  rw [newlineLength?] at h
  split at h
  · rename_i hcr
    simp only [Bool.and_eq_true, beq_iff_eq] at hcr
    rw [hcr.1]
    decide
  · split at h
    · assumption
    · cases h

/-- A line break, as a reading. -/
def newlineOf (bytes : List UInt8) : Option (Unit × Nat) :=
  (Escape.newlineLength? bytes).map fun n => ((), n)

/-- So the reading of a line break is settled. -/
theorem settles_newlineOf : Settles newlineOf where
  some := by
    intro a b value n hread hn
    obtain ⟨length, hlength, hfound⟩ := Option.map_eq_some_iff.mp hread
    cases hfound
    rw [newlineOf, Escape.newlineLength?_append hlength hn]
    rfl
  none := by
    intro a b hread
    rw [newlineOf, Escape.newlineLength?_eq_none (Option.map_eq_none_iff.mp hread)]
    rfl

end StyleLex
