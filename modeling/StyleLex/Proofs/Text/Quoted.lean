/-
# Quoted text, read back

A quoted text stays on its line, and it says which text it is and where it ends, whatever stands
behind it (`quoted_append_inj`).  Both are properties of the characters one by one: what is
written for a character begins with the character itself or with a backslash, and behind a
backslash the next character tells how far it goes (`Written`).

Two lines of a dump are compared with the help of this: if the lines are equal, the texts in them
are, although a text may contain anything, the closing quote and line breaks included.  It needs no
decoder for quoted texts: that what is written determines the text, and leaves the same rest, is
enough.
-/
import StyleLex.Text.Quoted

namespace StyleLex
namespace Text

/-- A list is cut in one way at the first place of an element. -/
theorem cut_inj {α : Type} {a : α} {xs ys : List α} (hxs : a ∉ xs) (hys : a ∉ ys)
    {xs' ys' : List α} (h : xs ++ a :: xs' = ys ++ a :: ys') : xs = ys ∧ xs' = ys' := by
  induction xs generalizing ys with
  | nil =>
    cases ys with
    | nil => exact ⟨rfl, (List.cons.inj h).2⟩
    | cons b rest => exact absurd ((List.cons.inj h).1 ▸ List.mem_cons_self) hys
  | cons b rest ih =>
    cases ys with
    | nil => exact absurd ((List.cons.inj h).1 ▸ List.mem_cons_self) hxs
    | cons c further =>
      obtain ⟨rfl, hbehind⟩ := List.cons.inj h
      obtain ⟨rfl, hrest⟩ := ih (fun hin => hxs (List.mem_cons_of_mem b hin))
        (fun hin => hys (List.mem_cons_of_mem b hin)) hbehind
      exact ⟨rfl, hrest⟩

/-! ## 1. Numbers in base sixteen

A character without a form of its own is written by its number in hexadecimal digits, between
braces. -/

/-- Digits are told apart. -/
theorem digitChar_inj : ∀ n < 16, ∀ m < 16, Nat.digitChar n = Nat.digitChar m → n = m := by
  decide

/-- No digit breaks a line or closes a brace. -/
theorem digitChar_apart : ∀ n < 16, Nat.digitChar n ≠ '\n' ∧ Nat.digitChar n ≠ '\x7d' := by
  decide

/-- So no number does. -/
theorem toDigits_apart (n : Nat) : ∀ c ∈ Nat.toDigits 16 n, c ≠ '\n' ∧ c ≠ '\x7d' := by
  induction n using Nat.strongRecOn with
  | ind n ih =>
    rw [Nat.toDigits_eq_if (by decide)]
    split
    · rename_i hlt
      intro c hc
      rw [List.mem_singleton.mp hc]
      exact digitChar_apart n hlt
    · intro c hc
      rcases List.mem_append.mp hc with hc | hc
      · exact ih (n / 16) (by omega) c hc
      · rw [List.mem_singleton.mp hc]
        exact digitChar_apart (n % 16) (Nat.mod_lt n (by decide))

/-- A number is known by its digits. -/
theorem toDigits_inj (n m : Nat) (h : Nat.toDigits 16 n = Nat.toDigits 16 m) : n = m := by
  induction n using Nat.strongRecOn generalizing m with
  | ind n ih =>
    have hn := Nat.length_toDigits_pos (b := 16) (n := n / 16)
    have hm := Nat.length_toDigits_pos (b := 16) (n := m / 16)
    rw [Nat.toDigits_eq_if (by decide), Nat.toDigits_eq_if (n := m) (by decide)] at h
    split at h <;> split at h
    · rename_i hn hm
      exact digitChar_inj n hn m hm (List.singleton_inj.mp h)
    · have := congrArg List.length h
      rw [List.length_append, List.length_singleton, List.length_singleton] at this
      omega
    · have := congrArg List.length h
      rw [List.length_append, List.length_singleton, List.length_singleton] at this
      omega
    · obtain ⟨hfront, hlast⟩ := List.append_inj' h rfl
      have hdiv := ih (n / 16) (by omega) (m / 16) hfront
      have hmod := digitChar_inj (n % 16) (Nat.mod_lt n (by decide)) (m % 16)
        (Nat.mod_lt m (by decide)) (List.singleton_inj.mp hlast)
      omega

/-! ## 2. One character

`Written` lists what may stand for a character, which is more than what the encoder writes; that
suffices, since any two of these are told apart. -/

/-- The characters that are written by a letter. -/
def letters : List (Char × Char) :=
  [('"', '"'), ('\\', '\\'), ('\n', 'n'), ('\r', 'r'), ('\t', 't'), ('\x00', '0')]

/-- How a character may be written. -/
inductive Written (c : Char) : List Char → Prop where
  | plain (hquote : c ≠ '"') (hslash : c ≠ '\\') (hbreak : c ≠ '\n') : Written c [c]
  | letter {l : Char} (h : (c, l) ∈ letters) : Written c ['\\', l]
  | number : Written c ('\\' :: 'u' :: '\x7b' :: (Nat.toDigits 16 c.toNat ++ ['\x7d']))

/-- What the encoder writes is one of them. -/
theorem written_encodeChar (c : Char) : Written c (encodeChar c) := by
  unfold encodeChar
  split
  iterate 5 exact Written.letter (by decide)
  rename_i hquote hslash hbreak _ _
  split
  · rename_i hzero
    obtain rfl : c = '\x00' := Char.toNat_inj.mp hzero
    exact Written.letter (by decide)
  · split
    · exact Written.plain hquote hslash hbreak
    · exact Written.number

namespace Written

variable {c d : Char} {a b : List Char}

/-- None of them has a line break in it. -/
theorem unbroken (h : Written c a) : '\n' ∉ a := by
  cases h with
  | plain _ _ hbreak => simpa using fun heq : '\n' = c => hbreak heq.symm
  | letter h =>
    have hletters : ∀ pair ∈ letters, '\n' ≠ pair.2 := by decide
    simpa using hletters _ h
  | number => simpa using fun hin => (toDigits_apart _ _ hin).1 rfl

/-- What is written for a character does not begin as the closing quote does. -/
theorem head_ne (h : Written c a) : ∃ first rest, a = first :: rest ∧ first ≠ '"' := by
  cases h with
  | plain hquote => exact ⟨c, [], rfl, hquote⟩
  | letter => exact ⟨_, _, rfl, by decide⟩
  | number => exact ⟨_, _, rfl, by decide⟩

/-- **What is written for a character tells which one it is, and where it ends.** -/
theorem append_inj (ha : Written c a) (hb : Written d b) {x y : List Char}
    (h : a ++ x = b ++ y) : c = d ∧ x = y := by
  have hnumber : ∀ pair ∈ letters, pair.2 ≠ 'u' := by decide
  have hletter : ∀ pair ∈ letters, ∀ other ∈ letters, pair.2 = other.2 → pair.1 = other.1 := by
    decide
  -- two that begin alike are of the same sort, for a backslash and the letter behind it decide
  cases ha with
  | plain _ hslash =>
    cases hb with
    | plain => exact List.cons.inj h
    | letter | number => exact absurd (List.cons.inj h).1 hslash
  | letter hc =>
    cases hb with
    | plain _ hslash => exact absurd (List.cons.inj h).1.symm hslash
    | letter hd =>
      obtain ⟨hsame, hrest⟩ := List.cons.inj (List.cons.inj h).2
      exact ⟨hletter _ hc _ hd hsame, hrest⟩
    | number => exact absurd (List.cons.inj (List.cons.inj h).2).1 (hnumber _ hc)
  | number =>
    cases hb with
    | plain _ hslash => exact absurd (List.cons.inj h).1.symm hslash
    | letter hd => exact absurd (List.cons.inj (List.cons.inj h).2).1.symm (hnumber _ hd)
    | number =>
      -- the digits go up to the brace, and there is no brace among them
      simp only [List.cons_append, List.cons.injEq, true_and, List.append_assoc] at h
      have hfree : ∀ e : Char, '\x7d' ∉ Nat.toDigits 16 e.toNat := fun e hin =>
        (toDigits_apart _ _ hin).2 rfl
      obtain ⟨hdigits, hrest⟩ := cut_inj (hfree c) (hfree d) h
      exact ⟨Char.toNat_inj.mp (toDigits_inj _ _ hdigits), hrest⟩

end Written

/-! ## 3. A text

Character by character up to the closing quote. -/

variable {a b x y : List Char}

/-- The characters of a quoted text. -/
theorem toList_quoted (text : String) :
    (quoted text).toList = '"' :: (text.toList.flatMap encodeChar ++ ['"']) := by
  have hpush : ∀ (cs : List Char) (written : String),
      (cs.foldl String.push written).toList = written.toList ++ cs := by
    intro cs
    induction cs with
    | nil => simp
    | cons c rest ih => simp [ih]
  have hfold : ∀ (text : List Char) (written : String),
      (text.foldl (fun written c => (encodeChar c).foldl String.push written) written).toList =
        written.toList ++ text.flatMap encodeChar := by
    intro text
    induction text with
    | nil => simp
    | cons c rest ih => simp [ih, hpush]
  rw [quoted, String.foldl_eq_foldl_toList, String.toList_push, hfold]
  rfl

/-- **A quoted text does not break its line.** -/
theorem unbroken_quoted (text : String) : '\n' ∉ (quoted text).toList := by
  rw [toList_quoted]
  simp only [List.mem_cons, List.mem_append, List.mem_flatMap, List.mem_nil_iff, or_false]
  rintro (h | ⟨c, -, hc⟩ | h)
  · cases h
  · exact (written_encodeChar c).unbroken hc
  · cases h

/-- The quote ends the text in both, as no character is written with one in front. -/
theorem encode_append_inj (h : a.flatMap encodeChar ++ '"' :: x = b.flatMap encodeChar ++ '"' :: y) :
    a = b ∧ x = y := by
  induction a generalizing b with
  | nil =>
    cases b with
    | nil => exact ⟨rfl, (List.cons.inj h).2⟩
    | cons d further =>
      obtain ⟨first, rest, heq, hne⟩ := (written_encodeChar d).head_ne
      rw [List.flatMap_cons, heq] at h
      exact absurd (List.cons.inj h).1.symm hne
  | cons c rest ih =>
    cases b with
    | nil =>
      obtain ⟨first, rest, heq, hne⟩ := (written_encodeChar c).head_ne
      rw [List.flatMap_cons, heq] at h
      exact absurd (List.cons.inj h).1 hne
    | cons d further =>
      rw [List.flatMap_cons, List.flatMap_cons, List.append_assoc, List.append_assoc] at h
      obtain ⟨rfl, hbehind⟩ := (written_encodeChar c).append_inj (written_encodeChar d) h
      obtain ⟨rfl, hrest⟩ := ih hbehind
      exact ⟨rfl, hrest⟩

/-- **A quoted text says which text it is, and where it ends.** -/
theorem quoted_append_inj {s t : String}
    (h : (quoted s).toList ++ x = (quoted t).toList ++ y) : s = t ∧ x = y := by
  rw [toList_quoted, toList_quoted, List.cons_append, List.cons_append, List.append_assoc,
    List.append_assoc] at h
  obtain ⟨htext, hrest⟩ := encode_append_inj (List.cons.inj h).2
  exact ⟨String.toList_inj.mp htext, hrest⟩

end Text
end StyleLex
