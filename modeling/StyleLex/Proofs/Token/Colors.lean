/-
# Colors that are settled twice

A hash that is resumed was settled when it was read first.  What is read then is gathered behind
the digits of a color, and a hash that was no color stays none (`Hash.Settled.resumed`).

Settling is not meant to be undone, and yet resuming a hash gathers more and settles again.  The
result is right in the cases stated here, and in others it is not: a hash whose first part is no
color has dropped its digits, so a whole that would be one is not recognised.  This is why the two
readings of a hash agree only under a condition.
-/
import StyleLex.Proofs.Token.Digits

namespace StyleLex
namespace Hash

/-- The color of a hash is settled by its text, and the digits of a color are the text. -/
def Settled (text : List UInt8) (hash : Hash) : Prop :=
  hash.color = .valid ∧ SpellsColor text ∧ hash.digits.toList = text ∨
    hash.color = .invalid ∧ ¬ SpellsColor text ∧ hash.digits = #[]

variable {hash other : Hash} {text front back : List UInt8}

/-- A text settles one color. -/
theorem Settled.unique (h : hash.Settled text) (hother : other.Settled text) :
    other.color = hash.color ∧ other.digits = hash.digits := by
  rcases h with ⟨hcolor, hspells, hdigits⟩ | ⟨hcolor, hspells, hdigits⟩ <;>
    rcases hother with ⟨hcolor', hspells', hdigits'⟩ | ⟨hcolor', hspells', hdigits'⟩
  · exact ⟨hcolor'.trans hcolor.symm, Array.toList_inj.mp (hdigits'.trans hdigits.symm)⟩
  · exact absurd hspells hspells'
  · exact absurd hspells' hspells
  · exact ⟨hcolor'.trans hcolor.symm, hdigits'.trans hdigits.symm⟩

/-- A text that is the same to a color settles the same one. -/
theorem Settled.congr (h : hash.Settled text) (hsame : Utf8.SameDigits front text) :
    hash.Settled front := by
  rcases hsame with rfl | ⟨hfront, htext⟩
  · exact h
  · rcases h with ⟨-, hspells, -⟩ | ⟨hcolor, -, hdigits⟩
    · rw [SpellsColor, htext] at hspells
      exact absurd hspells.1 (by decide)
    · refine Or.inr ⟨hcolor, fun hspells => ?_, hdigits⟩
      rw [SpellsColor, hfront] at hspells
      exact absurd hspells.1 (by decide)

/-! ## 1. Colors

The counts of digits that make a color are all there is to settling; whether the digits had been
settled before does not matter, as long as they are there. -/

/-- The hash, with its color open again. -/
def reopened (hash : Hash) : Hash := { hash with color := .unchecked }

/-- A color that is open is not ruled out. -/
theorem reopened_color_ne (hash : Hash) : hash.reopened.color ≠ .invalid := by
  intro hcolor
  cases hcolor

/-- To gather, a color is as good as an open one. -/
theorem settle_foldl_reopened (run : List UInt8) (h : hash.color ≠ .invalid) :
    (run.foldl accumulate hash.reopened).settle = (run.foldl accumulate hash).settle := by
  have hopen := hash.reopened_color_ne
  induction run generalizing hash with
  | nil =>
    rw [List.foldl_nil, List.foldl_nil, settle, settle]
    simp only [h, hopen, not_false_eq_true, ne_eq, true_and]
    rfl
  | cons b rest ih =>
    rw [List.foldl_cons, List.foldl_cons, accumulate, accumulate, if_neg h, if_neg hopen]
    split
    · exact @ih { hash with digits := hash.digits.push b } h (reopened_color_ne _)
    · rfl

/-- A hash that is no color takes nothing. -/
theorem foldl_of_invalid (run : List UInt8) (h : hash.color = .invalid) :
    run.foldl accumulate hash = hash := by
  induction run with
  | nil => rfl
  | cons b rest ih => rw [List.foldl_cons, accumulate, if_pos h, ih]

/-! ## 2. What is settled again

By cases on what was settled first. -/

/-- **A hash that is resumed is settled by its whole text**, if its text up to there had as many
bytes as a color has, or if the whole is no color. -/
theorem Settled.resumed (h : hash.Settled front)
    (hcut : front.length ∈ colorDigitCounts ∨ ¬ SpellsColor (front ++ back)) :
    (back.foldl accumulate hash).settle.Settled (front ++ back) := by
  rcases h with ⟨hcolor, hspells, hdigits⟩ | ⟨hcolor, hspells, hdigits⟩
  · have hopen : hash.color ≠ .invalid := by
      rw [hcolor]
      decide
    have hgathers : hash.reopened.Gathers front := .kept rfl hdigits hspells.1
    rw [← settle_foldl_reopened back hopen]
    exact (hgathers.foldl back).settle
  · have hnone : ¬ SpellsColor (front ++ back) := by
      rcases hcut with hcount | hnone
      · intro hwhole
        refine hspells ⟨?_, hcount⟩
        have hall := hwhole.1
        rw [List.all_append, Bool.and_eq_true] at hall
        exact hall.1
      · exact hnone
    rw [foldl_of_invalid back hcolor, settle, if_neg fun hvalid => hvalid.1 hcolor]
    exact Or.inr ⟨rfl, hnone, rfl⟩

end Hash
end StyleLex
