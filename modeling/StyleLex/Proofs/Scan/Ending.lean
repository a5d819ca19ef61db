/-
# How branches begin and end

A branch takes the bytes of its opener where it begins (`Branch.openerLength`).  Where it ends, the
bytes ahead say how: `Ends` lists the ways, each with the bytes that it takes and with the flag
that the branch gets.  Most branches have a closer of their own (`Branch.closer?`); a string may be
cut off by a line break, a line comment takes the one that ends it, names and fragments take
nothing, and the end of the input closes whatever is open.

Why list the ways at all, when each of them is one reader of the scan?  Because most of what is
claimed about ends does not depend on the reader: that the closer is inside the source (`Ends.le`),
that an end that takes no byte is that of a name or of a fragment (`Ends.narrow`), or that a
fragment is valid when its group was read last (`Ends.of_fragment`).  Such facts are proved here by
cases on the nine ways, and used for every step of a scan.

The families of section 1 are the ones that the proofs split by.  Names have no delimiter at their
end, fragments have none at all, and `isNarrow` joins the two.
-/
import StyleLex.Proofs.Token.Escape
import StyleLex.Proofs.Token.Numeral
import StyleLex.Scan.Run

namespace StyleLex

/-! ## 1. Families of branches

The questions below are about the kind of a branch.  They have the same answer for all branches that
are `Alike`, since what a hash has gathered is no part of its kind. -/

namespace Branch

/-- The length of the delimiter with which a branch begins. -/
def openerLength : Branch → Nat
  | group _ | quoted _ | hash _ => 1
  | url => 4
  | comment _ => 2
  | root | quasi _ | annotation _ _ | identifier _ => 0

/-- The delimiter that closes a branch. -/
def closer? : Branch → Option (List UInt8)
  | group bracket => some [bracket.closer]
  | quoted quote => some [quote.byte]
  | url => some [Byte.rightParenthesis]
  | comment .block => some [Byte.asterisk, Byte.slash]
  | _ => none

/-- Is it an identifier or a hash? -/
def isName : Branch → Bool
  | identifier _ | hash _ => true
  | _ => false

/-- Is it an interpolation or an annotation? -/
def isFragment : Branch → Bool
  | quasi _ | annotation _ _ => true
  | _ => false

/-- Names and fragments may be complete where nothing closes them. -/
def isNarrow (branch : Branch) : Bool := branch.isName || branch.isFragment

/-- A branch without an opener is a name or a fragment, or else a root. -/
theorem isNarrow_of_openerLength {branch : Branch} (h : branch.openerLength = 0)
    (hroot : branch ≠ .root) : branch.isName = true ∨ branch.isFragment = true := by
  cases branch with
  | root => exact absurd rfl hroot
  | identifier value => exact Or.inl rfl
  | quasi form => exact Or.inr rfl
  | annotation form placement => exact Or.inr rfl
  | _ => cases h

/-- A fragment has no delimiters. -/
theorem openerLength_of_isFragment {branch : Branch} (h : branch.isFragment = true) :
    branch.openerLength = 0 := by
  cases branch <;> first | rfl | cases h

/-- A fragment is not a name. -/
theorem isName_of_isFragment {branch : Branch} (h : branch.isFragment = true) :
    branch.isName = false := by
  cases branch <;> first | rfl | cases h

/-- A fragment is not a root. -/
theorem ne_root_of_isFragment {branch : Branch} (h : branch.isFragment = true) :
    branch ≠ .root := by
  rintro rfl
  cases h

/-- And nothing closes it: it ends after its group. -/
theorem closer?_of_isFragment {branch : Branch} (h : branch.isFragment = true) :
    branch.closer? = none := by
  cases branch <;> first | rfl | cases h

/-- The same branch, but for what a hash has gathered. -/
inductive Alike : Branch → Branch → Prop where
  | refl (branch : Branch) : Alike branch branch
  | hash (before after : Hash) : Alike (.hash before) (.hash after)

namespace Alike

variable {a b c : Branch}

/-- Being alike is transitive, so it holds from the beginning of a branch to its end. -/
theorem trans (hab : Alike a b) (hbc : Alike b c) : Alike a c := by
  cases hab with
  | refl => exact hbc
  | hash before after =>
    cases hbc with
    | refl => exact .hash before after
    | hash _ last => exact .hash before last

/-- The two have openers of the same length. -/
theorem openerLength_eq (h : Alike a b) : a.openerLength = b.openerLength := by
  cases h <;> rfl

/-- A root is alike to itself only. -/
theorem eq_root_iff (h : Alike a b) : a = .root ↔ b = .root := by
  cases h with
  | refl => exact Iff.rfl
  | hash before after => exact ⟨(by simp), (by simp)⟩

/-- If one is a name, so is the other. -/
theorem isName_eq (h : Alike a b) : a.isName = b.isName := by
  cases h <;> rfl

/-- If one is a fragment, so is the other. -/
theorem isFragment_eq (h : Alike a b) : a.isFragment = b.isFragment := by
  cases h <;> rfl

/-- If one is narrow, so is the other. -/
theorem isNarrow_eq (h : Alike a b) : a.isNarrow = b.isNarrow := by
  rw [isNarrow, isNarrow, h.isName_eq, h.isFragment_eq]

end Alike
end Branch

/-! ## 2. Leaves

A leaf is flagged when it is read, and its text says how: an escape is well formed unless its brace
stays open, unexpected bytes never are, and every other leaf always is. -/

namespace Leaf

/-- Is a leaf with these bytes well formed? -/
def Sound (leaf : Leaf) (slice : List UInt8) : Prop :=
  match leaf with
  | .escape _ => ¬ Escape.LeftOpen slice
  | .unexpected => False
  | _ => True

end Leaf

/-! ## 3. Ends

The arguments of `Ends` are what is known where a branch is about to end: the dialect, the branch,
the kind of what was read last inside it, and the bytes ahead.  The last two, the flag and the
number of bytes, are the answer. -/

/-- `Ends dialect branch last rest valid n`: with `rest` ahead and `last` read last inside it, the
branch ends with the next `n` bytes, and gets the flag `valid`. -/
inductive Ends (dialect : Dialect) :
    Branch → Option Kind → List UInt8 → Bool → Nat → Prop where
  /-- Its own closer. -/
  | closer {branch : Branch} {last : Option Kind} {closer rest : List UInt8}
      (own : branch.closer? = some closer) (ahead : closer.IsPrefix rest) :
      Ends dialect branch last rest true closer.length
  /-- A line break cuts a string off. -/
  | broken {quote : Quote} {last : Option Kind} {rest : List UInt8} {n : Nat}
      (plain : dialect.extendedStrings = false) (ahead : Escape.newlineLength? rest = some n) :
      Ends dialect (.quoted quote) last rest false n
  /-- A line break ends a line comment. -/
  | line {last : Option Kind} {rest : List UInt8} {n : Nat}
      (ahead : Escape.newlineLength? rest = some n) :
      Ends dialect (.comment .line) last rest true n
  /-- An identifier is complete. -/
  | identifier {value : String} {last : Option Kind} {rest : List UInt8} :
      Ends dialect (.identifier value) last rest true 0
  /-- A hash is complete, and its color is settled. -/
  | hash {hash : Hash} {last : Option Kind} {rest : List UInt8} :
      Ends dialect (.hash hash.settle) last rest hash.settle.isValid 0
  /-- A fragment is complete after its group. -/
  | fragment {branch : Branch} {bracket : Bracket} {rest : List UInt8}
      (fragment : branch.isFragment = true) (ahead : rest ≠ []) :
      Ends dialect branch (some (.branch (.group bracket))) rest true 0
  /-- The input ends before the branch does. -/
  | unterminated {branch : Branch} {last : Option Kind}
      (open_ : branch.closer?.isSome = true ∨ branch.isFragment = true) :
      Ends dialect branch last [] false 0
  /-- The input ends a line comment. -/
  | lineAtEnd {last : Option Kind} : Ends dialect (.comment .line) last [] true 0
  /-- It would end a root. -/
  | rootAtEnd {last : Option Kind} : Ends dialect .root last [] true 0

/-- A closer has bytes. -/
theorem Branch.closer?_pos {branch : Branch} {closer : List UInt8}
    (h : branch.closer? = some closer) : 0 < closer.length := by
  cases branch with
  | comment form => cases form <;> cases h; decide
  | _ => cases h <;> exact Nat.one_pos

/-- A branch ends with bytes that are there. -/
theorem Ends.le {dialect : Dialect} {branch : Branch} {last : Option Kind} {rest : List UInt8}
    {valid : Bool} {n : Nat} (h : Ends dialect branch last rest valid n) : n ≤ rest.length := by
  cases h with
  | closer _ ahead => exact ahead.length_le
  | broken _ ahead => exact (Escape.newlineLength?_pos ahead).2
  | line ahead => exact (Escape.newlineLength?_pos ahead).2
  | _ => exact Nat.zero_le _

/-- A branch that closes between bytes is a name or a fragment with something in it. -/
theorem Ends.narrow {dialect : Dialect} {branch : Branch} {last : Option Kind}
    {rest : List UInt8} {valid : Bool} (h : Ends dialect branch last rest valid 0)
    (ahead : rest ≠ []) :
    branch.isName = true ∨ branch.isFragment = true ∧ last ≠ none := by
  -- the ways that take bytes are excluded by their lengths, those at the end of the input by
  -- `ahead`
  generalize hn : 0 = n at h
  cases h with
  | closer own =>
    have := Branch.closer?_pos own
    omega
  | broken _ hline =>
    have := Escape.newlineLength?_pos hline
    omega
  | line hline =>
    have := Escape.newlineLength?_pos hline
    omega
  | identifier => exact Or.inl rfl
  | hash => exact Or.inl rfl
  | fragment hfragment => exact Or.inr ⟨hfragment, (by simp)⟩
  | unterminated => exact absurd rfl ahead
  | lineAtEnd => exact absurd rfl ahead
  | rootAtEnd => exact absurd rfl ahead

/-- A fragment takes nothing where it ends.  It is valid if it ends after a group and before the
input does, and before the input does it ends in no other way. -/
theorem Ends.of_fragment {dialect : Dialect} {branch : Branch} {last : Option Kind}
    {rest : List UInt8} {valid : Bool} {n : Nat} (h : Ends dialect branch last rest valid n)
    (hfragment : branch.isFragment = true) :
    n = 0 ∧ (valid = true ↔ rest ≠ [] ∧ ∃ bracket, last = some (.branch (.group bracket))) ∧
      (rest ≠ [] → ∃ bracket, last = some (.branch (.group bracket))) := by
  cases h with
  | closer own =>
    rw [Branch.closer?_of_isFragment hfragment] at own
    cases own
  | broken => cases hfragment
  | line => cases hfragment
  | identifier => cases hfragment
  | hash => cases hfragment
  | fragment _ ahead => exact ⟨rfl, iff_of_true rfl ⟨ahead, _, rfl⟩, fun _ => ⟨_, rfl⟩⟩
  | unterminated =>
    exact ⟨rfl, iff_of_false Bool.false_ne_true fun h => h.1 rfl, fun h => absurd rfl h⟩
  | lineAtEnd => cases hfragment
  | rootAtEnd => cases hfragment

end StyleLex
