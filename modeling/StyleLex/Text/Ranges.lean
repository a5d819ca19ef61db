/-
# Ranges of code points

A property of characters is a table of ranges of code points, in order.
-/

namespace StyleLex
namespace Text

/-- Does a code point lie in one of the ranges?  Each is its first and its last code point, and
they are in order. -/
def inRanges (codepoint : Nat) : List (Nat × Nat) → Bool
  | [] => false
  | (first, last) :: rest =>
    if codepoint < first then false
    else if codepoint ≤ last then true
    else inRanges codepoint rest

end Text
end StyleLex
