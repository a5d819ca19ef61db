/-
# Sizes of files

Sizes are bytes.  They are shown in the largest unit of which there is at least one, up to
gigabytes; bytes are counted exactly and larger units have two places.
-/
import StyleLex.Decimal.Layout

namespace StyleLex
namespace FileSize

/-- The largest file that is read. -/
def limit : Nat := 16 * 1024 * 1024

/-- Files above this size are large. -/
def largeThreshold : Nat := 1024 * 1024

def isLarge (size : Nat) : Bool := largeThreshold < size

/-- A size of `size` times `unit`, carried into larger units as long as there is a whole one. -/
def carry (size : Float) (unit : String) : List String → Float × String
  | [] => (size, unit)
  | larger :: rest =>
    if 1024.0 ≤ size then carry (size / 1024.0) larger rest else (size, unit)

def render (size : Nat) : String :=
  if size < 1024 then toString size ++ " B"
  else
    let shown := carry (Float.ofNat size) "B" ["KB", "MB", "GB"]
    Decimal.fixed 2 shown.1 ++ " " ++ shown.2

end FileSize
end StyleLex
