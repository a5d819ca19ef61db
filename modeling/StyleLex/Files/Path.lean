/-
# Paths

A path is names with slashes between them.  The extension of a name is what follows its last dot,
unless nothing stands before that dot.
-/
import StyleLex.Text.Lowercase

namespace StyleLex
namespace Path

/-- The last name of a path. -/
def name (path : String) : List Char :=
  (path.toList.reverse.takeWhile (· ≠ '/')).reverse

/-- The characters after the last dot, if there is one and characters before it. -/
def extensionOf? (name : List Char) : Option (List Char) :=
  match name.reverse.span (· ≠ '.') with
  | (after, _ :: _ :: _) => some after.reverse
  | _ => none

/-- The extension of a path, in lower case. -/
def extension? (path : String) : Option String := (extensionOf? (name path)).map Text.lowercase

/-- The extensions of style sheets. -/
def styleSheets : List String := ["css", "cssx", "scss", "less"]

/-- Does a path look like that of a style sheet? -/
def isStyleSheet (path : String) : Bool := (extension? path).any styleSheets.contains

end Path
end StyleLex
