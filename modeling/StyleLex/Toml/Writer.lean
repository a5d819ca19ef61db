/-
# Writing TOML

A text is written in the plainest form that holds it: in double quotes if nothing in it needs an
escape, else in single quotes, else over several lines in one of the two ways, else with escapes.
A document is a sequence of sections with a blank line between them.
-/
import StyleLex.Toml.Scalar

namespace StyleLex
namespace Toml

/-! ## 1. Texts -/

/-- The longest run of a character. -/
def longestRun (c : Char) (text : List Char) : Nat :=
  (text.foldl
    (fun (longest, current) d =>
      if d == c then (max longest (current + 1), current + 1) else (longest, 0))
    (0, 0)).1

/-- Does a text hold a control that only an escape can write? -/
def needsEscape (text : List Char) : Bool := text.any fun c => isControl c && c != '\n'

/-- Four hexadecimal digits in upper case. -/
def hexWord (n : Nat) : List Char :=
  let digits := (Nat.toDigits 16 n).map Char.toUpper
  List.replicate (4 - digits.length) '0' ++ digits

/-- A character in double quotes; a line break stands for itself where there are several lines. -/
def escapeChar (severalLines : Bool) (c : Char) : List Char :=
  match c with
  | '\t' => ['\\', 't']
  | '\n' => if severalLines then ['\n'] else ['\\', 'n']
  | '\r' => ['\\', 'r']
  | '\\' => ['\\', '\\']
  | _ =>
    if c.toNat = 0x08 then ['\\', 'b']
    else if c.toNat = 0x0C then ['\\', 'f']
    else if isControl c then '\\' :: 'u' :: hexWord c.toNat
    else [c]

/-- The characters between double quotes.  So many quotes may stand in a row, and `row` of them
stand before these characters; after an escape the count begins anew. -/
def escapeOnto (severalLines : Bool) (quotes : Nat) (written : List Char) (row : Nat) :
    List Char → List Char
  | [] => written.reverse
  | c :: rest =>
    if c == '"' then
      if row < quotes then escapeOnto severalLines quotes ('"' :: written) (row + 1) rest
      else escapeOnto severalLines quotes ('"' :: '\\' :: written) 0 rest
    else
      escapeOnto severalLines quotes ((escapeChar severalLines c).reverse ++ written) 0 rest

/-- A text between delimiters; over several lines it begins on a new one. -/
def delimit (delimiter : String) (newLine : Bool) (chars : List Char) : String :=
  delimiter ++ (if newLine then "\n" else "") ++ String.ofList chars ++ delimiter

def writeString (text : String) : String :=
  let chars := text.toList
  let breaks := chars.contains '\n'
  let double := longestRun '"' chars
  let single := longestRun '\'' chars
  let controls := needsEscape chars
  let slashes := chars.contains '\\'
  if !controls && !slashes && double = 0 && !breaks then
    delimit "\"" false (escapeOnto false 0 [] 0 chars)
  else if !controls && single = 0 && !breaks then delimit "'" false chars
  else if !controls && !slashes && double ≤ 2 then
    delimit "\"\"\"" breaks (escapeOnto true 2 [] 0 chars)
  else if !controls && single ≤ 2 then delimit "'''" breaks chars
  else if breaks then delimit "\"\"\"" true (escapeOnto true 2 [] 0 chars)
  else delimit "\"" false (escapeOnto false 0 [] 0 chars)

/-! ## 2. Lines and sections -/

def writeBoolean (value : Bool) : String := if value then "true" else "false"

def writeStrings (texts : List String) : String :=
  "[" ++ ", ".intercalate (texts.map writeString) ++ "]"

/-- A header and the keys under it, with their values as they are written. -/
structure Section where
  header : String
  fields : List (String × String)

def Section.render (part : Section) : String :=
  part.header ++ "\n" ++
  String.join (part.fields.map fun field => field.1 ++ " = " ++ field.2 ++ "\n")

/-- A document. -/
def writeSections (sections : List Section) : String :=
  "\n".intercalate (sections.map Section.render)

end Toml
end StyleLex
