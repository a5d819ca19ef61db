/-
# Reading TOML

A document is a sequence of lines: blank lines, comments, headers, and keys with their values.  It
is read into one table, or refused as a whole.
-/
import StyleLex.Toml.Table

namespace StyleLex
namespace Toml

/-! ## 1. Values -/

/-- Skips blanks, line breaks and comments, in at most so many steps. -/
def skipFiller : Nat → List Char → List Char
  | 0, text => text
  | steps + 1, text =>
    match skipSpace text with
    | '#' :: rest => skipFiller steps (skipComment ('#' :: rest))
    | rest => rest

/-- Skips all of them. -/
def skipFillers (text : List Char) : List Char := skipFiller (text.length + 1) text

mutual

/-- A value inside `depth` others, in at most so many steps. -/
def readValue : Nat → Nat → Read Value
  | 0, _, _ => none
  | steps + 1, depth, text =>
    match text with
    | '[' :: rest => if depthLimit ≤ depth + 1 then none else readItems steps (depth + 1) [] rest
    | '\x7b' :: rest =>
      if depthLimit ≤ depth + 1 then none
      else
        match skipBlanks rest with
        | '\x7d' :: after => some (.table [], after)
        | fields => readFields steps (depth + 1) [] fields
    | _ => readScalar text

/-- The items of an array, up to its closing bracket; a comma may follow the last one. -/
def readItems : Nat → Nat → List Value → Read Value
  | 0, _, _, _ => none
  | steps + 1, depth, taken, text =>
    match skipFillers text with
    | ']' :: rest => some (.array taken.reverse, rest)
    | item => do
      let (value, after) ← readValue steps depth item
      match skipFillers after with
      | ',' :: rest => readItems steps depth (value :: taken) rest
      | ']' :: rest => some (.array (value :: taken).reverse, rest)
      | _ => none

/-- The fields of a table on one line, up to its closing brace. -/
def readFields : Nat → Nat → Fields → Read Value
  | 0, _, _, _ => none
  | steps + 1, depth, taken, text => do
    let (key, afterKey) ← readKey text
    match afterKey with
    | '=' :: rest => do
      let (value, after) ← readValue steps depth (skipBlanks rest)
      let fields ← define key value .header taken
      match skipBlanks after with
      | ',' :: more => readFields steps depth fields more
      | '\x7d' :: more => some (.table (fieldsToValues fields), more)
      | _ => none
    | _ => none

end

/-! ## 2. Documents -/

/-- What was read so far: the header in force, and the document. -/
structure Progress where
  name : List String := []
  document : Fields := []

/-- The text after a header, whose brackets are given, and its name. -/
def readHeader (closing : String) : Read (List String) := fun text => do
  let (name, rest) ← readKey text
  let after ← literal? closing rest
  let next ← lineEnd? after
  some (name, next)

/-- Reads one statement. -/
def readStatement (progress : Progress) (text : List Char) : Option (Progress × List Char) :=
  match text with
  | '[' :: '[' :: rest => do
    let (name, next) ← readHeader "]]" rest
    let document ← addTable name progress.document
    some (⟨name, document⟩, next)
  | '[' :: rest => do
    let (name, next) ← readHeader "]" rest
    let document ← openTable name progress.document
    some (⟨name, document⟩, next)
  | _ => do
    let (key, afterKey) ← readKey text
    match afterKey with
    | '=' :: rest => do
      let (value, after) ← readValue (rest.length + 1) 0 (skipBlanks rest)
      let next ← lineEnd? after
      let document ← defineUnder progress.name key value progress.document
      some (⟨progress.name, document⟩, next)
    | _ => none

/-- Reads all lines, in at most so many steps. -/
def readLinesOf : Nat → Progress → List Char → Option Fields
  | 0, _, _ => none
  | steps + 1, progress, text =>
    match skipBlanks text with
    | [] => some progress.document
    | line =>
      match lineEnd? line with
      | some rest => readLinesOf steps progress rest
      | none => do
        let (progress, rest) ← readStatement progress line
        readLinesOf steps progress rest

/-- The fields of a document, if it is one.  A byte order mark may stand at its front. -/
def read? (text : String) : Option (List (String × Value)) :=
  let chars := text.toList
  let body := if chars.head? = some (Char.ofNat 0xFEFF) then chars.tail else chars
  (readLinesOf (chars.length + 1) {} body).map fieldsToValues

end Toml
end StyleLex
