/-
# Characters, strings and keys of TOML

Readers take characters from the front of a list and give back what they read and the rest; they
give nothing where the text is not of their form.

A string stands in double quotes, where a backslash escapes, or in single quotes, where nothing
does.  Three quotes of either kind hold a text of several lines: a line break right after them is
dropped, and one or two quotes may stand before the closing three.
-/

namespace StyleLex
namespace Toml

/-- A reader of values of some type. -/
abbrev Read (α : Type) := List Char → Option (α × List Char)

/-! ## 1. Characters -/

def isBlank (c : Char) : Bool := c == ' ' || c == '\t'

/-- Controls other than the tab; they stand in no string and in no comment. -/
def isControl (c : Char) : Bool := c != '\t' && (c.toNat < 0x20 || c.toNat == 0x7F)

def skipBlanks (text : List Char) : List Char := text.dropWhile isBlank

/-- The text after a line break, if there is one: a line feed, or a carriage return and a line
feed. -/
def lineBreak? : List Char → Option (List Char)
  | '\n' :: rest => some rest
  | '\r' :: '\n' :: rest => some rest
  | _ => none

/-- Skips blanks and line breaks. -/
def skipSpace : List Char → List Char
  | '\r' :: '\n' :: rest => skipSpace rest
  | c :: rest => if isBlank c || c == '\n' then skipSpace rest else c :: rest
  | [] => []

/-- The text after a comment, which goes on to the end of the line. -/
def skipComment : List Char → List Char
  | '#' :: rest => rest.dropWhile fun c => !isControl c || c.toNat == 0x7F
  | text => text

/-- The text after the end of a line: blanks, a comment, and a line break or the end. -/
def lineEnd? (text : List Char) : Option (List Char) :=
  match skipComment (skipBlanks text) with
  | [] => some []
  | rest => lineBreak? rest

/-- The text after a given word. -/
def literal? (word : String) (text : List Char) : Option (List Char) :=
  let chars := word.toList
  if chars.isPrefixOf text then some (text.drop chars.length) else none

/-! ## 2. Escapes -/

def hexValue? (c : Char) : Option Nat :=
  if c.isDigit then some (c.toNat - 0x30)
  else if 'a' ≤ c && c ≤ 'f' then some (c.toNat - 0x57)
  else if 'A' ≤ c && c ≤ 'F' then some (c.toNat - 0x37)
  else none

/-- The number that some digits of a base spell; there must be no other characters. -/
def digitsValue? (base : Nat) (digits : List Char) : Option Nat :=
  digits.foldlM
    (fun value c => do
      let digit ← hexValue? c
      if digit < base then some (value * base + digit) else none)
    0

/-- A character given by exactly `count` hexadecimal digits. -/
def readCodepoint (count : Nat) : Read Char := fun text => do
  let digits := text.take count
  let codepoint ← digitsValue? 16 digits
  if digits.length = count ∧ codepoint.isValidChar then
    some (Char.ofNat codepoint, text.drop count)
  else none

/-- The character of an escape, after its backslash. -/
def readEscape : Read Char
  | 'b' :: rest => some ('\x08', rest)
  | 't' :: rest => some ('\t', rest)
  | 'n' :: rest => some ('\n', rest)
  | 'f' :: rest => some ('\x0c', rest)
  | 'r' :: rest => some ('\r', rest)
  | '"' :: rest => some ('"', rest)
  | '\\' :: rest => some ('\\', rest)
  | 'u' :: rest => readCodepoint 4 rest
  | 'U' :: rest => readCodepoint 8 rest
  | _ => none

/-! ## 3. Strings on one line -/

/-- The characters up to a double quote; at most so many steps. -/
def readBasicOnto : Nat → List Char → Read String
  | 0, _, _ => none
  | _, _, [] => none
  | steps + 1, taken, c :: rest =>
    if c == '"' then some (String.ofList taken.reverse, rest)
    else if c == '\\' then do
      let (escaped, after) ← readEscape rest
      readBasicOnto steps (escaped :: taken) after
    else if isControl c then none
    else readBasicOnto steps (c :: taken) rest

/-- The characters up to a single quote. -/
def readLiteral : Read String := fun text =>
  match text.span fun c => c != '\'' && !isControl c with
  | (taken, '\'' :: rest) => some (String.ofList taken, rest)
  | _ => none

/-! ## 4. Strings of several lines -/

/-- The text after a line break that is escaped, and after all blanks and line breaks that
follow. -/
def escapedBreak? (text : List Char) : Option (List Char) :=
  (lineBreak? (skipBlanks text)).map skipSpace

/-- The characters up to three quotes.  A run of more than five quotes leaves some over. -/
def readLinesOnto (quote : Char) (escapes : Bool) : Nat → List Char → Read String
  | 0, _, _ => none
  | steps + 1, taken, text =>
    match text with
    | [] => none
    | c :: rest =>
      if c == quote then
        let run := (text.takeWhile (· == quote)).length
        if run < 3 then readLinesOnto quote escapes steps (c :: taken) rest
        else
          let kept := min (run - 3) 2
          some (String.ofList (List.replicate kept quote ++ taken).reverse, text.drop (kept + 3))
      else if c == '\\' && escapes then
        match escapedBreak? rest with
        | some after => readLinesOnto quote escapes steps taken after
        | none => do
          let (escaped, after) ← readEscape rest
          readLinesOnto quote escapes steps (escaped :: taken) after
      else
        match lineBreak? text with
        | some after => readLinesOnto quote escapes steps ('\n' :: taken) after
        | none =>
          if isControl c then none else readLinesOnto quote escapes steps (c :: taken) rest

/-- A text of several lines, after its opening quotes. -/
def readLines (quote : Char) (escapes : Bool) : Read String := fun text =>
  readLinesOnto quote escapes (text.length + 1) [] ((lineBreak? text).getD text)

/-! ## 5. Any string, and keys -/

/-- A string on one line, after its opening quote. -/
def readBasic : Read String := fun text => readBasicOnto (text.length + 1) [] text

/-- A string of any form. -/
def readString : Read String
  | '"' :: '"' :: '"' :: rest => readLines '"' true rest
  | '\'' :: '\'' :: '\'' :: rest => readLines '\'' false rest
  | '"' :: rest => readBasic rest
  | '\'' :: rest => readLiteral rest
  | _ => none

def isBareKey (c : Char) : Bool := c.isAlphanum || c == '_' || c == '-'

/-- One part of a key: bare, or a string on one line. -/
def readKeyPart : Read String
  | '"' :: rest => readBasic rest
  | '\'' :: rest => readLiteral rest
  | text =>
    match text.span isBareKey with
    | ([], _) => none
    | (part, rest) => some (String.ofList part, rest)

/-- The further parts of a key; at most so many. -/
def readKeyOnto : Nat → List String → Read (List String)
  | 0, _, _ => none
  | parts + 1, taken, text => do
    let (part, rest) ← readKeyPart (skipBlanks text)
    match skipBlanks rest with
    | '.' :: more => readKeyOnto parts (part :: taken) more
    | after => some ((part :: taken).reverse, after)

/-- Containers and keys may not go deeper than this. -/
def depthLimit : Nat := 80

/-- A key of one part or several with dots between them. -/
def readKey : Read (List String) := readKeyOnto (depthLimit - 1) []

end Toml
end StyleLex
