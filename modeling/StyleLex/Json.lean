/-
# JSON values and their text

An object is a list of fields, in the order in which they are written.  There are two layouts: all
on one line, and one value a line with two blanks for every level.
-/
import StyleLex.Decimal.Layout

namespace StyleLex

inductive Json where
  | null
  | bool (value : Bool)
  | natural (value : Nat)
  | number (value : Float)
  | string (value : String)
  | array (items : List Json)
  | object (fields : List (String × Json))

namespace Json

/-! ## 1. Strings -/

def hexDigit (n : Nat) : Char := (Nat.digitChar (n % 16))

/-- A character inside a string. -/
def escapeChar (c : Char) : List Char :=
  match c with
  | '"' => ['\\', '"']
  | '\\' => ['\\', '\\']
  | '\n' => ['\\', 'n']
  | '\r' => ['\\', 'r']
  | '\t' => ['\\', 't']
  | _ =>
    if c.toNat = 0x08 then ['\\', 'b']
    else if c.toNat = 0x0C then ['\\', 'f']
    else if c.toNat < 0x20 then
      ['\\', 'u', '0', '0', hexDigit (c.toNat / 16), hexDigit c.toNat]
    else [c]

/-- A string in quotes. -/
def quote (text : String) : String :=
  (text.foldl (fun written c => (escapeChar c).foldl String.push written) "\"").push '"'

/-! ## 2. Layouts -/

/-- A value that holds no other values. -/
def scalar : Json → String
  | null => "null"
  | bool value => if value then "true" else "false"
  | natural value => toString value
  | number value => Decimal.write Decimal.json value
  | string value => quote value
  | array _ => "[]"
  | object _ => "\x7b\x7d"

mutual

/-- Adds a value on one line to `text`. -/
def compactOnto (text : String) : Json → String
  | array [] => text ++ "[]"
  | array (item :: rest) => compactItems (compactOnto (text ++ "[") item) rest ++ "]"
  | object [] => text ++ "\x7b\x7d"
  | object ((key, value) :: rest) =>
    compactFields (compactOnto (text ++ "\x7b" ++ quote key ++ ":") value) rest ++ "\x7d"
  | value => text ++ value.scalar

/-- Adds the items after the first one. -/
def compactItems (text : String) : List Json → String
  | [] => text
  | item :: rest => compactItems (compactOnto (text ++ ",") item) rest

/-- Adds the fields after the first one. -/
def compactFields (text : String) : List (String × Json) → String
  | [] => text
  | (key, value) :: rest =>
    compactFields (compactOnto (text ++ "," ++ quote key ++ ":") value) rest

end

/-- A value on one line. -/
def compact (value : Json) : String := compactOnto "" value

/-- A line break, and two blanks for every level. -/
def newline (level : Nat) : String := "\n" ++ String.ofList (List.replicate (2 * level) ' ')

mutual

/-- Adds a value inside `level` others to `text`, over as many lines as it has parts. -/
def prettyOnto (level : Nat) (text : String) : Json → String
  | array [] => text ++ "[]"
  | array (item :: rest) =>
    prettyItems (level + 1) (prettyOnto (level + 1) (text ++ "[" ++ newline (level + 1)) item)
      rest ++ newline level ++ "]"
  | object [] => text ++ "\x7b\x7d"
  | object ((key, value) :: rest) =>
    prettyFields (level + 1)
      (prettyOnto (level + 1) (text ++ "\x7b" ++ newline (level + 1) ++ quote key ++ ": ") value)
      rest ++ newline level ++ "\x7d"
  | value => text ++ value.scalar

/-- Adds the items after the first one. -/
def prettyItems (level : Nat) (text : String) : List Json → String
  | [] => text
  | item :: rest =>
    prettyItems level (prettyOnto level (text ++ "," ++ newline level) item) rest

/-- Adds the fields after the first one. -/
def prettyFields (level : Nat) (text : String) : List (String × Json) → String
  | [] => text
  | (key, value) :: rest =>
    prettyFields level (prettyOnto level (text ++ "," ++ newline level ++ quote key ++ ": ") value)
      rest

end

/-- A value over as many lines as it has parts. -/
def pretty (value : Json) : String := prettyOnto 0 "" value

/-! ## 3. Fields in order -/

/-- The fields of a finite map, ordered by key; of equal keys the last one counts. -/
def insertField (key : String) (value : Json) : List (String × Json) → List (String × Json)
  | [] => [(key, value)]
  | (known, old) :: rest =>
    if known = key then (key, value) :: rest
    else if key < known then (key, value) :: (known, old) :: rest
    else (known, old) :: insertField key value rest

/-- An object whose fields are ordered by key. -/
def sorted (fields : List (String × Json)) : Json :=
  object (fields.foldl (fun ordered field => insertField field.1 field.2 ordered) [])

end Json
end StyleLex
