/-
# Quoted text

A text in double quotes, for people who have to see what is in it: a quote and a backslash have a
backslash before them, line breaks and tabs are written by their letters, and what is not visible
is written by its number in braces.
-/
import StyleLex.Text.Visible

namespace StyleLex
namespace Text

/-- The characters by which one character is written. -/
def encodeChar (c : Char) : List Char :=
  match c with
  | '"' => ['\\', '"']
  | '\\' => ['\\', '\\']
  | '\n' => ['\\', 'n']
  | '\r' => ['\\', 'r']
  | '\t' => ['\\', 't']
  | _ =>
    if c.toNat = 0 then ['\\', '0']
    else if isVisible c then [c]
    else ['\\', 'u', '\x7b'] ++ Nat.toDigits 16 c.toNat ++ ['\x7d']

/-- A text in quotes. -/
def quoted (text : String) : String :=
  (text.foldl (fun written c => (encodeChar c).foldl String.push written) "\"").push '"'

end Text
end StyleLex
