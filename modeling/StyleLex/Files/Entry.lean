/-
# What stands at a path

A path leads to a file, to something that is no file, or to nothing that can be reached.  `Entry`
is the answer to the question, so that reading a file is a plain function of it.
-/
import StyleLex.Timestamp
import StyleLex.Utf8

namespace StyleLex

/-- Why there is nothing to read. -/
inductive Obstacle where
  | notFound
  /-- A file stands where a directory should. -/
  | notADirectory
  | isADirectory
  | denied
  /-- The name holds a byte that no name may hold. -/
  | malformedName
  /-- Bytes that are no text. -/
  | notText
  | other (reason : String)
  deriving DecidableEq, Repr

def Obstacle.message : Obstacle → String
  | notFound => "No such file or directory (os error 2)"
  | notADirectory => "Not a directory (os error 20)"
  | isADirectory => "Is a directory (os error 21)"
  | denied => "Permission denied (os error 13)"
  | malformedName => "file name contained an unexpected NUL byte"
  | notText => "stream did not contain valid UTF-8"
  | other reason => reason

structure File where
  /-- The full path, with nothing in it that could be left out. -/
  path : String
  size : Nat
  modified : Option Timestamp := none
  content : Except Obstacle (Array UInt8)

inductive Entry where
  | absent (obstacle : Obstacle)
  /-- A directory, or whatever else is no file. -/
  | directory
  | file (file : File)

namespace Entry

/-- The bytes at a path. -/
def read : Entry → Except Obstacle (Array UInt8)
  | absent obstacle => .error obstacle
  | directory => .error .isADirectory
  | file found => found.content

/-- The text at a path. -/
def readText (entry : Entry) : Except Obstacle String := do
  let bytes ← entry.read
  match Utf8.decode? bytes.toList with
  | some text => pure text
  | none => .error .notText

end Entry
end StyleLex
