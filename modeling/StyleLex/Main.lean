/-
# The program

The arguments are read, the paths that they name are looked up, and the run over what was found
is written out.  The exit status tells how it ended.
-/
import Std.Time.DateTime.Timestamp
import StyleLex.CommandLine.Transcript

namespace StyleLex
namespace Main

/-- The variables that a run may ask for. -/
def variableNames : List String :=
  [ "CSSX_EXTENDED_NUMBERS", "CSSX_EXTENDED_ESCAPES", "CSSX_STANDARD_ESCAPES",
    "CSSX_EXTENDED_STRINGS", "CSSX_EXTENDED_COMMENTS", "CSSX_STANDARD_URLS", "CSSX_STANDARD_CDX",
    "CSSX_LOGGING_USE_STRUCTURED", "CSSX_LOGGING_ENABLE_CONSOLE", "CSSX_LOGGING_MIN_LEVEL",
    "CSSX_LOGGING_LOG_RECOVERIES" ]

def readEnvironment : IO Environment :=
  variableNames.filterMapM fun name => do
    return (← IO.getEnv name).map fun value => (name, value)

/-- What an error of the system says about a path. -/
def obstacleOf : IO.Error → Obstacle
  | .noFileOrDirectory .. | .noSuchThing .. => .notFound
  | .inappropriateType .. => .notADirectory
  | .permissionDenied .. => .denied
  | error => .other error.toString

/-- Looks a path up.  A file over the limit is not read. -/
def lookUp (path : String) : IO Entry := do
  if path.contains '\x00' then return .absent .malformedName
  try
    let canonical ← IO.FS.realPath path
    let metadata ← canonical.metadata
    match metadata.type with
    | .file =>
      let size := metadata.byteSize.toNat
      let content : Except Obstacle (Array UInt8) ←
        if FileSize.limit < size then pure (.error (.other "File too large"))
        else
          try
            let bytes ← IO.FS.readBinFile canonical
            pure (.ok bytes.data)
          catch error => pure (.error (obstacleOf error))
      return .file
        { path := canonical.toString
          size := size
          modified := some
            { seconds := metadata.modified.sec, nanoseconds := metadata.modified.nsec.toNat }
          content := content }
    | _ => return .directory
  catch error => return .absent (obstacleOf error)

/-- The time of day. -/
def now : IO Timestamp := do
  let nanoseconds := (← Std.Time.Timestamp.now).toNanosecondsSinceUnixEpoch.val
  return ⟨nanoseconds.fdiv 1000000000, (nanoseconds.fmod 1000000000).toNat⟩

/-- Writes one line to its stream. -/
def write (line : Channel × String) : IO Unit :=
  match line.1 with
  | .output => IO.println line.2
  | .error => IO.eprintln line.2

end Main
end StyleLex

open StyleLex in
/-- One run over the words of the command line. -/
def main (words : List String) : IO UInt32 := do
  let environment ← Main.readEnvironment
  let start ← IO.monoNanosNow
  let entries ← (CommandLine.Arguments.ofWords words).paths.mapM fun path => do
    return (path, ← Main.lookUp path)
  let read ← IO.monoNanosNow
  let look := fun path => (entries.lookup path).getD (.absent .notFound)
  let run ← IO.lazyPure fun _ => CommandLine.Run.ofWords environment look words
  let done ← IO.monoNanosNow
  let timing : FileRun.Timing := ⟨⟨read - start⟩, ⟨done - read⟩, ⟨done - start⟩⟩
  let time ← Main.now
  (CommandLine.Transcript.ofRun "cssx-lex" timing time run).forM Main.write
  return UInt32.ofNat run.status
