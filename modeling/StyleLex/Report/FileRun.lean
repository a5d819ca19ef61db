/-
# Lexing a file

A file is lexed in three steps that may each be the last: the forms of the dialect are checked,
the file is read, and its bytes are lexed.  The last step cannot fail.  `FileRun.trace` tells the
log how a run went, from its result alone.
-/
import StyleLex.Files.Reading
import StyleLex.Lexer.Trace
import StyleLex.Report

namespace StyleLex

/-! ## 1. Running -/

/-- Why a file was not lexed. -/
inductive RunError where
  | dialect (error : FormError)
  | file (error : FileError)
  deriving DecidableEq, Repr

namespace RunError

def code : RunError → Code
  | dialect _ => .formMalformed
  | file error => error.code

def message : RunError → String
  | dialect error => "Configuration rejected: " ++ error.message
  | file error => "File processing failed: " ++ error.message

end RunError

/-- A file that was lexed, and how. -/
structure FileRun where
  /-- The path that was asked for. -/
  path : String
  file : SourceFile
  lexer : Lexer
  outcome : Outcome

namespace FileRun

/-- What the lexer was given. -/
def source (run : FileRun) : Source := { bytes := run.file.bytes, filename := some run.path }

/-- The file at `path`, where `entry` stands, lexed in a dialect. -/
def ofEntry (dialect : Dialect) (path : String) (entry : Entry) : Except RunError FileRun :=
  match Lexer.ofDialect dialect with
  | .error error => .error (.dialect error)
  | .ok lexer =>
    match SourceFile.read path entry with
    | .error error => .error (.file error)
    | .ok file =>
      .ok
        { path := path
          file := file
          lexer := lexer
          outcome := lexer.tokenize { bytes := file.bytes, filename := some path } }

/-- The report on the file, under its full path. -/
def report (run : FileRun) : Report :=
  Report.ofOutcome run.file.info.path run.file.bytes run.outcome

/-! ## 2. Telling -/

/-- How long the parts of a run took. -/
structure Timing where
  reading : Duration := {}
  lexing : Duration := {}
  whole : Duration := {}
  deriving DecidableEq, Repr

/-- The shortest time, in seconds, that a rate is reckoned with. -/
def leastSeconds : Float := 1.0 / 4503599627370496.0

/-- Bytes by second. -/
def rate (size : Nat) (taken : Duration) : Float :=
  Float.ofNat size / (if taken.seconds < leastSeconds then leastSeconds else taken.seconds)

def successEvent (run : FileRun) (taken : Duration) : Event :=
  let census := run.report.census
  (Event.success .fileLexed "Lexing pipeline succeeded").withDetails
    [ ("file", run.path),
      ("nodes", toString census.total),
      ("invalid", toString census.invalid),
      ("duration_ms", Decimal.fixed 2 taken.milliseconds),
      ("processing_rate_bytes_per_sec", Decimal.fixed 0 (rate run.file.info.size taken)) ]

/-- The steps of a run, each as it went. -/
def steps (path : String) (reportRecoveries : Bool) (timing : Timing) :
    Except RunError FileRun → List Event
  | .error (.dialect error) => [error.event]
  | .error (.file error) => SourceFile.trace .full path timing.reading (.error error)
  | .ok run =>
    SourceFile.trace .full path timing.reading (.ok run.file) ++
      run.lexer.trace run.source reportRecoveries timing.lexing run.outcome ++
      [run.successEvent timing.whole]

/-- How the run on `path` went.  Every event names the file. -/
def trace (path : String) (reportRecoveries : Bool) (timing : Timing)
    (result : Except RunError FileRun) : List Event :=
  (Event.info "Starting lexing pipeline" :: steps path reportRecoveries timing result).map
    fun event => event.withDetail "file" path

end FileRun
end StyleLex
