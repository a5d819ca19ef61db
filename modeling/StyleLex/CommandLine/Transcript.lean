/-
# What a run says

A run writes lines to standard output and to standard error: warnings about its words, what its
log lets through, and its results.
-/
import StyleLex.CommandLine.Run
import StyleLex.Log.Service
import StyleLex.Log.Startup
import StyleLex.Tree.Dump

namespace StyleLex
namespace CommandLine

/-- Lines for the two streams, in order; the last line of a text may have an end of its own. -/
abbrev Transcript := List (Channel × String)

namespace Transcript

def output (lines : List String) : Transcript := lines.map fun line => (.output, line)

def errors (lines : List String) : Transcript := lines.map fun line => (.error, line)

/-- All that goes to one stream. -/
def textOf (channel : Channel) (transcript : Transcript) : String :=
  (transcript.filter fun line => line.1 = channel).foldl
    (fun text line => text ++ line.2 ++ "\n") ""

/-! ## 1. Help -/

def usage (program : String) : List String :=
  [ "Usage: " ++ program ++ " <file> [--config FILE] [--json] [--extended] [--quiet]",
    "       " ++ program ++ " --help" ]

def help (program : String) (preferences : LoggingPreferences) : List String :=
  [ "cssx-lex v0.1.0",
    "Lex a CSS-superset stylesheet into its lexical node tree",
    "",
    "USAGE:",
    "    " ++ program ++ " <file> [options]",
    "",
    "OPTIONS:",
    "    --help              Show this help message",
    "    --config FILE       Load lexer and logging options from a TOML file",
    "    --json              Print the tree and counts as JSON",
    "    --extended          Enable every dialect extension",
    "    --quiet             Print only the summary and diagnostics",
    "",
    "EXIT STATUS:",
    "    0    The source lexed without malformed constructs",
    "    1    The file or configuration could not be used",
    "    2    The source contains malformed constructs",
    "",
    "EXAMPLES:",
    "    " ++ program ++ " style.css",
    "    " ++ program ++ " theme.cssx --config cssx.toml --json",
    "" ] ++
  preferences.summaryLines

/-! ## 2. Results -/

/-- A name, and blanks after it up to a width. -/
def padded (width : Nat) (name : String) : String :=
  name ++ String.ofList (List.replicate (width - name.length) ' ')

def kindLines (census : Census) : List String :=
  if census.byKind.isEmpty then []
  else
    "By kind:" ::
      census.byKind.map fun entry => "    " ++ padded 12 entry.1 ++ " " ++ toString entry.2

def summary (run : FileRun) (timing : FileRun.Timing) : List String :=
  let census := run.report.census
  [ "=== Lexing Summary ===",
    "File: " ++ run.file.info.path,
    "Size: " ++ run.file.info.renderSize ++ " (" ++ toString run.file.lineCount ++ " lines)",
    "Nodes: " ++ toString census.total ++ " (" ++ toString census.branches ++ " branches, " ++
      toString census.leaves ++ " leaves, " ++ toString census.significant ++ " significant)",
    "Deepest nesting: " ++ toString census.depth,
    "Invalid nodes: " ++ toString census.invalid,
    "Recoveries: " ++ toString run.outcome.metrics.recoveries,
    "Duration: " ++ Decimal.fixed 2 timing.whole.milliseconds ++ "ms (lexing " ++
      Decimal.fixed 2 timing.lexing.milliseconds ++ "ms)" ] ++
  kindLines census

/-- The results of a file that was lexed. -/
def results (arguments : Arguments) (timing : FileRun.Timing) (run : FileRun) : Transcript :=
  if arguments.json then output [run.report.toJson.pretty]
  else
    output (if arguments.quiet then [] else [run.outcome.tree.dump run.file.bytes]) ++
      errors (run.report.diagnostics.map Diagnostic.render) ++
      output (summary run timing)

/-! ## 3. Runs -/

/-- The events of a run that came to try a file. -/
def events (arguments : Arguments) (reportRecoveries : Bool) (timing : FileRun.Timing)
    (path : String) (result : Except RunError FileRun) : List Event :=
  Startup.opened :: Startup.checked ++
    (arguments.configuration.map Startup.configured).toList ++
    FileRun.trace path reportRecoveries timing result

/-- What a run says; `time` is the time that its log tells, if any. -/
def ofRun (program : String) (timing : FileRun.Timing) (time : Option Timestamp) (run : Run) :
    Transcript :=
  errors run.arguments.warnings ++
    match run.ending with
    | .help => output (help program (LoggingPreferences.ofEnvironment run.environment))
    | .noInput => errors (usage program)
    | .unconfigured error => errors ["Error: " ++ error.render]
    | .tried configuration path result =>
      let preferences := configuration.logging
      (Service.ofPreferences preferences).lines time
        (events run.arguments preferences.reportRecoveries timing path result) ++
      match result with
      | .error error => errors ["error[" ++ error.code.text ++ "]: " ++ error.message]
      | .ok done => results run.arguments timing done

end Transcript
end CommandLine
end StyleLex
