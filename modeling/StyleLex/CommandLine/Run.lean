/-
# A run of the command line

A run asks what stands at the paths that were named, and ends in one of four ways.  How it ends
settles its exit status; what it says is in `StyleLex.CommandLine.Transcript`.
-/
import StyleLex.CommandLine.Arguments
import StyleLex.Report.FileRun
import StyleLex.Settings.Loading

namespace StyleLex
namespace CommandLine

/-- How a run ended. -/
inductive Ending where
  | help
  | noInput
  | unconfigured (error : ConfigurationError)
  /-- A file was tried. -/
  | tried (configuration : Configuration) (path : String) (result : Except RunError FileRun)

structure Run where
  environment : Environment
  arguments : Arguments
  ending : Ending

namespace Run

/-- The configuration of a run; where no file is named it is that of the environment. -/
def configuration (environment : Environment) (look : String → Entry) :
    Option String → Except ConfigurationError Configuration
  | some path => Configuration.load environment path (look path)
  | none => .ok (Configuration.ofEnvironment environment)

/-- The configuration as the other words change it. -/
def adjust (arguments : Arguments) (configuration : Configuration) : Configuration where
  dialect :=
    if arguments.extended then
      { Dialect.extended with
        quasiDefinitions := configuration.dialect.quasiDefinitions
        annotationDefinitions := configuration.dialect.annotationDefinitions }
    else configuration.dialect
  logging :=
    if arguments.quiet then { configuration.logging with console := false }
    else configuration.logging

/-- The end of a run that was not asked for help. -/
def endingOf (environment : Environment) (look : String → Entry) (arguments : Arguments) :
    Ending :=
  match arguments.input with
  | none => .noInput
  | some path =>
    match configuration environment look arguments.configuration with
    | .error error => .unconfigured error
    | .ok configuration =>
      let adjusted := adjust arguments configuration
      .tried adjusted path (FileRun.ofEntry adjusted.dialect path (look path))

/-- A run over some words; `look` tells what stands at a path. -/
def ofWords (environment : Environment) (look : String → Entry) (words : List String) : Run :=
  if Arguments.asksForHelp words then ⟨environment, {}, .help⟩
  else
    let arguments := Arguments.ofWords words
    ⟨environment, arguments, endingOf environment look arguments⟩

/-- The exit status: 1 if nothing could be lexed, and 2 for a malformed source that is not written
as JSON. -/
def status (run : Run) : Nat :=
  match run.ending with
  | .help => 0
  | .noInput | .unconfigured _ | .tried _ _ (.error _) => 1
  | .tried _ _ (.ok done) => if run.arguments.json || done.report.isClean then 0 else 2

end Run
end CommandLine
end StyleLex
