/-
# Settings from the environment

Variables of the environment change the defaults of a dialect and of logging.  A variable that is
not set, or does not spell a value, changes nothing.
-/
import StyleLex.Dialect
import StyleLex.Log.Event

namespace StyleLex

/-! ## 1. Variables -/

/-- Variables and their values. -/
abbrev Environment := List (String × String)

namespace Environment

/-- A switch, which is on for `true` and off for `false`, as written. -/
def flag (environment : Environment) (name : String) (default : Bool) : Bool :=
  match environment.lookup name with
  | some "true" => true
  | some "false" => false
  | _ => default

end Environment

/-! ## 2. What they set -/

/-- Plain CSS, but for what the environment says. -/
def Dialect.ofEnvironment (environment : Environment) : Dialect where
  extendedNumbers := environment.flag "CSSX_EXTENDED_NUMBERS" Dialect.standard.extendedNumbers
  extendedEscapes := environment.flag "CSSX_EXTENDED_ESCAPES" Dialect.standard.extendedEscapes
  standardEscapes := environment.flag "CSSX_STANDARD_ESCAPES" Dialect.standard.standardEscapes
  extendedStrings := environment.flag "CSSX_EXTENDED_STRINGS" Dialect.standard.extendedStrings
  extendedComments := environment.flag "CSSX_EXTENDED_COMMENTS" Dialect.standard.extendedComments
  standardUrls := environment.flag "CSSX_STANDARD_URLS" Dialect.standard.standardUrls
  standardCdx := environment.flag "CSSX_STANDARD_CDX" Dialect.standard.standardCdx
  quasiDefinitions := []
  annotationDefinitions := []

/-- What is logged, and how. -/
structure LoggingPreferences where
  /-- JSON instead of plain lines? -/
  structured : Bool := false
  /-- Is anything written at all? -/
  console : Bool := true
  /-- The least grave level that is written. -/
  limit : Level := .warning
  /-- Is every recovery reported? -/
  reportRecoveries : Bool := true
  deriving DecidableEq, Repr

namespace LoggingPreferences

def ofEnvironment (environment : Environment) : LoggingPreferences where
  structured := environment.flag "CSSX_LOGGING_USE_STRUCTURED" false
  console := environment.flag "CSSX_LOGGING_ENABLE_CONSOLE" true
  limit := ((environment.lookup "CSSX_LOGGING_MIN_LEVEL").bind Level.ofWord?).getD .warning
  reportRecoveries := environment.flag "CSSX_LOGGING_LOG_RECOVERIES" true

/-- The preferences in words, line by line. -/
def summaryLines (preferences : LoggingPreferences) : List String :=
  [ "=== Logging Configuration ===",
    "Minimum level: " ++ preferences.limit.name,
    "Structured output: " ++ Event.wordOf preferences.structured,
    "Console output: " ++ Event.wordOf preferences.console,
    "Report recoveries: " ++ Event.wordOf preferences.reportRecoveries ]

/-- The preferences in words. -/
def summary (preferences : LoggingPreferences) : String :=
  preferences.summaryLines.foldl (fun text line => text ++ line ++ "\n") ""

end LoggingPreferences
end StyleLex
