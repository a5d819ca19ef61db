/-
# What is told at the start

Before any work is done, the limits on files and the codes of the lexer are told.
-/
import StyleLex.Files.Size
import StyleLex.Log.Event

namespace StyleLex
namespace Startup

/-- The codes that reading files may report. -/
def fileCodes : List Code :=
  [.fileNotFound, .fileTooLarge, .permissionDenied, .fileUnreadable, .pathInvalid, .fileRead]

/-- Does every code that work may report have a meaning? -/
def isReady : Bool := (fileCodes ++ Code.lexical).all fun code => code.registered?.isSome

/-- The log is open. -/
def opened : Event := Event.success .started "Global logging system initialized"

/-- Everything is in place. -/
def checked : List Event :=
  [ Event.debug "Validating pipeline configuration",
    (Event.debug "File processor configuration loaded").withDetails
      [ ("max_file_size", toString FileSize.limit),
        ("large_file_threshold", toString FileSize.largeThreshold) ],
    (Event.debug "Lexical analysis codes validated").withDetail "count"
      (toString Code.lexical.length),
    (Event.success .started "Pipeline validation succeeded").withDetails
      [ ("stages_validated", "2"),
        ("file_processing", Event.wordOf true),
        ("lexical_analysis", Event.wordOf true) ] ]

/-- A configuration file is in use. -/
def configured (path : String) : Event :=
  (Event.success .configurationLoaded "Runtime configuration loaded").withDetail "path" path

end Startup
end StyleLex
