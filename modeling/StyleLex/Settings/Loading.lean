/-
# Configuration files

A configuration file is unusable if there is no text at its path, or if the text is no
configuration.
-/
import StyleLex.Files.Entry
import StyleLex.Settings.Configuration
import StyleLex.Text.Quoted

namespace StyleLex

/-- Why a configuration could not be used. -/
inductive ConfigurationError where
  | unreadable (path : String) (obstacle : Obstacle)
  | malformed (path : String)
  deriving DecidableEq, Repr

namespace ConfigurationError

def code : ConfigurationError → Code
  | unreadable _ _ => .configurationUnreadable
  | malformed _ => .configurationMalformed

/-- The error in one line, with all that is known of it. -/
def render : ConfigurationError → String
  | unreadable path obstacle =>
    "IoError \x7b path: " ++ Text.quoted path ++ ", message: " ++ Text.quoted obstacle.message ++
      " \x7d"
  | malformed _ => "ParseError"

end ConfigurationError

namespace Configuration

/-- The configuration in the file at `path`, where `entry` stands. -/
def load (environment : Environment) (path : String) (entry : Entry) :
    Except ConfigurationError Configuration :=
  match entry.readText with
  | .error obstacle => .error (.unreadable path obstacle)
  | .ok text =>
    match read? environment text with
    | some configuration => .ok configuration
    | none => .error (.malformed path)

/-- How the loading of `path` went. -/
def loadEvents (path : String) : Except ConfigurationError Configuration → List Event
  | .error (.unreadable _ _) =>
    [ (Event.error .configurationUnreadable "Failed to read configuration file").withDetail
        "path" path ]
  | .error (.malformed _) =>
    [ (Event.error .configurationMalformed "Failed to parse configuration file").withDetail
        "path" path ]
  | .ok configuration =>
    [ (Event.debug "Configuration loaded").withDetails
        [ ("path", path),
          ("quasi_definitions", toString configuration.dialect.quasiDefinitions.length),
          ("annotation_definitions",
            toString configuration.dialect.annotationDefinitions.length) ] ]

end Configuration
end StyleLex
