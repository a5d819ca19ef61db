/-
# Events

An event says what happened: how grave it is, under which code, in words, where in the source, and
with which details.  Details are kept in the order of their keys, one for each key.

Events have three texts: one line, several lines with the meaning of the code, and JSON.  Only the
JSON tells the time, and the time is given when it is written.
-/
import StyleLex.Json
import StyleLex.Log.Code
import StyleLex.Position
import StyleLex.Timestamp

namespace StyleLex

/-! ## 1. Levels -/

/-- How grave an event is. -/
inductive Level where
  | error
  | warning
  | info
  | debug
  deriving DecidableEq, Repr

namespace Level

/-- Graver levels rank lower. -/
def rank : Level → Nat
  | error => 0
  | warning => 1
  | info => 2
  | debug => 3

/-- Is a level at least as grave as a limit? -/
def within (level limit : Level) : Bool := level.rank ≤ limit.rank

def name : Level → String
  | error => "ERROR"
  | warning => "WARN"
  | info => "INFO"
  | debug => "DEBUG"

/-- The level that a word or a number stands for, in upper or lower case. -/
def ofWord? (word : String) : Option Level :=
  match String.ofList (word.toList.map Char.toLower) with
  | "error" | "0" => some error
  | "warning" | "warn" | "1" => some warning
  | "info" | "2" => some info
  | "debug" | "3" => some debug
  | _ => none

/-- The word for a level in a configuration. -/
def keyword : Level → String
  | error => "Error"
  | warning => "Warning"
  | info => "Info"
  | debug => "Debug"

def ofKeyword? (word : String) : Option Level :=
  [error, warning, info, debug].find? fun level => level.keyword == word

end Level

/-! ## 2. Events -/

structure Event where
  level : Level
  code : Code
  message : String
  span : Option Span := none
  /-- Details by key, ordered by key. -/
  details : List (String × String) := []
  deriving DecidableEq, Repr

namespace Event

/-- Sets one detail. -/
def insertDetail (key value : String) : List (String × String) → List (String × String)
  | [] => [(key, value)]
  | (known, old) :: rest =>
    if known = key then (key, value) :: rest
    else if key < known then (key, value) :: (known, old) :: rest
    else (known, old) :: insertDetail key value rest

def withDetail (event : Event) (key value : String) : Event :=
  { event with details := insertDetail key value event.details }

/-- Sets several details, one after the other. -/
def withDetails (event : Event) (details : List (String × String)) : Event :=
  details.foldl (fun event detail => event.withDetail detail.1 detail.2) event

def withSpan (event : Event) (span : Span) : Event := { event with span := some span }

def error (code : Code) (message : String) : Event := ⟨.error, code, message, none, []⟩

def warning (code : Code) (message : String) : Event := ⟨.warning, code, message, none, []⟩

def success (code : Code) (message : String) : Event := ⟨.info, code, message, none, []⟩

def info (message : String) : Event := ⟨.info, .info, message, none, []⟩

def debug (message : String) : Event := ⟨.debug, .debug, message, none, []⟩

/-- Is something amiss? -/
def isProblem (event : Event) : Bool := event.level = .error || event.level = .warning

/-! ## 3. Texts -/

/-- The event on one line. -/
def format (event : Event) : String :=
  let place := (event.span.map fun span => " at " ++ span.start.render).getD ""
  let details :=
    if event.details.isEmpty then ""
    else
      " (" ++
      ", ".intercalate (event.details.map fun detail => detail.1 ++ "=" ++ detail.2) ++ ")"
  "[" ++ event.level.name ++ "] " ++ event.code.text ++ " - " ++ event.message ++ place ++ details

def wordOf (value : Bool) : String := if value then "true" else "false"

/-- The event and what its code means. -/
def formatDetailed (event : Event) : String :=
  let meaning := event.code.meaning
  event.format ++
  "\n  Category: " ++ meaning.category ++
  "\n  Severity: " ++ meaning.severity.name ++
  (if event.isProblem then "\n  Recoverable: " ++ wordOf meaning.recoverable else "") ++
  (if meaning.description = Meaning.unknown.description then ""
    else "\n  Description: " ++ meaning.description) ++
  (if meaning.action = Meaning.unknown.action then ""
    else "\n  Recommended action: " ++ meaning.action)

def spanJson (span : Span) : Json :=
  .sorted
    [ ("begin_byte", .natural span.start.byte),
      ("end_byte", .natural span.stop.byte),
      ("begin_line", .natural span.start.lineNumber),
      ("begin_column", .natural span.start.column),
      ("end_line", .natural span.stop.lineNumber),
      ("end_column", .natural span.stop.column) ]

/-- The event as a JSON object, with the time if there is one to tell. -/
def toJson (event : Event) (time : Option Timestamp) : Json :=
  let meaning := event.code.meaning
  let metadata : List (String × Json) :=
    if event.isProblem then
      [("metadata", .sorted
        [ ("recoverable", .bool meaning.recoverable),
          ("description", .string meaning.description),
          ("recommended_action", .string meaning.action) ])]
    else []
  let context : List (String × Json) :=
    if event.details.isEmpty then []
    else [("context", .object (event.details.map fun detail => (detail.1, .string detail.2)))]
  .sorted <|
    (time.map fun stamp => ("timestamp", .string stamp.render)).toList ++
    [ ("level", .string event.level.name),
      ("code", .string event.code.text),
      ("message", .string event.message),
      ("category", .string meaning.category),
      ("severity", .string meaning.severity.name) ] ++
    metadata ++ (event.span.map fun span => ("span", spanJson span)).toList ++ context

end Event
end StyleLex
