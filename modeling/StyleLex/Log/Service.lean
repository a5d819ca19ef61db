/-
# The logging service

A service lets the events through that are grave enough, and writes each of them as one line, to
standard error if it tells of a problem and to standard output if not.
-/
import StyleLex.Settings.Environment

namespace StyleLex

/-- A stream of output. -/
inductive Channel where
  | output
  | error
  deriving DecidableEq, Repr

/-- How events are written. -/
inductive Sink where
  | lines
  | json
  /-- Not at all. -/
  | silent
  deriving DecidableEq, Repr

structure Service where
  sink : Sink
  /-- The least grave level that is let through. -/
  limit : Level
  deriving DecidableEq, Repr

namespace Service

/-- The service that preferences ask for. -/
def ofPreferences (preferences : LoggingPreferences) : Service where
  sink :=
    if !preferences.console then .silent
    else if preferences.structured then .json
    else .lines
  limit := preferences.limit

def admits (service : Service) (level : Level) : Bool := level.within service.limit

/-- The events that are let through. -/
def filter (service : Service) (events : List Event) : List Event :=
  events.filter fun event => service.admits event.level

/-- The line of an event that was let through. -/
def line? (service : Service) (time : Option Timestamp) (event : Event) :
    Option (Channel × String) :=
  let channel := if event.isProblem then Channel.error else .output
  match service.sink with
  | .lines => some (channel, event.format)
  | .json => some (channel, (event.toJson time).compact)
  | .silent => none

/-- The lines of some events. -/
def lines (service : Service) (time : Option Timestamp) (events : List Event) :
    List (Channel × String) :=
  (service.filter events).filterMap (service.line? time)

/-- The state of logging in words; `service` is the one in use, if one is. -/
def diagnostics (service : Option Service) (preferences : LoggingPreferences) : String :=
  "=== Logging System Diagnostics ===\n" ++
  "Initialized: " ++ Event.wordOf service.isSome ++ "\n" ++
  ((service.map fun service => "Active level: " ++ service.limit.name ++ "\n").getD "") ++
  "\n" ++ preferences.summary

end Service
end StyleLex
