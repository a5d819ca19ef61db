/-
# Arguments

The words of a command line are read from left to right: options begin with two hyphens, and the
first word that is no option names the input.  A word that makes no sense is passed over with a
warning.  A wish for help is looked for first, wherever it stands.
-/

namespace StyleLex
namespace CommandLine

structure Arguments where
  input : Option String := none
  /-- A configuration file; the last one that was named. -/
  configuration : Option String := none
  json : Bool := false
  extended : Bool := false
  quiet : Bool := false
  /-- Words that made no sense, in order. -/
  warnings : List String := []
  deriving DecidableEq, Repr

namespace Arguments

def warn (arguments : Arguments) (warning : String) : Arguments :=
  { arguments with warnings := arguments.warnings ++ ["Warning: " ++ warning] }

def isOption (word : String) : Bool :=
  match word.toList with
  | '-' :: '-' :: _ => true
  | _ => false

/-- Takes one word that is not about configuration. -/
def take (arguments : Arguments) (word : String) : Arguments :=
  if word = "--json" then { arguments with json := true }
  else if word = "--extended" then { arguments with extended := true }
  else if word = "--quiet" then { arguments with quiet := true }
  else if isOption word then arguments.warn ("Unknown option '" ++ word ++ "'")
  else
    match arguments.input with
    | some _ => arguments.warn ("Ignoring extra input '" ++ word ++ "'")
    | none => { arguments with input := some word }

/-- Takes words from left to right. -/
def takeAll (arguments : Arguments) : List String → Arguments
  | [] => arguments
  | [word] =>
    if word = "--config" then arguments.warn "--config requires a file path"
    else arguments.take word
  | word :: next :: rest =>
    if word = "--config" then takeAll { arguments with configuration := some next } rest
    else takeAll (arguments.take word) (next :: rest)

def ofWords (words : List String) : Arguments := takeAll {} words

def asksForHelp (words : List String) : Bool := words.contains "--help"

/-- The paths that a run looks at. -/
def paths (arguments : Arguments) : List String :=
  arguments.configuration.toList ++ arguments.input.toList

end Arguments
end CommandLine
end StyleLex
