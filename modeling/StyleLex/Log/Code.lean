/-
# Codes of events

Every event has a code, and the registry says what a code means: its category, how severe it is,
whether work goes on after it, and what to do about it.  A code that is not registered still has
a meaning, the cautious one: medium severity, recoverable, and no advice.
-/

namespace StyleLex

/-! ## 1. Codes -/

inductive Severity where
  | critical
  | high
  | medium
  | low
  deriving DecidableEq, Repr

def Severity.name : Severity → String
  | critical => "Critical"
  | high => "High"
  | medium => "Medium"
  | low => "Low"

structure Code where
  text : String
  deriving DecidableEq, Repr

namespace Code

def internalError : Code := ⟨"ERR001"⟩
def startupFailed : Code := ⟨"ERR002"⟩
def formMalformed : Code := ⟨"E001"⟩
def configurationMalformed : Code := ⟨"E002"⟩
def configurationUnreadable : Code := ⟨"E003"⟩
def fileNotFound : Code := ⟨"E005"⟩
def fileTooLarge : Code := ⟨"E007"⟩
def permissionDenied : Code := ⟨"E009"⟩
def fileUnreadable : Code := ⟨"E011"⟩
def pathInvalid : Code := ⟨"E012"⟩
def quotedOpen : Code := ⟨"W020"⟩
def groupOpen : Code := ⟨"W021"⟩
def commentOpen : Code := ⟨"W022"⟩
def urlOpen : Code := ⟨"W023"⟩
def fragmentOpen : Code := ⟨"W024"⟩
def danglingCloser : Code := ⟨"W025"⟩
def hashMalformed : Code := ⟨"W026"⟩
def escapeOpen : Code := ⟨"W027"⟩
def unexpectedCharacter : Code := ⟨"W028"⟩
def resumeRefused : Code := ⟨"E020"⟩
def started : Code := ⟨"I004"⟩
def fileRead : Code := ⟨"I006"⟩
def configurationLoaded : Code := ⟨"I010"⟩
def tokenized : Code := ⟨"I020"⟩
def fileLexed : Code := ⟨"I030"⟩
/-- The codes of events that need none of their own. -/
def warning : Code := ⟨"W000"⟩
def info : Code := ⟨"I000"⟩
def debug : Code := ⟨"D000"⟩

end Code

/-! ## 2. The registry -/

/-- What a code means. -/
structure Meaning where
  category : String
  severity : Severity
  recoverable : Bool
  description : String
  action : String
  deriving DecidableEq, Repr

namespace Meaning

/-- The meaning of a code that nobody registered. -/
def unknown : Meaning where
  category := "Unknown"
  severity := .medium
  recoverable := true
  description := "Unknown error"
  action := "No specific action available"

def system (severity : Severity) (recoverable : Bool) (description action : String) : Meaning :=
  ⟨"System", severity, recoverable, description, action⟩

def configuration (description action : String) : Meaning :=
  ⟨"Configuration", .high, false, description, action⟩

def file (severity : Severity) (description action : String) : Meaning :=
  ⟨"FileProcessing", severity, false, description, action⟩

/-- A construct that the lexer recovered from. -/
def recovered (severity : Severity) (description action : String) : Meaning :=
  ⟨"Lexical", severity, true, description, action⟩

def success (category description action : String) : Meaning :=
  ⟨category, .low, true, description, action⟩

end Meaning

namespace Code

open Meaning in
/-- Every registered code. -/
def registry : List (Code × Meaning) :=
  [ (internalError, system .critical false "Critical internal system error"
      "File a bug report with the input that triggered it"),
    (startupFailed, system .critical false "System initialization failure"
      "Check logging configuration and environment variables"),
    (formMalformed, configuration "Quasi or annotation syntax is malformed"
      "Use up to two operator characters followed by \x7b\x7d, [] or ()"),
    (configurationMalformed, configuration "Configuration file could not be parsed"
      "Check the TOML syntax and option names"),
    (configurationUnreadable, configuration "Configuration file could not be read"
      "Check that the path exists and is readable"),
    (fileNotFound, file .high "Source file not found" "Check the file path"),
    (fileTooLarge, file .high "Source file exceeds the maximum size"
      "Split the stylesheet or lex it in ranges"),
    (permissionDenied, file .high "Permission denied reading the source file"
      "Check file permissions"),
    (fileUnreadable, file .high "I/O error while reading the source file"
      "Retry or check the underlying device"),
    (pathInvalid, file .medium "Path is empty or not a regular file"
      "Pass the path of a stylesheet file"),
    (quotedOpen, recovered .medium "String closed by a newline or the end of input"
      "Add the closing quote or escape the line break"),
    (groupOpen, recovered .medium "Group still open at the end of input"
      "Add the missing closing delimiter"),
    (commentOpen, recovered .medium "Comment still open at the end of input"
      "Close the comment with */"),
    (urlOpen, recovered .medium "url( literal still open at the end of input"
      "Add the closing parenthesis"),
    (fragmentOpen, recovered .medium "Quasi or annotation still open at the end of input"
      "Close the fragment body"),
    (danglingCloser, recovered .low "Closing delimiter does not match the innermost open group"
      "Remove the delimiter or fix the opening one"),
    (hashMalformed, recovered .low "Hash is neither a name nor a 3, 4, 6 or 8 digit color"
      "Fix the color digits"),
    (escapeOpen, recovered .low "\\u\x7b escape without a closing brace"
      "Close the escape with \x7d"),
    (unexpectedCharacter, recovered .low "Bytes that start no token"
      "Remove or escape the characters"),
    (resumeRefused, ⟨"Lexical", .high, false, "Resume target is not a branch of the tree",
      "Resume into the root or an existing branch node"⟩),
    (started, success "System" "Logging system initialized" "None"),
    (fileRead, success "FileProcessing" "Source file read successfully"
      "Continue to lexical analysis"),
    (configurationLoaded, success "Configuration" "Configuration loaded" "None"),
    (tokenized, success "Lexical" "Tokenization completed"
      "Inspect invalid nodes if any were reported"),
    (fileLexed, success "Pipeline" "File lexed end to end" "None") ]

/-- The registered meaning of a code. -/
def registered? (code : Code) : Option Meaning := registry.lookup code

/-- The meaning of any code. -/
def meaning (code : Code) : Meaning := (registered? code).getD Meaning.unknown

/-- The codes that lexing may report. -/
def lexical : List Code :=
  [quotedOpen, groupOpen, commentOpen, urlOpen, fragmentOpen, danglingCloser, hashMalformed,
    escapeOpen, unexpectedCharacter, resumeRefused, tokenized]

end Code
end StyleLex
