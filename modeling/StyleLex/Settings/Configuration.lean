/-
# Configurations

A configuration is a dialect and preferences for logging.  It is read from a TOML document; what
the document leaves out is as the environment has it, and keys that mean nothing are ignored.  A
value of the wrong type makes the whole document unusable.

A record may be written as a table, by name, or as an array, by place.
-/
import StyleLex.Settings.Environment
import StyleLex.Toml.Reader
import StyleLex.Toml.Writer

namespace StyleLex

structure Configuration where
  dialect : Dialect
  logging : LoggingPreferences
  deriving DecidableEq, Repr

namespace Configuration

def ofEnvironment (environment : Environment) : Configuration where
  dialect := Dialect.ofEnvironment environment
  logging := LoggingPreferences.ofEnvironment environment

end Configuration

/-! ## 1. Reading -/

namespace Toml

/-- The parts of a record, each by its place and its name.  A date is a record of nothing that
anyone asks for. -/
abbrev Record := Nat → String → Option Value

def Value.record? : Value → Option Record
  | .table fields => some fun _ name => fields.lookup name
  | .array items => some fun place _ => items[place]?
  | .time _ => some fun _ _ => none
  | _ => none

/-- A part that may be missing, read by `read`. -/
def Record.part? {α : Type} (record : Record) (place : Nat) (name : String)
    (read : Value → Option α) (default : α) : Option α :=
  match record place name with
  | some value => read value
  | none => some default

def Value.boolean? : Value → Option Bool
  | .boolean value => some value
  | _ => none

def Value.string? : Value → Option String
  | .string text => some text
  | _ => none

def Value.list? {α : Type} (read : Value → Option α) : Value → Option (List α)
  | .array items => items.mapM read
  | _ => none

/-- A word of a fixed set: as a text, or as the only key of a table, with nothing in it. -/
def Value.word? : Value → Option String
  | .string text => some text
  | .table [(word, .table [])] | .table [(word, .array [])] => some word
  | _ => none

end Toml

open Toml

def QuasiDefinition.ofToml? (value : Value) : Option QuasiDefinition := do
  let record ← value.record?
  let blank : QuasiDefinition := {}
  some
    { contexts := ← record.part? 0 "contexts"
        (Value.list? fun item => item.word?.bind Selector.ofKeyword?) blank.contexts
      forms := ← record.part? 1 "syntaxes" (Value.list? Value.string?) blank.forms }

def AnnotationDefinition.ofToml? (value : Value) : Option AnnotationDefinition := do
  let record ← value.record?
  let blank : AnnotationDefinition := {}
  some
    { placement := ← record.part? 0 "placement"
        (fun item => item.word?.bind Placement.ofKeyword?) blank.placement
      form := ← record.part? 1 "syntax" Value.string? blank.form }

/-- A dialect; `base` stands for what is missing. -/
def Dialect.ofToml? (base : Dialect) (value : Value) : Option Dialect := do
  let record ← value.record?
  let flag (place : Nat) (name : String) (default : Bool) : Option Bool :=
    record.part? place name Value.boolean? default
  some
    { extendedNumbers := ← flag 0 "extended-numbers" base.extendedNumbers
      extendedEscapes := ← flag 1 "extended-escapes" base.extendedEscapes
      standardEscapes := ← flag 2 "standard-escapes" base.standardEscapes
      extendedStrings := ← flag 3 "extended-strings" base.extendedStrings
      extendedComments := ← flag 4 "extended-comments" base.extendedComments
      standardUrls := ← flag 5 "standard-urls" base.standardUrls
      standardCdx := ← flag 6 "standard-cdx" base.standardCdx
      quasiDefinitions := ← record.part? 7 "quasi-definitions"
        (Value.list? QuasiDefinition.ofToml?) base.quasiDefinitions
      annotationDefinitions := ← record.part? 8 "annotation-definitions"
        (Value.list? AnnotationDefinition.ofToml?) base.annotationDefinitions }

/-- Preferences; `base` stands for what is missing. -/
def LoggingPreferences.ofToml? (base : LoggingPreferences) (value : Value) :
    Option LoggingPreferences := do
  let record ← value.record?
  some
    { structured := ← record.part? 0 "use_structured_logging" Value.boolean? base.structured
      console := ← record.part? 1 "enable_console_logging" Value.boolean? base.console
      limit := ← record.part? 2 "min_log_level"
        (fun item => item.word?.bind Level.ofKeyword?) base.limit
      reportRecoveries := ← record.part? 3 "log_recoveries" Value.boolean?
        base.reportRecoveries }

/-- The dialect of a document that holds nothing else. -/
def Dialect.read? (environment : Environment) (text : String) : Option Dialect := do
  let fields ← Toml.read? text
  Dialect.ofToml? (Dialect.ofEnvironment environment) (.table fields)

namespace Configuration

/-- The configuration of a document. -/
def read? (environment : Environment) (text : String) : Option Configuration := do
  let fields ← Toml.read? text
  let base := ofEnvironment environment
  let record ← (Value.table fields).record?
  some
    { dialect := ← record.part? 0 "lexer" (Dialect.ofToml? base.dialect) base.dialect
      logging := ← record.part? 1 "logging" (LoggingPreferences.ofToml? base.logging)
        base.logging }

/-! ## 2. Writing -/

/-- A list that has nothing in it is a field, any other one is sections of its own. -/
def emptyList {α : Type} (name : String) (items : List α) : List (String × String) :=
  if items.isEmpty then [(name, "[]")] else []

def dialectFields (dialect : Dialect) : List (String × String) :=
  [ ("extended-numbers", writeBoolean dialect.extendedNumbers),
    ("extended-escapes", writeBoolean dialect.extendedEscapes),
    ("standard-escapes", writeBoolean dialect.standardEscapes),
    ("extended-strings", writeBoolean dialect.extendedStrings),
    ("extended-comments", writeBoolean dialect.extendedComments),
    ("standard-urls", writeBoolean dialect.standardUrls),
    ("standard-cdx", writeBoolean dialect.standardCdx) ] ++
  emptyList "quasi-definitions" dialect.quasiDefinitions ++
  emptyList "annotation-definitions" dialect.annotationDefinitions

def quasiSection (definition : QuasiDefinition) : Section where
  header := "[[lexer.quasi-definitions]]"
  fields :=
    [ ("contexts", writeStrings (definition.contexts.map Selector.keyword)),
      ("syntaxes", writeStrings definition.forms) ]

def annotationSection (definition : AnnotationDefinition) : Section where
  header := "[[lexer.annotation-definitions]]"
  fields :=
    [ ("placement", writeString definition.placement.keyword),
      ("syntax", writeString definition.form) ]

def loggingSection (logging : LoggingPreferences) : Section where
  header := "[logging]"
  fields :=
    [ ("use_structured_logging", writeBoolean logging.structured),
      ("enable_console_logging", writeBoolean logging.console),
      ("min_log_level", writeString logging.limit.keyword),
      ("log_recoveries", writeBoolean logging.reportRecoveries) ]

/-- The document of a configuration. -/
def toToml (configuration : Configuration) : String :=
  let dialect := configuration.dialect
  writeSections
    ([⟨"[lexer]", dialectFields dialect⟩] ++
      dialect.quasiDefinitions.map quasiSection ++
      dialect.annotationDefinitions.map annotationSection ++
      [loggingSection configuration.logging])

end Configuration
end StyleLex
