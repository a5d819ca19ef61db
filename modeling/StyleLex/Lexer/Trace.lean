/-
# The events of a lexer

What a call of the lexer tells the log: that it begins, every recovery if recoveries are reported,
and that it has ended, with its numbers.
-/
import StyleLex.Lexer
import StyleLex.Log.Event

namespace StyleLex

/-- The warning for a recovery. -/
def Recovery.event (recovery : Recovery) : Event :=
  ((Event.warning recovery.code recovery.message).withSpan recovery.span).withDetail "context"
    recovery.context.name

/-- The error of a dialect with an ill-made form. -/
def FormError.event (error : FormError) : Event :=
  (Event.error .formMalformed "Rejected lexer options").withDetail "error" error.message

namespace Lexer

/-- The beginning of a call. -/
def startEvent (lexer : Lexer) (source : Source) : Event :=
  (Event.debug "Starting lexical analysis").withDetails
    [ ("file", source.label),
      ("begin", source.start.render),
      ("end", toString source.limit),
      ("extended_numbers", Event.wordOf lexer.dialect.extendedNumbers),
      ("extended_escapes", Event.wordOf lexer.dialect.extendedEscapes),
      ("extended_strings", Event.wordOf lexer.dialect.extendedStrings),
      ("extended_comments", Event.wordOf lexer.dialect.extendedComments) ]

/-- The end of a call that took so long. -/
def endEvent (source : Source) (metrics : Metrics) (taken : Duration) : Event :=
  (Event.success .tokenized "Tokenization completed").withDetails
    [ ("file", source.label),
      ("nodes", toString metrics.nodes),
      ("bytes", toString metrics.bytes),
      ("max_depth", toString metrics.depth),
      ("recoveries", toString metrics.recoveries),
      ("duration_us", toString taken.microseconds) ]

/-- All events of a call, in order. -/
def trace (lexer : Lexer) (source : Source) (reportRecoveries : Bool) (taken : Duration)
    (outcome : Outcome) : List Event :=
  lexer.startEvent source ::
    ((if reportRecoveries then outcome.recoveries.map Recovery.event else []) ++
      [endEvent source outcome.metrics taken])

/-- What comes before the events of a resumed branch. -/
def resumeEvent (id : NodeId) (branch : Branch) : Event :=
  (Event.debug "Resuming lexical analysis").withDetails
    [("parent", NodeId.label id), ("context", branch.context.name)]

end Lexer
end StyleLex
