/-
# Dialects

A dialect is plain CSS with any number of extensions switched on and with the fragment forms that
the source may use.  The forms are text as a user writes them; `Fragments.ofDialect` checks them.
-/
import StyleLex.Context

namespace StyleLex

/-- Where an annotation attaches, seen from the construct it annotates. -/
inductive Placement where
  | outer
  | inner
  deriving DecidableEq, Repr

namespace Placement

def keyword : Placement → String
  | outer => "outer"
  | inner => "inner"

def ofKeyword? (word : String) : Option Placement :=
  [outer, inner].find? fun placement => placement.keyword == word

end Placement

/-- Interpolation forms, and the contexts that recognise them. -/
structure QuasiDefinition where
  contexts : List Selector := [.any]
  forms : List String := ["#\x7b\x7d"]
  deriving DecidableEq, Repr

/-- An annotation form; it is recognised wherever groups are read. -/
structure AnnotationDefinition where
  placement : Placement := .outer
  form : String := "#[]"
  deriving DecidableEq, Repr

structure Dialect where
  /-- Binary, octal and hexadecimal integers, `_` between digits, and a trailing dot. -/
  extendedNumbers : Bool
  /-- Named escapes, hexadecimal escapes of a fixed width, and braced escapes. -/
  extendedEscapes : Bool
  /-- Up to six hexadecimal digits and one optional blank. -/
  standardEscapes : Bool
  /-- Strings in backticks; a line break ends no string. -/
  extendedStrings : Bool
  /-- Line comments, and block comments that nest. -/
  extendedComments : Bool
  standardUrls : Bool
  /-- The two HTML comment markers. -/
  standardCdx : Bool
  quasiDefinitions : List QuasiDefinition
  annotationDefinitions : List AnnotationDefinition
  deriving DecidableEq, Repr

namespace Dialect

/-- Plain CSS. -/
def standard : Dialect where
  extendedNumbers := false
  extendedEscapes := false
  standardEscapes := true
  extendedStrings := false
  extendedComments := false
  standardUrls := true
  standardCdx := true
  quasiDefinitions := []
  annotationDefinitions := []

/-- Every extension switched on; forms stay the user's choice. -/
def extended : Dialect :=
  { standard with
    extendedNumbers := true
    extendedEscapes := true
    extendedStrings := true
    extendedComments := true }

end Dialect
end StyleLex
