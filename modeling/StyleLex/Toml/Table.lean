/-
# How the tables of a document grow

The statements of a document name tables by paths, and a table may be named more than once: a
header may pass through any table, but opens each one once; a key with dots makes tables of its
own and adds only to those.  So an entry remembers how its table came about.
-/
import StyleLex.Toml.Scalar

namespace StyleLex
namespace Toml

/-- How a table came about. -/
inductive Origin where
  /-- By its own header, or as the whole document. -/
  | header
  /-- On the way of a header to another table. -/
  | passed
  /-- By a key with dots. -/
  | dotted
  deriving DecidableEq, Repr

inductive Entry where
  | value (value : Value)
  | table (origin : Origin) (fields : List (String × Entry))
  /-- Tables that share a header; the newest comes first. -/
  | tables (newestFirst : List Entry)

abbrev Fields := List (String × Entry)

/-! ## 1. Values -/

mutual

def Entry.toValue : Entry → Value
  | .value value => value
  | .table _ fields => .table (fieldsToValues fields)
  | .tables entries => .array (entriesToValues entries).reverse

def fieldsToValues : Fields → List (String × Value)
  | [] => []
  | (key, entry) :: rest => (key, entry.toValue) :: fieldsToValues rest

def entriesToValues : List Entry → List Value
  | [] => []
  | entry :: rest => entry.toValue :: entriesToValues rest

end

/-! ## 2. Ways -/

/-- Sets a field: in its place, or at the end. -/
def setField (key : String) (entry : Entry) : Fields → Fields
  | [] => [(key, entry)]
  | (known, old) :: rest =>
    if known = key then (key, entry) :: rest else (known, old) :: setField key entry rest

/-- Changes the table at the end of a path.  Tables on the way are made if they are missing; of
tables that share a header the newest counts.  With `dotted`, a table that has a header of its
own is closed. -/
def descend (dotted : Bool) (change : Origin → Fields → Option Fields) :
    List String → Origin → Fields → Option Fields
  | [], origin, fields => change origin fields
  | key :: path, _, fields =>
    match fields.lookup key with
    | none => do
      let origin := if dotted then Origin.dotted else .passed
      let inner ← descend dotted change path origin []
      some (setField key (.table origin inner) fields)
    | some (.table origin inner) =>
      if dotted && origin == .header then none
      else do
        let changed ← descend dotted change path origin inner
        some (setField key (.table origin changed) fields)
    | some (.tables (.table origin inner :: older)) => do
      let changed ← descend dotted change path origin inner
      some (setField key (.tables (.table origin changed :: older)) fields)
    | some _ => none

/-! ## 3. Statements -/

/-- Defines a key in a table.  A key with dots belongs in a table that such keys have made. -/
def define (key : List String) (value : Value) (origin : Origin) (fields : Fields) :
    Option Fields :=
  match key.reverse with
  | [] => none
  | last :: path =>
    descend true
      (fun reached fields =>
        if !path.isEmpty && reached != .dotted then none
        else if (fields.lookup last).isSome then none
        else some (fields ++ [(last, .value value)]))
      path.reverse origin fields

/-- Opens the table that a header names. -/
def openTable (name : List String) (document : Fields) : Option Fields :=
  match name.reverse with
  | [] => none
  | last :: path =>
    descend false
      (fun _ fields =>
        match fields.lookup last with
        | none => some (setField last (.table .header []) fields)
        | some (.table .passed inner) => some (setField last (.table .header inner) fields)
        | some _ => none)
      path.reverse .header document

/-- Adds a table to those that share a header. -/
def addTable (name : List String) (document : Fields) : Option Fields :=
  match name.reverse with
  | [] => none
  | last :: path =>
    descend false
      (fun _ fields =>
        match fields.lookup last with
        | none => some (setField last (.tables [.table .header []]) fields)
        | some (.tables older) =>
          some (setField last (.tables (.table .header [] :: older)) fields)
        | some _ => none)
      path.reverse .header document

/-- Defines a key under the header `name`. -/
def defineUnder (name key : List String) (value : Value) (document : Fields) : Option Fields :=
  descend false (define key value) name .header document

end Toml
end StyleLex
