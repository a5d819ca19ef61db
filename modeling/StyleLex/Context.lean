/-
# Lexical contexts

The context says what the bytes of a branch may be read as.  There are fourteen; a
`ContextSet` holds any number of them as bits, in the order of `Context.all`, so that a family of
contexts is one set.
-/
import StyleLex.Delimiter

namespace StyleLex

/-! ## 1. Single contexts -/

inductive Context where
  | root
  | parentheses
  | brackets
  | braces
  | double
  | single
  | backtick
  | url
  | block
  | line
  | quasi
  | annotation
  | identifier
  | hash
  deriving DecidableEq, Repr

namespace Context

/-- Every context, in the order of the bits. -/
def all : List Context :=
  [root, parentheses, brackets, braces, double, single, backtick, url, block, line, quasi,
    annotation, identifier, hash]

/-- The place of a context in `all`. -/
def index : Context → Fin 14
  | root => 0
  | parentheses => 1
  | brackets => 2
  | braces => 3
  | double => 4
  | single => 5
  | backtick => 6
  | url => 7
  | block => 8
  | line => 9
  | quasi => 10
  | annotation => 11
  | identifier => 12
  | hash => 13

def name : Context → String
  | root => "root"
  | parentheses => "parentheses"
  | brackets => "brackets"
  | braces => "braces"
  | double => "double"
  | single => "single"
  | backtick => "backtick"
  | url => "url"
  | block => "block"
  | line => "line"
  | quasi => "quasi"
  | annotation => "annotation"
  | identifier => "identifier"
  | hash => "hash"

/-- The inside of a bracket pair. -/
def ofBracket : Bracket → Context
  | .round => parentheses
  | .square => brackets
  | .curly => braces

/-- The inside of a string. -/
def ofQuote : Quote → Context
  | .double => double
  | .single => single
  | .backtick => backtick

/-- The context that an opening byte leads to; a byte that opens nothing counts as a
parenthesis. -/
def forOpener (b : UInt8) : Context := ((Bracket.ofOpener? b).map ofBracket).getD parentheses

/-- The context that a quote byte leads to; a byte that is no quote counts as a double quote. -/
def forQuote (b : UInt8) : Context := ((Quote.ofByte? b).map ofQuote).getD double

end Context

/-! ## 2. Sets of contexts -/

/-- A set of contexts; bit `i` stands for the context of index `i`. -/
structure ContextSet where
  bits : UInt16
  deriving DecidableEq, Repr

namespace ContextSet

def empty : ContextSet := ⟨0⟩

def singleton (context : Context) : ContextSet := ⟨1 <<< UInt16.ofNat context.index.val⟩

def union (a b : ContextSet) : ContextSet := ⟨a.bits ||| b.bits⟩

/-- Do two sets share a context? -/
def intersects (a b : ContextSet) : Bool := (a.bits &&& b.bits) != 0

def contains (set : ContextSet) (context : Context) : Bool := set.intersects (singleton context)

def ofList (contexts : List Context) : ContextSet :=
  contexts.foldl (fun set context => set.union (singleton context)) empty

def any : ContextSet := ⟨0x3FFF⟩

/-- The set of some raw bits; bits that stand for no context are dropped. -/
def ofBits (bits : UInt16) : ContextSet := ⟨bits &&& any.bits⟩

/-- The members, in the order of their bits. -/
def toList (set : ContextSet) : List Context := Context.all.filter set.contains

def group : ContextSet := ofList [.root, .parentheses, .brackets, .braces]
def quoted : ContextSet := ofList [.double, .single, .backtick]
def comment : ContextSet := ofList [.block, .line]
def fragment : ContextSet := ofList [Context.quasi, Context.annotation]
def names : ContextSet := ofList [.identifier, .hash]

/-- A set of one context has its name; any other set is a mask. -/
def name (set : ContextSet) : String :=
  match Context.all.find? fun context => singleton context == set with
  | some context => context.name
  | none => "mask"

/-- Four hexadecimal digits of a 16-bit word. -/
def hexWord (word : UInt16) : String :=
  let digits := Nat.toDigits 16 word.toNat
  String.ofList (List.replicate (4 - digits.length) '0' ++ digits)

/-- The name and the bits of a set. -/
def render (set : ContextSet) : String :=
  "Context(" ++ set.name ++ ", 0x" ++ hexWord set.bits ++ ")"

end ContextSet

/-! ## 3. Selectors -/

/-- What a definition may name: one context, or a family of them. -/
inductive Selector where
  | only (context : Context)
  | group
  | quoted
  | comment
  | fragment
  | name
  | any
  deriving DecidableEq, Repr

namespace Selector

def set : Selector → ContextSet
  | only context => ContextSet.singleton context
  | group => ContextSet.group
  | quoted => ContextSet.quoted
  | comment => ContextSet.comment
  | fragment => ContextSet.fragment
  | name => ContextSet.names
  | any => ContextSet.any

def all : List Selector :=
  Context.all.map only ++ [group, quoted, comment, fragment, name, any]

/-- The word by which a configuration names a selector. -/
def keyword : Selector → String
  | only context => context.name
  | group => "group"
  | quoted => "quoted"
  | comment => "comment"
  | fragment => "fragment"
  | name => "name"
  | any => "any"

def ofKeyword? (word : String) : Option Selector :=
  all.find? fun selector => selector.keyword == word

end Selector
end StyleLex
