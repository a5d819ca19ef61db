/-
# Remembered events

A memory keeps events in the order in which they came, to be asked for later.
-/
import StyleLex.Log.Event

namespace StyleLex

structure Memory where
  events : Array Event := #[]
  deriving Repr

namespace Memory

def record (memory : Memory) (event : Event) : Memory := ⟨memory.events.push event⟩

def count (memory : Memory) : Nat := memory.events.size

def last? (memory : Memory) : Option Event := memory.events.back?

/-- The number of warnings. -/
def warningCount (memory : Memory) : Nat :=
  (memory.events.filter fun event => event.level = .warning).size

/-- The events with a code. -/
def withCode (memory : Memory) (code : Code) : Array Event :=
  memory.events.filter fun event => event.code = code

def hasCode (memory : Memory) (code : Code) : Bool :=
  memory.events.any fun event => event.code = code

end Memory
end StyleLex
