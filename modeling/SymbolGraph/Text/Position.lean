import SymbolGraph.Text.Basic

/-!
# Text — ranges and positions

A `TextRange` is a byte range whose end is not before its start.  A `Position` is a line and a
character on it, both from zero, and a `LineRange` is a pair of positions.
-/

namespace SymbolGraph

/-- A byte range. -/
structure TextRange where
  start   : Nat
  stop    : Nat
  ordered : start ≤ stop
  deriving DecidableEq

namespace TextRange

/-- The range from `start` to `stop`, unless they are out of order. -/
def ofBounds? (start stop : Nat) : Option TextRange :=
  if h : start ≤ stop then some ⟨start, stop, h⟩ else none

/-- The range of `length` bytes from `start` on. -/
def ofLength (start length : Nat) : TextRange := ⟨start, start + length, Nat.le_add_right _ _⟩

/-- The empty range at the start of a text. -/
def origin : TextRange := ⟨0, 0, Nat.le_refl 0⟩

end TextRange

/-- A line and a character on that line, both counted from zero. -/
structure Position where
  line      : Nat
  character : Nat
  deriving DecidableEq

/-- The short form of a position, `line:character`. -/
def Position.shown (p : Position) : String :=
  Text.decimal p.line ++ ":" ++ Text.decimal p.character

/-- A pair of positions. -/
structure LineRange where
  start : Position
  stop  : Position
  deriving DecidableEq

end SymbolGraph
