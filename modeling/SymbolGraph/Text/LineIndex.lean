import SymbolGraph.Text.Bytes
import SymbolGraph.Text.Position

/-!
# Text — from byte offsets to positions

A `LineIndex` holds a text and the byte offset at which each of its lines starts; a line ends after
its newline, so there is one line more than there are newlines.

* `LineIndex.position`: the line and character of a byte offset.  An offset past the end stands for
  the end, and off a character boundary the character counts bytes.
* `LineIndex.lineRange`: both ends of a byte range, each converted on its own.
-/

namespace SymbolGraph

/-- A text with the byte offsets of its line starts. -/
structure LineIndex where
  text   : List Char
  starts : List Nat

namespace LineIndex

/-- The byte offsets just after each newline, counted from `offset`. -/
def startsAfter : (offset : Nat) → List Char → List Nat
  | _,      []      => []
  | offset, c :: cs =>
      if c = '\n' then (offset + c.utf8Size) :: startsAfter (offset + c.utf8Size) cs
      else startsAfter (offset + c.utf8Size) cs

/-- The line index of a text. -/
def ofText (text : String) : LineIndex :=
  { text := text.toList, starts := 0 :: startsAfter 0 text.toList }

/-- The number of lines. -/
def size (index : LineIndex) : Nat := index.starts.length

/-- The number of the line that holds byte offset `offset`. -/
def lineOf (index : LineIndex) (offset : Nat) : Nat :=
  index.starts.countP (fun start => start ≤ offset) - 1

/-- The position of a byte offset. -/
def position (index : LineIndex) (offset : Nat) : Position :=
  let offset := min offset (Text.byteLength index.text)
  let line := index.lineOf offset
  let start := index.starts.getD line 0
  { line
    character := match Text.slice start offset index.text with
      | some covered => Text.units covered
      | none         => offset - start }

/-- The positions of both ends of a byte range. -/
def lineRange (index : LineIndex) (range : TextRange) : LineRange :=
  { start := index.position range.start, stop := index.position range.stop }

end LineIndex

end SymbolGraph
