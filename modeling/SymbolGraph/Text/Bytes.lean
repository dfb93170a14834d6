/-!
# Text — byte offsets and code units

Programs are addressed by byte offsets into the UTF-8 form of a file, while the graph counts
UTF-16 code units.  Both measures are sums over the characters of a text.

A byte offset is a *boundary* when it falls between two characters.  `slice` answers only between
boundaries.
-/

namespace SymbolGraph.Text

/-- The number of bytes of a text. -/
def byteLength : List Char → Nat
  | []      => 0
  | c :: cs => c.utf8Size + byteLength cs

/-- The number of UTF-16 code units of a character: two beyond the basic plane. -/
def unitWidth (c : Char) : Nat := if c.toNat < 0x10000 then 1 else 2

/-- The number of UTF-16 code units of a text. -/
def units : List Char → Nat
  | []      => 0
  | c :: cs => unitWidth c + units cs

/-- The UTF-8 form of a text. -/
def utf8 (text : List Char) : List UInt8 := text.flatMap String.utf8EncodeChar

/-- The text from byte offset `n` on, when `n` is a boundary. -/
def dropBytes : Nat → List Char → Option (List Char)
  | 0,     text    => some text
  | _ + 1, []      => none
  | n + 1, c :: cs => if c.utf8Size ≤ n + 1 then dropBytes (n + 1 - c.utf8Size) cs else none

/-- The text up to byte offset `n`, when `n` is a boundary. -/
def takeBytes : Nat → List Char → Option (List Char)
  | 0,     _       => some []
  | _ + 1, []      => none
  | n + 1, c :: cs =>
      if c.utf8Size ≤ n + 1 then (takeBytes (n + 1 - c.utf8Size) cs).map (c :: ·) else none

/-- The text between two byte offsets, when both are boundaries in order. -/
def slice (start stop : Nat) (text : List Char) : Option (List Char) :=
  if start ≤ stop then (dropBytes start text).bind (takeBytes (stop - start)) else none

/-- The byte offsets, counted from `offset`, at which `needle` occurs once `skip` characters are
passed.  Occurrences do not overlap; the empty text occurs at every boundary. -/
def occurrencesFrom (needle : List Char) : (skip offset : Nat) → List Char → List Nat
  | skip,     offset, []      => if skip = 0 ∧ needle = [] then [offset] else []
  | 0,        offset, c :: cs =>
      if needle.isPrefixOf (c :: cs) then
        offset :: occurrencesFrom needle (needle.length - 1) (offset + c.utf8Size) cs
      else occurrencesFrom needle 0 (offset + c.utf8Size) cs
  | skip + 1, offset, c :: cs => occurrencesFrom needle skip (offset + c.utf8Size) cs

/-- The byte offsets at which `needle` occurs in `text`, from left to right without overlap. -/
def occurrences (needle text : List Char) : List Nat := occurrencesFrom needle 0 0 text

end SymbolGraph.Text
