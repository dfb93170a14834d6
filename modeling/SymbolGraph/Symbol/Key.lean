import SymbolGraph.Program.Basic
import SymbolGraph.Text.Digest

/-!
# Symbol — the identity of a symbol

A symbol is known by where it is declared: its key is the hash of the coordinates of all its
declarations, in order.  Symbols without declarations share three keys, for unknown, undefined and
all other symbols, so all symbols of one such group are one.

* `Program.keyText`: the text that is hashed, `path:start:end;` for each declaration.
* `Program.key`: the key of a symbol.
-/

namespace SymbolGraph

/-- The identity of a symbol within one program. -/
structure SymbolKey where
  text : String
  deriving DecidableEq

namespace SymbolKey

def unknown : SymbolKey := ⟨"unknown"⟩
def undefined : SymbolKey := ⟨"undefined"⟩
def undeclared : SymbolKey := ⟨"none"⟩

/-- Whether the key is one that symbols without declarations share. -/
def isSentinel (key : SymbolKey) : Bool := key = unknown || key = undefined || key = undeclared

/-- A key with the name of its sort. -/
def inspected (key : SymbolKey) : String := "SymbolId(" ++ key.text ++ ")"

end SymbolKey

namespace Program

/-- The path, start and end of a declaration. -/
def coordinates (p : Program) (declaration : NodeId) : String × Nat × Nat :=
  (((p.filePath (p.fileOf declaration)).map Path.text).getD "",
   (p.range declaration).start, (p.range declaration).stop)

/-- Coordinates in writing. -/
def coordinateText : String × Nat × Nat → List Char
  | (path, start, stop) =>
      path.toList ++ ':' :: (Nat.toDigits 10 start ++ ':' :: (Nat.toDigits 10 stop ++ [';']))

/-- The coordinates of all declarations of a symbol in writing. -/
def keyText (p : Program) (symbol : SymbolRef) : List Char :=
  (p.declarations symbol).flatMap fun declaration => coordinateText (p.coordinates declaration)

/-- The identity of a symbol. -/
def key (p : Program) (symbol : SymbolRef) : SymbolKey :=
  if (p.declarations symbol).isEmpty then
    if p.isUnknown symbol then .unknown
    else if p.isUndefined symbol then .undefined
    else .undeclared
  else ⟨Digest.sha256 (Text.utf8 (p.keyText symbol))⟩

end Program

end SymbolGraph
