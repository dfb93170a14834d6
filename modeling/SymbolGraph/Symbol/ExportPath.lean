import SymbolGraph.Symbol.Overrides

/-!
# Symbol — export paths

The dotted path under which a symbol is reached from its module, or nothing when it is not exported.
A source file has the empty path; a symbol with a parent has the parent's path and its own name,
provided that the parent owns its members or exports the symbol; a symbol without a parent goes by
its name when it is a module or global, and otherwise by the name that was forwarded to it.

* `Symbols.seekPath`: one level of the search for a path.
* `Symbols.exportPath`: the path, kept for the next question unless an override was consulted.

Paths are kept by symbol alone: the location kind of the first question decides.
-/

namespace SymbolGraph

namespace Program

/-- The location kind of a file. -/
def fileLocation (p : Program) (file : FileId) : LocationKind :=
  if (p.fileSymbol file).isSome then .module
  else if p.isDefaultLibrary file then .library
  else .global

/-- The location kind that files have in common. -/
def locationKind (p : Program) (files : List FileId) : Option LocationKind :=
  match files with
  | []            => none
  | file :: files =>
      if files.all fun other => p.fileLocation other = p.fileLocation file then
        some (p.fileLocation file)
      else none

/-- Whether a symbol stands for a source file: its first declaration is one. -/
def isSourceFileSymbol (p : Program) (symbol : SymbolRef) : Bool :=
  (p.declarations symbol).head?.any fun declaration => p.kind declaration = .sourceFile

/-- Whether some declaration of a symbol is inside a function or a block. -/
def isNested (p : Program) (symbol : SymbolRef) : Bool :=
  (p.declarations symbol).any fun declaration =>
    (p.ancestors declaration).any fun node => (p.kind node).isFunctionOrBlock

/-- Whether a symbol without a parent is exported under its own name. -/
def isExportedBare (p : Program) (kind : Option LocationKind) (symbol : SymbolRef) : Bool :=
  (p.symbolFlags symbol).isValueModule
    || ((kind = some .library || kind = some .global) && !p.isNested symbol)

end Program

/-- A dotted path with another last segment. -/
def replaceLastSegment (path name : String) : String :=
  match Text.splitLast '.' path.toList with
  | some (before, _) => String.ofList before ++ "." ++ name
  | none             => name

/-- A path one segment longer. -/
def extendPath (path name : String) : String := if path = "" then name else path ++ "." ++ name

/-- An export path, and whether it hangs on an override. -/
structure ExportAnswer where
  path      : Option String
  consulted : Bool

namespace Symbols

/-- The export path of a symbol from that of its parent, or of what it is forwarded to, which are
found by `ask`. -/
def deriveExportPath (p : Program) (kind : Option LocationKind)
    (ask : SymbolRef → StateM Symbols ExportAnswer) (symbol : SymbolRef) :
    StateM Symbols ExportAnswer := do
  if p.isSourceFileSymbol symbol then return { path := some "", consulted := false }
  let o := (← get).overrides
  let key := p.key symbol
  let name := p.symbolName symbol
  let given := o.parents.get? key
  match given.or (p.parentSymbol symbol) with
  | none =>
      if p.isExportedBare kind symbol then return { path := some name, consulted := false }
      match o.forwards.get? key with
      | none         => return { path := none, consulted := false }
      | some forward =>
          let beside ← ask forward.target
          return { path := beside.path.map fun path => replaceLastSegment path forward.name
                   consulted := true }
  | some parent =>
      let above ← ask parent
      let consulted := given.isSome || above.consulted
      match above.path with
      | none      => return { path := none, consulted }
      | some path =>
          if (p.symbolFlags parent).ownsMembers || symbol ∈ p.exportsOf parent then
            return { path := some (extendPath path name), consulted }
          else if o.exports (p.key parent) key then
            return { path := some (extendPath path name), consulted := true }
          else return { path := none, consulted }

/-- Derive an answer and keep it for the next question, unless an override was consulted for it. -/
def remember (p : Program) (symbol : SymbolRef) (derive : StateM Symbols ExportAnswer) :
    StateM Symbols ExportAnswer := do
  let answer ← derive
  unless answer.consulted do
    modify fun s => { s with exportPaths := s.exportPaths.insert (p.key symbol) answer.path }
  return answer

/-- One level of the search for an export path, where `ask` follows parents and forwards. -/
def seekPath (p : Program) (kind : Option LocationKind)
    (ask : SymbolRef → StateM Symbols ExportAnswer) (symbol : SymbolRef) :
    StateM Symbols ExportAnswer := do
  match (← get).exportPaths.get? (p.key symbol) with
  | some path => return { path, consulted := false }
  | none      => remember p symbol (deriveExportPath p kind ask symbol)

/-- The export path of a symbol by following at most `fuel` parents and forwards. -/
def exportPathWithin (p : Program) (kind : Option LocationKind) :
    (fuel : Nat) → SymbolRef → StateM Symbols ExportAnswer
  | 0,        _      => return { path := none, consulted := true }
  | fuel + 1, symbol => seekPath p kind (exportPathWithin p kind fuel) symbol

/-- The export path of a symbol.  A chain of parents and forwards that ends visits no symbol twice,
and no two symbols that do not exist. -/
def exportPath (p : Program) (symbol : SymbolRef) (kind : Option LocationKind) :
    StateM Symbols (Option String) := do
  return (← exportPathWithin p kind (p.symbols.size + 3) symbol).path

end Symbols

end SymbolGraph
