import SymbolGraph.Program.Definition
import SymbolGraph.Session.Basic

/-!
# Session — the record of a symbol

A symbol gets its record when it is first met.  Making it may need the records of other symbols: the
target of an alias, the methods a method overrides, the properties behind a shared property.  While
a record is being made its key is reserved, so that a symbol which needs itself is a fault and not
an endless descent; only a method that would override itself leaves that base out.

* `Session.create`: makes a record, `Session.seek`: finds it or makes it.
* `Session.resolve`: the record of a symbol, made on first sight with its definition ranges, hover
  text and monikers.  A record that cannot be made leaves no reservation behind.
-/

namespace SymbolGraph

/-- A symbol whose record is wanted, and the node where it was met; one that is needed by another
may have been met nowhere. -/
structure Request where
  symbol   : SymbolRef
  location : Option NodeId

namespace Session

/-- Finds the record of a symbol that was met at a node. -/
abbrev Resolver := SymbolRef → Option NodeId → Running RecordId

/-! ### What a record passes on to -/

/-- The records of overridden methods.  One that is still being made is left out: there the
heritage runs in a circle. -/
def resolveBases (resolve : Resolver) : List SymbolRef → Running (List RecordId)
  | []            => return []
  | base :: bases => do
      match ← Action.attempt (resolve base none) with
      | .ok id                        => return id :: (← resolveBases resolve bases)
      | .error (.cyclicResolution _) => resolveBases resolve bases
      | .error fault                  => throw fault

/-- The records of the properties of a name in types, each once. -/
def resolveProperties (w : Setting) (resolve : Resolver) (name : String) (location : NodeId) :
    (known : List RecordId) → List TypeRef → Running (List RecordId)
  | known, []            => return known
  | known, type :: types => do
      match w.program.propertyOf type name with
      | none          => resolveProperties w resolve name location known types
      | some property =>
          let id ← resolve property (some location)
          resolveProperties w resolve name location
            (if id ∈ known then known else known ++ [id]) types

/-- The kind of the record of a method that is declared or was met at a site: it passes on to the
methods that it overrides. -/
def methodKind (w : Setting) (resolve : Resolver) (symbol : SymbolRef) (site : Option NodeId)
    (bases : List SymbolRef) : Running RecordKind := do
  match site with
  | none      => return .standard
  | some node =>
      let bases ← resolveBases resolve (bases.filter fun base => base ≠ symbol)
      return .method bases (w.program.fileOf node)

/-- The kind of the record of a symbol. -/
def recordKind (w : Setting) (resolve : Resolver) (resolution : Resolution) (symbol : SymbolRef)
    (location : Option NodeId) (declarations : List NodeId) : Running RecordKind := do
  let p := w.program
  match resolution with
  | .standard | .typeAlias => return .standard
  | .transient             => return .transient
  | .ofAlias               =>
      match p.aliasedSymbol symbol with
      | none        => return .standard
      | some target =>
          let id ← resolve target none
          return .aliased id (p.symbolName symbol ≠ p.symbolName target)
  | .method =>
      let bases ← match p.parentSymbol symbol with
        | none        => pure []
        | some parent => do
            pure ((← Symbols.findBaseMembers p parent (p.symbolName symbol)).getD [])
      methodKind w resolve symbol (declarations.head?.or location) bases
  | .composite =>
      match location with
      | none      => return .transient
      | some node =>
          let elements ← resolveProperties w resolve (p.symbolName symbol) node []
            ((p.receiverConstituents node).getD [])
          return .composite elements (p.fileOf node)

/-- The node whose end closes the record of a local symbol: the innermost scope around its only
declaration.  Members of classes, interfaces and type literals are not local. -/
def scopeOf (p : Program) (symbol : SymbolRef) : List NodeId → Option NodeId
  | [declaration] =>
      if (p.parentSymbol symbol).any fun parent => (p.symbolFlags parent).ownsMembers then none
      else (p.ancestors declaration).find? fun node => (p.kind node).isScope
  | _ => none

/-! ### What is emitted for a new record -/

/-- Emit the definition range of a declaration, unless the record has one there. -/
def emitDefinition (w : Setting) (resolution : Resolution) (id : RecordId) (symbol : SymbolRef)
    (declaration : NodeId) : Running Unit := do
  let p := w.program
  match resolution.identifierOf p symbol declaration with
  | none              => return ()
  | some (name, text) =>
      let file := p.fileOf declaration
      let info : DefinitionInfo := { file, range := p.range name }
      unless ← Store.hasInfo id info do
        let fullRange ← lineRange w file (p.fullRange declaration)
        let span ← lineRange w file info.range
        let tag := RangeTag.definition text (p.kind declaration).definitionKind fullRange
        let range ← emit (Graph.vertex (.range span (some tag)))
        Store.addRange w file range.id
        modify fun s => { s with definitions := s.definitions.insert name range }
        Store.addInfo id info
        Store.addDefinition w id file range.id true

/-- Emit the definition ranges of all declarations, if the record accepts definitions. -/
def emitDefinitions (w : Setting) (resolution : Resolution) (id : RecordId) (symbol : SymbolRef)
    (declarations : List NodeId) : Running Unit := do
  if (← Store.record id).kind.acceptsDefinitions then
    declarations.forM (emitDefinition w resolution id symbol)

/-- The hover text of the first declaration that has a name; failures count as no text. -/
def hoverText (p : Program) (declarations : List NodeId) : Option (List MarkedText) :=
  match declarations.findSome? p.nameOf with
  | none      => none
  | some name =>
      match p.quickInfo name with
      | .ok (some info) =>
          some (.code "typescript" info.display
            :: (if info.documentation = "" then [] else [.plain info.documentation]))
      | _ => none

/-- Emit the hover text, if there is any. -/
def emitHover (w : Setting) (id : RecordId) (declarations : List NodeId) : Running Unit := do
  match hoverText w.program declarations with
  | none          => return ()
  | some contents =>
      let hover ← emit (Graph.vertex (.hoverResult contents))
      Store.addHover id hover.id

/-- Emit the moniker of an exported symbol and, when a linker gives one, the moniker attached to
it.  A symbol declared only in dependencies counts as imported. -/
def emitMonikers (w : Setting) (id : RecordId) (files : List FileId) (kind : LocationKind)
    (exportPath : String) : Running Unit := do
  let p := w.program
  let modulePath := ((files.head?.bind p.filePath).map w.projectRoot.modulePath).getD ""
  let identifier := symbolIdentifier kind modulePath exportPath
  let monikerKind := if files.all p.isExternalLibrary then MonikerKind.imported else .exported
  let moniker ← emit (Graph.moniker "tsc" identifier monikerKind)
  if let some linker := w.linker then
    if let some linked := linker.link identifier then
      let attached ← emit (Graph.moniker linker.scheme linked monikerKind)
      discard (emit (Graph.link .attach attached.id moniker.id))
  Store.addMoniker id moniker.id

/-- Emit the monikers of a record that has an export path, if they are asked for. -/
def emitExported (w : Setting) (resolution : Resolution) (id : RecordId)
    (declarations : List NodeId) (exportPath : Option String) : Running Unit := do
  let files := w.program.filesOf declarations
  if w.monikers && !resolution.requiresLocation then
    if let (some kind, some path) := (w.program.locationKind files, exportPath) then
      emitMonikers w id files kind path

/-- Emit the hover text and the monikers of a record, where they are asked for. -/
def emitExtras (w : Setting) (resolution : Resolution) (id : RecordId) (declarations : List NodeId)
    (exportPath : Option String) : Running Unit := do
  if w.hover then emitHover w id declarations
  emitExported w resolution id declarations exportPath

/-- Emit what is known of a record. -/
def describe (w : Setting) (resolution : Resolution) (id : RecordId) (symbol : SymbolRef)
    (declarations : List NodeId) (exportPath : Option String) : Running Unit := do
  emitDefinitions w resolution id symbol declarations
  emitExtras w resolution id declarations exportPath

/-- Tell the node that a new record is local to, and emit what is known of the record. -/
def announce (w : Setting) (resolution : Resolution) (id : RecordId) (symbol : SymbolRef)
    (declarations : List NodeId) (scope : Option NodeId) (exportPath : Option String) :
    Running Unit := do
  if let some node := scope then Store.watch node id
  describe w resolution id symbol declarations exportPath

/-! ### Making a record -/

/-- Store the record of a symbol, and emit what is known of it. -/
def establish (w : Setting) (resolution : Resolution) (symbol : SymbolRef)
    (declarations : List NodeId) (kind : RecordKind) (scope : Option NodeId)
    (exportPath : Option String) : Running RecordId := do
  let id ← Store.insert w { key := w.program.key symbol, kind, scope }
  announce w resolution id symbol declarations scope exportPath
  return id

/-- Make the record of a symbol. -/
def create (w : Setting) (resolve : Resolver) (symbol : SymbolRef) (location : Option NodeId) :
    Running RecordId := do
  let p := w.program
  let resolution := p.resolution symbol location
  let declarations ← Action.ofExcept (resolution.declarations p symbol location)
  let exportPath ← Symbols.exportPath p symbol (p.locationKind (p.filesOf declarations))
  let kind ← recordKind w resolve resolution symbol location declarations
  let scope := if !kind.acceptsDefinitions || exportPath.isSome then none
    else scopeOf p symbol declarations
  establish w resolution symbol declarations kind scope exportPath

/-- One level of the search for a record, where `find` finds those that it needs.  While a record is
being made its key is reserved. -/
def seek (w : Setting) (find : Request → Running RecordId) (x : Request) : Running RecordId := do
  let key := w.program.key x.symbol
  match ← Store.lookup key with
  | some id => return id
  | none    =>
      Store.reserve key
      Action.onFailure (create w (fun symbol location => find ⟨symbol, location⟩) x.symbol x.location)
        (Store.abandon key)

/-- The record of a symbol, descending at most `fuel` times into symbols that it needs. -/
def resolveWithin (w : Setting) : (fuel : Nat) → Resolver
  | 0,        _,      _        => throw .endlessChain
  | fuel + 1, symbol, location =>
      seek w (fun x => resolveWithin w fuel x.symbol x.location) ⟨symbol, location⟩

/-- The record of a symbol, made on first sight.  Each descent reserves another key, and all
symbols that do not exist share one. -/
def resolve (w : Setting) : Resolver := resolveWithin w (w.program.symbols.size + 3)

end Session

end SymbolGraph
