import SymbolGraph.Document
import SymbolGraph.Options
import SymbolGraph.Record.Ledger

/-!
# Store — the records and documents of a run

A store owns all records and documents.  Records are numbered in order of creation; the cache says
for each symbol whether its record is being made, is live or was cleared at the end of its scope.
Documents are made when a file is first touched, and stay known as cleared after their end.

* `Store.lookup`, `Store.reserve`, `Store.abandon`: the cache.
* `Store.document`: the document of a file, made when first needed.
-/

namespace SymbolGraph

/-- What a run works on and what it is asked to emit. -/
structure Setting where
  program         : Program
  projectRoot     : Path
  hover           : Bool
  monikers        : Bool
  documentSymbols : Bool
  linker          : Option Linker

/-- The setting of a run with given options. -/
def Setting.ofOptions (program : Program) (options : Options) : Setting :=
  { program, projectRoot := options.projectRoot, hover := options.hover
    monikers := options.monikers, documentSymbols := options.documentSymbols
    linker := options.npmPackage.map NpmPackage.linker }

/-- The state of a symbol in the cache. -/
inductive CacheSlot where
  /-- The record is being made. -/
  | resolving
  | live (record : RecordId)
  /-- The record was closed at the end of its scope. -/
  | cleared
  deriving DecidableEq

/-- The records and documents of a run. -/
structure Store where
  graph     : Graph
  project   : Project
  records   : Array Record := #[]
  cache     : Table SymbolKey CacheSlot := ∅
  documents : Table FileId (Slot Document) := ∅
  /-- The records to be told when the walk leaves a node. -/
  watchers  : Table NodeId (List RecordId) := ∅

namespace Store

/-- An action on a store. -/
abbrev Storing := EStateM Fault Store

instance : MonadLift Emission Storing :=
  ⟨fun act => Action.onPart Store.graph (fun graph s => { s with graph }) act⟩

/-- Start a run: emit the metadata and the project. -/
def start (projectRoot : Path) : Emission Project := do
  discard (Graph.metaData projectRoot.uri)
  return { vertex := ← Graph.vertex (.project "typescript") }

/-! ### Records -/

/-- The record of a number. -/
def record (id : RecordId) : Storing Record := do
  match (← get).records[id.index]? with
  | some record => return record
  | none        => throw (.unknownRecord id.index)

/-- Change a record. -/
def changeRecord (id : RecordId) (f : Record → Record) : Storing Unit := do
  discard (record id)
  modify fun s => { s with records := s.records.modify id.index f }

/-- Write a record to the graph. -/
def onRecord {α : Type} (id : RecordId) (act : Ledger.Writing α) : Storing α := do
  let known ← record id
  Action.onPart (fun s => { record := known, graph := s.graph })
    (fun ledger s =>
      { s with graph := ledger.graph, records := s.records.modify id.index fun _ => ledger.record })
    act

/-- The result set of a record. -/
def resultSet (id : RecordId) : Storing VertexRef := do
  Action.ofExcept (← record id).begunResultSet

/-- Whether a definition with these coordinates was recorded. -/
def hasInfo (id : RecordId) (info : DefinitionInfo) : Storing Bool := do
  return (← record id).hasInfo info

/-- Record the coordinates of a definition. -/
def addInfo (id : RecordId) (info : DefinitionInfo) : Storing Unit :=
  changeRecord id fun record => record.addInfo info

/-! ### The cache -/

/-- The live record of a symbol, if it has one.  A cleared record is a fault, and so is one that is
being made. -/
def lookup (key : SymbolKey) : Storing (Option RecordId) := do
  match (← get).cache.get? key with
  | none            => return none
  | some (.live id) => return some id
  | some .resolving => throw (.cyclicResolution key)
  | some .cleared   => throw (.recordCleared key)

/-- Put a symbol into a state. -/
def mark (key : SymbolKey) (slot : CacheSlot) : Storing Unit :=
  modify fun s => { s with cache := s.cache.insert key slot }

/-- Say that the record of a symbol is being made. -/
def reserve (key : SymbolKey) : Storing Unit := mark key .resolving

/-- Give up a record that is being made. -/
def abandon (key : SymbolKey) : Storing Unit :=
  modify fun s =>
    if s.cache.get? key = some .resolving then { s with cache := s.cache.erase key } else s

/-! ### Documents -/

/-- The document of a file, made when first needed. -/
def document (w : Setting) (file : FileId) : Storing Document := do
  match (← get).documents.get? file with
  | some (.live document) => return document
  | some .cleared         => throw (.documentCleared (w.program.shownFile file))
  | none                  =>
      let path := (w.program.filePath file).getD ⟨""⟩
      let vertex ← Graph.vertex (.document path.uri path.language)
      let document : Document :=
        { file, path := path.text, vertex, isExternal := w.program.isExternalLibrary file
          modulePath := some (w.projectRoot.modulePath path) }
      modify fun s =>
        { s with project := s.project.addDocument vertex.id
                 documents := s.documents.insert file (.live document) }
      return document

/-- Put a document in the place of the one of its file. -/
def putDocument (file : FileId) (document : Document) : Storing Unit :=
  modify fun s => { s with documents := s.documents.insert file (.live document) }

/-- Add a range to the document of a file. -/
def addRange (w : Setting) (file : FileId) (range : ElementId) : Storing Unit := do
  putDocument file ((← document w file).addRange range)

/-- Open a container in the document of a file. -/
def beginContainer (w : Setting) (file : FileId) (range : ElementId) : Storing Unit := do
  putDocument file ((← document w file).beginContainer range)

/-- Close the innermost container in the document of a file. -/
def endContainer (w : Setting) (file : FileId) : Storing Unit := do
  putDocument file (← Action.ofExcept (← document w file).endContainer)

/-- End the document of a file, if there is one. -/
def endDocument (w : Setting) (file : FileId) : Storing Unit := do
  match (← get).documents.get? file with
  | none                  => return ()
  | some .cleared         => throw (.documentCleared (w.program.shownFile file))
  | some (.live document) =>
      modify fun s => { s with documents := s.documents.insert file .cleared }
      (document.finish w.documentSymbols : Emission Unit)

end Store

end SymbolGraph
