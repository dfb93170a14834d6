import SymbolGraph.Store.Accumulate

/-!
# Store — closing

Records are closed when the walk leaves the node that they are local to, partitions when it leaves
their file, and everything that is left at the end of the project.

* `Store.nodeProcessed`: the walk has left a node.  Records local to a node of a declaration file
  stay open.
* `Store.projectProcessed`: the walk is over.
-/

namespace SymbolGraph.Store

/-- Tell a record that the walk has left a node. -/
def leave (w : Setting) (node : NodeId) (id : RecordId) : Storing Unit := do
  let known ← record id
  let file := w.program.fileOf node
  if known.state = .closed then return ()
  else if known.scope = some node then
    unless w.program.isDeclarationFile file do
      onRecord id Ledger.close
      mark known.key .cleared
  else if w.program.kind node = .sourceFile then
    onRecord id (Ledger.endPartition file)

/-- The walk has left a node: tell the records that watch it. -/
def nodeProcessed (w : Setting) (node : NodeId) : Storing Unit := do
  match (← get).watchers.get? node with
  | none      => return ()
  | some told =>
      modify fun s => { s with watchers := s.watchers.erase node }
      told.forM (leave w node)

/-- Close a record that is still open. -/
def closeIfOpen (id : RecordId) : Storing Unit := do
  if (← record id).state = .opened then onRecord id Ledger.close

/-- The files whose documents have not ended. -/
def openDocuments (s : Store) : List FileId :=
  (s.documents.entries.filter fun entry => entry.2.value?.isSome).map Prod.fst

/-- The walk is over: close all records, end all documents and emit what the project contains. -/
def projectProcessed (w : Setting) : Storing Unit := do
  modify fun s => { s with watchers := ∅ }
  (List.range (← get).records.size).forM fun index => closeIfOpen ⟨index⟩
  (openDocuments (← get)).forM (endDocument w)
  Action.onPart (fun s => { project := s.project, graph := s.graph : Project.Ledger })
    (fun ledger s => { s with project := ledger.project, graph := ledger.graph }) Project.finish

end SymbolGraph.Store
