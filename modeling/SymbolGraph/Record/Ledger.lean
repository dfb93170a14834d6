import SymbolGraph.Action
import SymbolGraph.Graph.Emission
import SymbolGraph.Record.Basic

/-!
# Record — from collected ranges to edges

A `Ledger` is a record together with the graph that it is written to.

* `Ledger.begin`: emits the result set, once.
* `Ledger.referenceResult`, `Ledger.definitionResult`: the results, made when first needed by
  `Ledger.newResult`.
* `Ledger.endPartition`: lists what one partition collected, and clears it.
* `Ledger.close`: ends all partitions and closes the record.

A partition counts as cleared before its edges are emitted, and a result is kept only after its edge
was emitted.
-/

namespace SymbolGraph

/-- A record and the graph that it is written to. -/
structure Ledger where
  record : Record
  graph  : Graph

namespace Ledger

/-- An action on a ledger. -/
abbrev Writing := EStateM Fault Ledger

instance : MonadLift Emission Writing :=
  ⟨fun act => Action.onPart Ledger.graph (fun graph s => { s with graph }) act⟩

/-- Change the record. -/
def change (f : Record → Record) : Writing Unit := modify fun s => { s with record := f s.record }

/-- The result set of the record. -/
def resultSet : Writing VertexRef := do Action.ofExcept (← get).record.begunResultSet

/-- Emit the result set of the record, which is open from then on. -/
def emitResultSet : Writing VertexRef := do
  let vertex ← Graph.vertex .resultSet
  change fun record => { record with resultSet := some vertex, state := .opened }
  return vertex

/-- Open the record: emit its result set. -/
def begin : Writing VertexRef := do
  let record := (← get).record
  if record.state ≠ .unopened then throw (.alreadyBegun record.key)
  emitResultSet

/-- Emit a new result and the edge that leads to it from the result set; the record notes it. -/
def newResult (v : Vertex) (kind : LinkKind) (note : VertexRef → Record → Record) :
    Writing VertexRef := do
  let hub ← resultSet
  let result ← Graph.vertex v
  discard (Graph.link kind hub.id result.id)
  change (note result)
  return result

/-- The reference result, with the edge that leads to it. -/
def referenceResult : Writing VertexRef := do
  match (← get).record.referenceResult with
  | some result => return result
  | none        =>
      newResult .referenceResult .references fun result record =>
        { record with referenceResult := some result }

/-- The definition result, with the edge that leads to it. -/
def definitionResult : Writing VertexRef := do
  match (← get).record.definitionResult with
  | some result => return result
  | none        =>
      newResult .definitionResult .definition fun result record =>
        { record with definitionResult := some result }

/-- List what a partition collected by its role, if there is any. -/
def listEntry (partition : Partition) (result : VertexRef)
    (entry : List ElementId × ItemProperty) : Writing Unit := do
  unless entry.1.isEmpty do
    discard (Graph.item result entry.1 partition.document entry.2)

/-- List the references that a partition collected, by role. -/
def listReferences (partition : Partition) : Writing Unit := do
  if partition.hasReferences then
    let result ← referenceResult
    partition.listed.forM (listEntry partition result)

/-- List what a partition collected: its definitions, then its references by role. -/
def flush (partition : Partition) : Writing Unit := do
  unless partition.definitionRanges.isEmpty do
    let result ← definitionResult
    discard (Graph.item result partition.definitionRanges partition.document .definitions)
  listReferences partition

/-- Clear the partition of a file and list what it collected. -/
def endPartition (file : FileId) : Writing Unit := do
  match (← get).record.partitions.get? file with
  | some (.live partition) =>
      change fun record => { record with partitions := record.partitions.insert file .cleared }
      flush partition
  | _ => return ()

/-- End every partition and close the record. -/
def close : Writing Unit := do
  let record := (← get).record
  if record.state = .closed then return ()
  record.partitions.keys.forM endPartition
  change fun record =>
    { record with state := .closed, partitions := ∅, definitionInfos := [] }

end Ledger

end SymbolGraph
