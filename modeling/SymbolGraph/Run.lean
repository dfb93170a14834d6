import SymbolGraph.Session.Walk

/-!
# Run — indexing a program

A run emits the metadata and the project, walks every file of the project in order, closes what is
still open and flushes the sink.  Library files are not walked; they only get documents for what is
referred to.

* `Run.index`: a run over a sink, its summary or the fault that ended it.
-/

namespace SymbolGraph

/-- What a run has counted at its end. -/
structure Summary where
  documents : Nat
  symbols   : Nat
  elements  : Nat
  deriving DecidableEq

namespace Run

/-- The files a run walks. -/
def walkedFiles (p : Program) : List FileId :=
  p.sourceFiles.filter fun file => !(p.isDefaultLibrary file || p.isExternalLibrary file)

/-- Start a session: emit the metadata and the project. -/
def start (w : Setting) : Emission Session := do
  let project ← Store.start w.projectRoot
  return { store := { graph := ← get, project } }

/-- Close everything, flush and count. -/
def finishAll (w : Setting) : Session.Running Summary := do
  Store.projectProcessed w
  Session.emit Graph.flush
  let store := (← get).store
  return { documents := store.documents.size, symbols := store.records.size
           elements := store.graph.emitted }

/-- Walk all files, close everything and flush. -/
def walkAll (w : Setting) : Session.Running Summary := do
  (walkedFiles w.program).forM (Session.visitFile w)
  finishAll w

/-- Index a program into a sink: the summary or the fault, and the graph as it was left. -/
def index (w : Setting) (sink : Sink) : Except Fault Summary × Graph :=
  match start w (Graph.ofSink sink) with
  | .error fault graph => (.error fault, graph)
  | .ok session _      =>
      match walkAll w session with
      | .ok summary session    => (.ok summary, session.graph)
      | .error fault session => (.error fault, session.graph)

end Run

end SymbolGraph
