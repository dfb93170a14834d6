import SymbolGraph.Store.LifeCycle
import SymbolGraph.Symbol.ExportPath
import SymbolGraph.Symbol.Heritage
import SymbolGraph.Symbol.Resolution
import SymbolGraph.Text.LineIndex

/-!
# Session — the state of a run

A session is a store, the tables about symbols, and two tables that only serve the file being
walked: line indexes by file, and definition ranges by the name that they cover.
-/

namespace SymbolGraph

/-- The state of a run. -/
structure Session where
  store       : Store
  symbols     : Symbols := {}
  lineIndexes : Table FileId LineIndex := ∅
  definitions : Table NodeId VertexRef := ∅

namespace Session

/-- An action on a session. -/
abbrev Running := EStateM Fault Session

instance : MonadLift Store.Storing Running :=
  ⟨fun act => Action.onPart Session.store (fun store s => { s with store }) act⟩

instance : MonadLift (StateM Symbols) Running :=
  ⟨fun act => Action.onPartSafely Session.symbols (fun symbols s => { s with symbols }) act⟩

/-- The graph of the session. -/
def graph (s : Session) : Graph := s.store.graph

/-- Emit to the graph of the session. -/
def emit {α : Type} (act : Emission α) : Running α := (act : Store.Storing α)

/-- The definition range that covers a name. -/
def definitionRange (name : NodeId) : Running (Option VertexRef) := do
  return (← get).definitions.get? name

/-- Drop what was only kept for the walk of a file. -/
def fileProcessed (w : Setting) (file : FileId) : Running Unit :=
  modify fun s =>
    { s with lineIndexes := s.lineIndexes.erase file
             definitions := s.definitions.filter fun name _ => w.program.fileOf name ≠ file }

/-- The line index of a file, kept for the next question. -/
def lineIndex (w : Setting) (file : FileId) : Running LineIndex := do
  match (← get).lineIndexes.get? file with
  | some index => return index
  | none       =>
      let index := LineIndex.ofText ((w.program.fileText file).getD "")
      modify fun s => { s with lineIndexes := s.lineIndexes.insert file index }
      return index

/-- The line range of a byte range in a file. -/
def lineRange (w : Setting) (file : FileId) (range : TextRange) : Running LineRange := do
  return (← lineIndex w file).lineRange range

end Session

end SymbolGraph
