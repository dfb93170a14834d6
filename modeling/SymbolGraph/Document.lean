import SymbolGraph.Graph.Emission

/-!
# Documents and the project

A document collects its ranges and the tree of its document symbols.  The tree grows by a stack of
containers: a container is opened when the walk enters a declaration, and when it is closed its
symbol goes to the container below it, or to the top of the tree.

* `Document.finish`: emits the containment and, if asked for, the tree.
-/

namespace SymbolGraph

/-- A document symbol that is still open, with the symbols already closed inside it. -/
structure Container where
  range    : ElementId
  children : List SymbolTree

/-- Everything collected for one document. -/
structure Document where
  file       : FileId
  path       : String
  vertex     : VertexRef
  isExternal : Bool
  /-- The path in monikers. -/
  modulePath : Option String
  ranges     : List ElementId := []
  /-- The open containers, innermost first. -/
  containers : List Container := []
  symbols    : List SymbolTree := []

namespace Document

/-- The document with one more range. -/
def addRange (document : Document) (range : ElementId) : Document :=
  { document with ranges := document.ranges ++ [range] }

/-- The document with one more open container. -/
def beginContainer (document : Document) (range : ElementId) : Document :=
  { document with containers := { range, children := [] } :: document.containers }

/-- The document with its innermost container closed. -/
def endContainer (document : Document) : Except Fault Document :=
  match document.containers with
  | []                       => .error (.unbalancedContainers document.path)
  | [only]                   =>
      .ok { document with
            containers := [], symbols := document.symbols ++ [.node only.range only.children] }
  | inner :: outer :: others =>
      let closed := SymbolTree.node inner.range inner.children
      .ok { document with
            containers := { outer with children := outer.children ++ [closed] } :: others }

/-- Emit what the document contains, if there is anything. -/
def emitRanges (document : Document) : Emission Unit := do
  unless document.ranges.isEmpty do discard (Graph.contains document.vertex document.ranges)

/-- Emit the symbols of the document, if they are asked for and there are any. -/
def emitSymbols (document : Document) (withSymbols : Bool) : Emission Unit := do
  if withSymbols && !document.symbols.isEmpty then
    let result ← Graph.vertex (.documentSymbolResult document.symbols)
    discard (Graph.link .documentSymbol document.vertex.id result.id)

/-- Emit what the document contains and, if asked for, its symbols. -/
def finish (document : Document) (withSymbols : Bool) : Emission Unit := do
  unless document.containers.isEmpty do throw (.unbalancedContainers document.path)
  document.emitRanges
  document.emitSymbols withSymbols

end Document

/-- The project and the documents that it contains but has not yet said so. -/
structure Project where
  vertex    : VertexRef
  documents : List ElementId := []

/-- The project with one more document. -/
def Project.addDocument (project : Project) (document : ElementId) : Project :=
  { project with documents := project.documents ++ [document] }

/-- A project and the graph that it is written to. -/
structure Project.Ledger where
  project : Project
  graph   : Graph

/-- Emit the containment of the project, if there is any.  The documents count as said even when
the sink refuses the edge. -/
def Project.finish : EStateM Fault Project.Ledger Unit := fun s =>
  if s.project.documents.isEmpty then .ok () s
  else
    let told := { s.project with documents := [] }
    match Graph.contains s.project.vertex s.project.documents s.graph with
    | .ok _ graph        => .ok () { project := told, graph }
    | .error fault graph => .error fault { project := told, graph }

end SymbolGraph
