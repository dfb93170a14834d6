import SymbolGraph.Fault

/-!
# Graph — emission

A `Graph` numbers elements from one and hands each to its sink at once, so that everything an edge
refers to has been handed over before it.  An element takes its id before the sink sees it: one that
the sink refuses has used up its id but does not count as emitted.  An edge that may not leave its
source is refused before it takes an id.
-/

namespace SymbolGraph

/-- The elements numbered and emitted so far, and where they go. -/
structure Graph where
  issued  : Nat := 0
  emitted : Nat := 0
  sink    : Sink

/-- An action on a graph that may fail; what it did before failing stays done. -/
abbrev Emission := EStateM Fault Graph

namespace Graph

/-- A graph without elements over a sink. -/
def ofSink (sink : Sink) : Graph := { sink }

/-- The elements that have been kept. -/
def elements (g : Graph) : List Element := g.sink.elements

/-- Take the next id. -/
def freshId : Emission ElementId := do
  modify fun g => { g with issued := g.issued + 1 }
  return ⟨(← get).issued⟩

/-- Hand an element to the sink. -/
def deliver (element : Element) : Emission Unit := fun g =>
  match Sink.emit element g.sink with
  | .ok _ sink        => .ok () { g with sink, emitted := g.emitted + 1 }
  | .error fault sink => .error (.sink fault) { g with sink }

/-- Emit a vertex. -/
def vertex (v : Vertex) : Emission VertexRef := do
  let id ← freshId
  deliver (.vertex id v)
  return ⟨id, v.label⟩

/-- Emit an edge. -/
def edge (e : Edge) : Emission ElementId := do
  let id ← freshId
  deliver (.edge id e)
  return id

/-- Emit an edge with a single target. -/
def link (kind : LinkKind) (source target : ElementId) : Emission ElementId :=
  edge (.link kind source target)

/-- Emit the containment of a project or a document. -/
def contains (source : VertexRef) (targets : List ElementId) : Emission ElementId :=
  match Edge.containing source targets with
  | some e => edge e
  | none   => throw (.unexpectedVertex .contains source.label)

/-- Emit what a result lists in a document. -/
def item (source : VertexRef) (targets : List ElementId) (document : ElementId)
    (property : ItemProperty) : Emission ElementId :=
  match Edge.listing source targets document property with
  | some e => edge e
  | none   => throw (.unexpectedVertex .item source.label)

/-- Flush the sink. -/
def flush : Emission Unit := fun g =>
  match Sink.flush g.sink with
  | .ok _ sink        => .ok () { g with sink }
  | .error fault sink => .error (.sink fault) { g with sink }

/-! ### The vertices of a run -/

/-- The metadata of this tool. -/
def metaData (projectRoot : String) : Emission VertexRef :=
  vertex (.metaData (.ofTool projectRoot "lsif-tsc-base" "0.1.0-alpha"))

/-- A moniker that is unique within its group. -/
def moniker (scheme identifier : String) (kind : MonikerKind) : Emission VertexRef :=
  vertex (.moniker { scheme, identifier, unique := .group, kind })

end Graph

end SymbolGraph
