import SymbolGraph.Text.Position

/-!
# Graph — elements

The graph is a list of elements, vertices and edges, each with an id of its own.  Vertices are the
metadata, the project, documents, ranges, result sets, results and monikers; edges point from one
vertex to one or several others.

* A *result set* is the hub of one symbol: ranges and other result sets lead to it by `next`.
* A *definition result* or *reference result* lists ranges by `item` edges, document by document.
* `Edge.containing`, `Edge.listing`: the two edges that depend on the label of their source.
-/

namespace SymbolGraph

/-- The id of an element, unique within one graph. -/
structure ElementId where
  value : Nat
  deriving DecidableEq

/-- An id as a reader sees it. -/
def ElementId.shown (id : ElementId) : String := Text.decimal id.value

/-- An id with a mark in front, for messages about malfunctions. -/
def ElementId.inspected (id : ElementId) : String := "#" ++ id.shown

/-- What a vertex is. -/
inductive VertexLabel where
  | metaData
  | project
  | document
  | range
  | resultSet
  | definitionResult
  | referenceResult
  | hoverResult
  | moniker
  | documentSymbolResult
  deriving DecidableEq

/-- The written form of a label. -/
def VertexLabel.text : VertexLabel → String
  | metaData             => "metaData"
  | project              => "project"
  | document             => "document"
  | range                => "range"
  | resultSet            => "resultSet"
  | definitionResult     => "definitionResult"
  | referenceResult      => "referenceResult"
  | hoverResult          => "hoverResult"
  | moniker              => "moniker"
  | documentSymbolResult => "documentSymbolResult"

/-- The sort of a definition, as an editor shows it. -/
inductive SymbolKind where
  | file
  | module
  | ofNamespace
  | ofClass
  | method
  | property
  | constructor
  | enum
  | interface
  | function
  | ofVariable
  | enumMember
  | typeParameter
  deriving DecidableEq

/-- The number of a sort in the editor protocol. -/
def SymbolKind.code : SymbolKind → Nat
  | file          => 1
  | module        => 2
  | ofNamespace   => 3
  | ofClass       => 5
  | method        => 6
  | property      => 7
  | constructor   => 9
  | enum          => 10
  | interface     => 11
  | function      => 12
  | ofVariable    => 13
  | enumMember    => 22
  | typeParameter => 26

/-- What a range covers: the name in a definition, or a mention. -/
inductive RangeTag where
  | definition (text : String) (kind : SymbolKind) (fullRange : LineRange)
  | reference (text : String)
  deriving DecidableEq

/-- The text a tagged range covers. -/
def RangeTag.text : RangeTag → String
  | definition text _ _ => text
  | reference text      => text

/-- A piece of hover text: code in a language, or plain text. -/
inductive MarkedText where
  | code (language value : String)
  | plain (text : String)
  deriving DecidableEq

/-- Within what a moniker is unique. -/
inductive Uniqueness where
  | document
  | project
  | group
  | scheme
  | global
  deriving DecidableEq

/-- Whether a moniker names something imported, exported or local. -/
inductive MonikerKind where
  | imported
  | exported
  | ofLocal
  deriving DecidableEq

/-- A name for a symbol that holds beyond one graph. -/
structure Moniker where
  scheme     : String
  identifier : String
  unique     : Uniqueness
  kind       : MonikerKind
  deriving DecidableEq

/-- The range of a document symbol with the symbols inside it. -/
inductive SymbolTree where
  | node (id : ElementId) (children : List SymbolTree)

/-- What the graph says about itself. -/
structure MetaData where
  version          : String
  projectRoot      : String
  positionEncoding : String
  toolName         : String
  toolVersion      : String
  deriving DecidableEq

/-- The metadata of a graph written by a given tool. -/
def MetaData.ofTool (projectRoot toolName toolVersion : String) : MetaData :=
  { version := "0.6.0", projectRoot, positionEncoding := "utf-16", toolName, toolVersion }

/-- What a vertex holds. -/
inductive Vertex where
  | metaData (info : MetaData)
  | project (kind : String)
  | document (uri languageId : String)
  | range (span : LineRange) (tag : Option RangeTag)
  | resultSet
  | definitionResult
  | referenceResult
  | hoverResult (contents : List MarkedText)
  | moniker (moniker : Moniker)
  | documentSymbolResult (forest : List SymbolTree)

/-- The label of a vertex. -/
def Vertex.label : Vertex → VertexLabel
  | metaData _             => .metaData
  | project _              => .project
  | document _ _           => .document
  | range _ _              => .range
  | resultSet              => .resultSet
  | definitionResult       => .definitionResult
  | referenceResult        => .referenceResult
  | hoverResult _          => .hoverResult
  | moniker _              => .moniker
  | documentSymbolResult _ => .documentSymbolResult

/-- An emitted vertex: its id and its label. -/
structure VertexRef where
  id    : ElementId
  label : VertexLabel
  deriving DecidableEq

/-- The role of the targets of an `item` edge that leaves a reference result. -/
inductive ItemProperty where
  | declarations
  | definitions
  | references
  | referenceResults
  deriving DecidableEq

/-- The written form of a role. -/
def ItemProperty.text : ItemProperty → String
  | declarations     => "declarations"
  | definitions      => "definitions"
  | references       => "references"
  | referenceResults => "referenceResults"

/-- The edges with a single target. -/
inductive LinkKind where
  | next
  | moniker
  | attach
  | hover
  | definition
  | references
  | documentSymbol
  deriving DecidableEq

/-- What an edge is. -/
inductive EdgeLabel where
  | contains
  | item
  | link (kind : LinkKind)
  deriving DecidableEq

/-- The written form of a label. -/
def EdgeLabel.text : EdgeLabel → String
  | contains             => "contains"
  | item                 => "item"
  | link .next           => "next"
  | link .moniker        => "moniker"
  | link .attach         => "attach"
  | link .hover          => "textDocument/hover"
  | link .definition     => "textDocument/definition"
  | link .references     => "textDocument/references"
  | link .documentSymbol => "textDocument/documentSymbol"

/-- What an edge holds. -/
inductive Edge where
  | contains (source : ElementId) (targets : List ElementId)
  | item (source : ElementId) (targets : List ElementId) (document : ElementId)
      (property : Option ItemProperty)
  | link (kind : LinkKind) (source target : ElementId)

namespace Edge

/-- The label of an edge. -/
def label : Edge → EdgeLabel
  | contains _ _ => .contains
  | item _ _ _ _ => .item
  | link kind _ _ => .link kind

/-- Where an edge starts. -/
def source : Edge → ElementId
  | contains source _ => source
  | item source _ _ _ => source
  | link _ source _   => source

/-- Where an edge leads. -/
def targets : Edge → List ElementId
  | contains _ targets => targets
  | item _ targets _ _ => targets
  | link _ _ target    => [target]

/-- The `contains` edge of a project or a document; no other vertex contains anything. -/
def containing (source : VertexRef) (targets : List ElementId) : Option Edge :=
  match source.label with
  | .project | .document => some (.contains source.id targets)
  | _                    => none

/-- The `item` edge of a result: a definition result lists without a property, a reference result
with one, and no other vertex lists anything. -/
def listing (source : VertexRef) (targets : List ElementId) (document : ElementId)
    (property : ItemProperty) : Option Edge :=
  match source.label with
  | .definitionResult => some (.item source.id targets document none)
  | .referenceResult  => some (.item source.id targets document (some property))
  | _                 => none

end Edge

/-- A vertex or an edge with its id. -/
inductive Element where
  | vertex (id : ElementId) (vertex : Vertex)
  | edge (id : ElementId) (edge : Edge)

namespace Element

/-- The id of an element. -/
def id : Element → ElementId
  | vertex id _ => id
  | edge id _   => id

/-- The vertex of an element, with its id. -/
def vertex? : Element → Option (ElementId × Vertex)
  | vertex id v => some (id, v)
  | edge _ _    => none

/-- The edge of an element, with its id. -/
def edge? : Element → Option (ElementId × Edge)
  | vertex _ _ => none
  | edge id e  => some (id, e)

end Element

end SymbolGraph
