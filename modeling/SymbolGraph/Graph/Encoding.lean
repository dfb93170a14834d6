import SymbolGraph.Graph.Element
import SymbolGraph.Json.Value

/-!
# Graph — elements as JSON

Each element is one JSON object.  It says first whether it is a vertex or an edge, then its id and
its label, then what it holds.  Absent tags, absent properties and empty lists of children are left
out.  A line of output is the compact form of an element and a newline.
-/

namespace SymbolGraph

def ElementId.json (id : ElementId) : Json := .num id.value

def Position.json (p : Position) : Json :=
  .obj [("line", .num p.line), ("character", .num p.character)]

/-- The members of a line range. -/
def LineRange.members (r : LineRange) : List (String × Json) :=
  [("start", r.start.json), ("end", r.stop.json)]

def LineRange.json (r : LineRange) : Json := .obj r.members

def RangeTag.json : RangeTag → Json
  | definition text kind fullRange =>
      .obj [("type", .str "definition"), ("text", .str text), ("kind", .num kind.code),
        ("fullRange", fullRange.json)]
  | reference text => .obj [("type", .str "reference"), ("text", .str text)]

def MarkedText.json : MarkedText → Json
  | code language value => .obj [("language", .str language), ("value", .str value)]
  | plain text          => .str text

/-- Hover text as an object. -/
def MarkedText.hover (contents : List MarkedText) : Json :=
  .obj [("contents", .arr (contents.map json))]

def Uniqueness.text : Uniqueness → String
  | document => "document"
  | project  => "project"
  | group    => "group"
  | scheme   => "scheme"
  | global   => "global"

def MonikerKind.text : MonikerKind → String
  | imported => "import"
  | exported => "export"
  | ofLocal  => "local"

/-- The members of a moniker. -/
def Moniker.members (m : Moniker) : List (String × Json) :=
  [("scheme", .str m.scheme), ("identifier", .str m.identifier), ("unique", .str m.unique.text),
   ("kind", .str m.kind.text)]

mutual

/-- A document symbol; a symbol without inner symbols has no list of children. -/
def SymbolTree.json : SymbolTree → Json
  | .node id []       => .obj [("id", id.json)]
  | .node id (t :: ts) =>
      .obj [("id", id.json), ("children", .arr (t.json :: SymbolTree.jsonForest ts))]

/-- Document symbols side by side. -/
def SymbolTree.jsonForest : List SymbolTree → List Json
  | []      => []
  | t :: ts => t.json :: SymbolTree.jsonForest ts

end

/-- The members of a range, its tag only when it has one. -/
def Vertex.rangeMembers (span : LineRange) (tag : Option RangeTag) : List (String × Json) :=
  span.members ++ (tag.map fun t => ("tag", t.json)).toList

/-- What a vertex holds, as members. -/
def Vertex.members : Vertex → List (String × Json)
  | metaData info =>
      [("version", .str info.version), ("projectRoot", .str info.projectRoot),
       ("positionEncoding", .str info.positionEncoding),
       ("toolInfo", .obj [("name", .str info.toolName), ("version", .str info.toolVersion)])]
  | project kind                => [("kind", .str kind)]
  | document uri languageId     => [("uri", .str uri), ("languageId", .str languageId)]
  | range span tag              => Vertex.rangeMembers span tag
  | resultSet                   => []
  | definitionResult            => []
  | referenceResult             => []
  | hoverResult contents        => [("result", MarkedText.hover contents)]
  | moniker m                   => m.members
  | documentSymbolResult forest => [("result", .arr (SymbolTree.jsonForest forest))]

/-- What an edge holds, as members. -/
def Edge.members : Edge → List (String × Json)
  | contains source targets =>
      [("outV", source.json), ("inVs", .arr (targets.map ElementId.json))]
  | item source targets document property =>
      [("outV", source.json), ("inVs", .arr (targets.map ElementId.json)),
       ("document", document.json)]
        ++ (property.map fun p => ("property", Json.str p.text)).toList
  | link _ source target => [("outV", source.json), ("inV", target.json)]

/-- The id, the label and the contents of a vertex. -/
def Vertex.labelled (id : ElementId) (v : Vertex) : List (String × Json) :=
  ("id", id.json) :: ("label", .str v.label.text) :: v.members

/-- An element as a JSON object. -/
def Element.json : Element → Json
  | vertex id v => .obj (("type", .str "vertex") :: v.labelled id)
  | edge id e   =>
      .obj (("type", .str "edge") :: ("id", id.json) :: ("label", .str e.label.text) :: e.members)

/-- The line of output of an element, without its newline. -/
def Element.line (element : Element) : List Char := element.json.render

end SymbolGraph
