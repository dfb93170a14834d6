import SymbolGraph.Graph.Element

/-!
# Graph — answering an editor

The reader's side of the graph, over a list of elements.  From a range one follows `next` edges
through result sets and takes the first result of the kind that is asked for.  Reference results
are followed further, through the reference results that they list.

* `Query.nextChain`: the vertex and what follows it by first `next` edges, up to the first repeat.
* `Query.definitions`, `Query.references`, `Query.hover`, `Query.monikers`: the four questions.

The elements may be any list.  Chains and closures end because no vertex is followed twice.
-/

namespace SymbolGraph.Query

/-- The vertex of an id; of several, the one emitted last. -/
def vertex? (elements : List Element) (id : ElementId) : Option Vertex :=
  ((elements.filterMap Element.vertex?).findRev? fun v => v.1 = id).map Prod.snd

/-- The span and the tag of a range. -/
def range? (elements : List Element) (id : ElementId) : Option (LineRange × Option RangeTag) :=
  match vertex? elements id with
  | some (.range span tag) => some (span, tag)
  | _                      => none

/-- The text in the tag of a range. -/
def rangeText (elements : List Element) (id : ElementId) : Option String :=
  (range? elements id).bind fun (_, tag) => tag.map RangeTag.text

/-- The ids of all vertices in order of emission. -/
def vertexIds (elements : List Element) : List ElementId :=
  (elements.filterMap Element.vertex?).map Prod.fst

/-- The ranges whose tag has a given text, in order of emission. -/
def rangesWithText (elements : List Element) (text : String) : List ElementId :=
  (vertexIds elements).filter fun id => rangeText elements id = some text

/-- The edges that leave a vertex under a label, in order of emission. -/
def outgoing (elements : List Element) (id : ElementId) (label : EdgeLabel) : List Edge :=
  ((elements.filterMap Element.edge?).map Prod.snd).filter fun e =>
    e.source = id && e.label = label

/-- The target of the first edge of a kind that leaves a vertex. -/
def firstTarget (elements : List Element) (id : ElementId) (kind : LinkKind) : Option ElementId :=
  (outgoing elements id (.link kind)).head?.bind fun e => e.targets.head?

/-- The chain of `next` edges from `current` that avoids what was `seen`, at most `fuel` long. -/
def chainWithin (elements : List Element) : (fuel : Nat) → (seen : List ElementId) →
    (current : ElementId) → List ElementId
  | 0,        _,    _       => []
  | fuel + 1, seen, current =>
      match firstTarget elements current .next with
      | none        => []
      | some target =>
          if target ∈ seen then []
          else target :: chainWithin elements fuel (target :: seen) target

/-- A vertex and the vertices that follow it by `next`.  Each step uses another edge. -/
def nextChain (elements : List Element) (id : ElementId) : List ElementId :=
  id :: chainWithin elements elements.length [id] id

/-- The first result of a kind along the chain of a vertex. -/
def firstResult (elements : List Element) (id : ElementId) (kind : LinkKind) : Option ElementId :=
  (nextChain elements id).findSome? fun v => firstTarget elements v kind

/-- The definitions of what a range covers. -/
def definitions (elements : List Element) (range : ElementId) : List ElementId :=
  match firstResult elements range .definition with
  | none        => []
  | some result => (outgoing elements result .item).flatMap Edge.targets

/-- Where the search for references stands. -/
structure Search where
  found   : List ElementId := []
  results : List ElementId := []
  pending : List ElementId

/-- The list with those of `more` at its end that it does not have yet. -/
def addNew (known more : List ElementId) : List ElementId :=
  more.foldl (fun known id => if id ∈ known then known else known ++ [id]) known

/-- The search after one more `item` edge: listed reference results are put in front of what is
pending, the last edge's foremost, and listed ranges that are kept are found once. -/
def Search.visit (keep : Option ItemProperty → Bool) (search : Search) : Edge → Search
  | .item _ targets _ property =>
      if property = some .referenceResults then
        { search with pending := targets ++ search.pending }
      else if keep property then { search with found := addNew search.found targets }
      else search
  | _ => search

/-- The search carried on for at most `fuel` pending results. -/
def Search.run (elements : List Element) (keep : Option ItemProperty → Bool) :
    (fuel : Nat) → Search → List ElementId
  | 0,        search => search.found
  | fuel + 1, search =>
      match search.pending with
      | []              => search.found
      | result :: later =>
          if result ∈ search.results then
            Search.run elements keep fuel { search with pending := later }
          else
            Search.run elements keep fuel
              ((outgoing elements result .item).foldl (Search.visit keep)
                { search with pending := later, results := result :: search.results })

/-- How many targets the edges of a graph have together; so many results can become pending. -/
def targetCount (elements : List Element) : Nat :=
  ((elements.filterMap Element.edge?).flatMap fun e => e.2.targets).length

/-- The ranges listed, under a property that is kept, by the reference result of a range and by the
reference results that it leads to. -/
def referencesWith (elements : List Element) (range : ElementId)
    (keep : Option ItemProperty → Bool) : List ElementId :=
  match firstResult elements range .references with
  | none        => []
  | some result => Search.run elements keep (targetCount elements + 1) { pending := [result] }

/-- All references to what a range covers, declarations and definitions included. -/
def references (elements : List Element) (range : ElementId) : List ElementId :=
  referencesWith elements range fun _ => true

/-- The references listed under one property. -/
def referencesBy (elements : List Element) (range : ElementId) (property : ItemProperty) :
    List ElementId :=
  referencesWith elements range fun p => p = some property

/-- The hover text of what a range covers. -/
def hover (elements : List Element) (range : ElementId) : Option (List MarkedText) :=
  (firstResult elements range .hover).bind fun result =>
    match vertex? elements result with
    | some (.hoverResult contents) => some contents
    | _                            => none

/-- The moniker of an id. -/
def moniker? (elements : List Element) (id : ElementId) : Option Moniker :=
  match vertex? elements id with
  | some (.moniker m) => some m
  | _                 => none

/-- The ids that are attached to an id, in order of emission. -/
def attachedTo (elements : List Element) (id : ElementId) : List ElementId :=
  (elements.filterMap Element.edge?).filterMap fun
    | (_, .link .attach source target) => if target = id then some source else none
    | _                                => none

/-- The monikers along the chain of a range, each followed by those attached to it. -/
def monikers (elements : List Element) (range : ElementId) : List Moniker :=
  (nextChain elements range).flatMap fun v =>
    (outgoing elements v (.link .moniker)).flatMap fun e =>
      e.targets.flatMap fun target =>
        (target :: attachedTo elements target).filterMap (moniker? elements)

end SymbolGraph.Query
