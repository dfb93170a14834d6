import SymbolGraph.Graph.Sink
import SymbolGraph.Symbol.Key

/-!
# Faults

Everything that can end a run, by cause.  The *life cycle* faults mean that a record, a partition or
a document was used on the wrong side of its opening or closing.  `Fault.message` is the only place
with their wording.
-/

namespace SymbolGraph

/-- How a symbol is recorded. -/
inductive Resolution where
  | standard
  | ofAlias
  | method
  | composite
  | transient
  | typeAlias
  deriving DecidableEq

/-- The name of a resolution. -/
def Resolution.name : Resolution → String
  | standard  => "standard"
  | ofAlias   => "alias"
  | method    => "method"
  | composite => "union-or-intersection"
  | transient => "transient"
  | typeAlias => "type-alias"

/-- Why a run ended. -/
inductive Fault where
  /-- The record of a symbol was asked for after its scope had ended. -/
  | recordCleared (symbol : SymbolKey)
  /-- A document was used after its end. -/
  | documentCleared (path : String)
  /-- A partition was used after its end. -/
  | partitionCleared (symbol : SymbolKey) (document : String)
  /-- A record was written to before its beginning or after its end. -/
  | recordClosed (symbol : SymbolKey)
  /-- A record was begun twice. -/
  | alreadyBegun (symbol : SymbolKey)
  /-- A symbol was needed while its own record was being made. -/
  | cyclicResolution (symbol : SymbolKey)
  /-- A symbol that is recorded at a node was resolved without one. -/
  | missingLocation (resolution : Resolution)
  /-- The document symbols of a document do not nest. -/
  | unbalancedContainers (path : String)
  /-- An edge cannot leave a vertex of this label. -/
  | unexpectedVertex (edge : EdgeLabel) (label : VertexLabel)
  /-- The sink refused an element. -/
  | sink (fault : SinkFault)
  /-- The options cannot be read. -/
  | options (reason : String)
  /-- There is no record of this number. -/
  | unknownRecord (index : Nat)
  /-- A chain of links between records or symbols did not end. -/
  | endlessChain
  deriving DecidableEq

namespace Fault

/-- The wording of a fault. -/
def message : Fault → String
  | recordCleared symbol => "symbol data for `" ++ symbol.text ++ "` has already been cleared"
  | documentCleared path => "document data for `" ++ path ++ "` has already been cleared"
  | partitionCleared symbol document =>
      "partition of symbol `" ++ symbol.text ++ "` for `" ++ document
        ++ "` has already been cleared"
  | recordClosed symbol => "symbol data for `" ++ symbol.text ++ "` is closed"
  | alreadyBegun symbol => "symbol data for `" ++ symbol.text ++ "` has already begun"
  | cyclicResolution symbol => "cyclic resolution of symbol `" ++ symbol.text ++ "`"
  | missingLocation resolution => resolution.name ++ " resolver invoked without a location"
  | unbalancedContainers path =>
      "unbalanced document symbol containers at the end of `" ++ path ++ "`"
  | unexpectedVertex edge label =>
      "cannot create a `" ++ edge.text ++ "` edge from a `" ++ label.text ++ "` vertex"
  | sink (.io reason) => "I/O error: " ++ reason
  | sink (.json reason) => "JSON error: " ++ reason
  | options reason => "invalid configuration: " ++ reason
  | unknownRecord index => "no symbol data with number " ++ Text.decimal index
  | endlessChain => "endless chain of symbols"

/-- Whether something was opened or closed out of order. -/
def isLifeCycle : Fault → Bool
  | recordCleared _ | documentCleared _ | partitionCleared _ _ | recordClosed _ | alreadyBegun _
  | unbalancedContainers _ => true
  | _ => false

end Fault

end SymbolGraph
