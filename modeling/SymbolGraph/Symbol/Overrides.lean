import SymbolGraph.Moniker
import SymbolGraph.Symbol.Key
import SymbolGraph.Table

/-!
# Symbol — overrides

While a file is walked, what it exports is asserted as *overrides*: a parent for a symbol, an export
of a symbol by a parent, or the name under which an anonymous symbol goes.  Asserting one gives back
an `Override`, which is released when the region that asserted it has been walked.

* `Overrides.release`: undoes an override.  A parent or forwarded name is only removed while it is
  still the one that was asserted.
-/

namespace SymbolGraph

/-- One asserted override. -/
inductive Override where
  /-- `parent` stands in for the parent of a symbol. -/
  | parent (symbol : SymbolKey) (parent : SymbolRef)
  /-- `parent` exports `child`. -/
  | exported (parent child : SymbolKey)
  /-- A symbol goes by a name given elsewhere. -/
  | forwarded (symbol : SymbolKey) (name : String)
  deriving DecidableEq

/-- The symbol beside which another one is placed, and the name it goes by there. -/
structure Forward where
  target : SymbolRef
  name   : String
  deriving DecidableEq

/-- The overrides in effect. -/
structure Overrides where
  parents  : Table SymbolKey SymbolRef := ∅
  exported : List (SymbolKey × SymbolKey) := []
  forwards : Table SymbolKey Forward := ∅

namespace Overrides

/-- How many overrides are in effect. -/
def count (o : Overrides) : Nat := o.parents.size + o.exported.length + o.forwards.size

/-- Whether a parent is asserted to export a child. -/
def exports (o : Overrides) (parent child : SymbolKey) : Bool := (parent, child) ∈ o.exported

/-- Assert a parent. -/
def addParent (o : Overrides) (symbol : SymbolKey) (parent : SymbolRef) : Overrides :=
  { o with parents := o.parents.insert symbol parent }

/-- Assert an export; asserting it again changes nothing. -/
def addExport (o : Overrides) (parent child : SymbolKey) : Overrides :=
  if o.exports parent child then o
  else { o with exported := o.exported ++ [(parent, child)] }

/-- Assert the name of an anonymous symbol. -/
def addForward (o : Overrides) (symbol : SymbolKey) (forward : Forward) : Overrides :=
  { o with forwards := o.forwards.insert symbol forward }

/-- Undo an override. -/
def release (o : Overrides) : Override → Overrides
  | .parent symbol parent  =>
      if o.parents.get? symbol = some parent then { o with parents := o.parents.erase symbol }
      else o
  | .exported parent child =>
      { o with exported := o.exported.filter fun known => known ≠ (parent, child) }
  | .forwarded symbol name =>
      if (o.forwards.get? symbol).any fun forward => forward.name = name then
        { o with forwards := o.forwards.erase symbol }
      else o

end Overrides

/-! ### The tables of one run -/

/-- The overrides, and the answers about symbols that were already worked out. -/
structure Symbols where
  overrides   : Overrides := {}
  /-- Export paths; `none` stands for "not exported". -/
  exportPaths : Table SymbolKey (Option String) := ∅
  baseSymbols : Table SymbolKey (Option (List SymbolRef)) := ∅
  /-- Base members by symbol and name; `none` also while they are being looked for. -/
  baseMembers : Table (SymbolKey × String) (Option (List SymbolRef)) := ∅

namespace Symbols

/-- The tables with other overrides; export paths have to be worked out anew. -/
def override (s : Symbols) (change : Overrides → Overrides) : Symbols :=
  { s with overrides := change s.overrides, exportPaths := ∅ }

/-- Let `parent` stand in for the parent of a symbol. -/
def addParent (p : Program) (symbol parent : SymbolRef) : StateM Symbols Override := do
  modify fun s => s.override fun o => o.addParent (p.key symbol) parent
  return .parent (p.key symbol) parent

/-- Let `parent` export `child`. -/
def addExport (p : Program) (parent child : SymbolRef) : StateM Symbols Override := do
  modify fun s => s.override fun o => o.addExport (p.key parent) (p.key child)
  return .exported (p.key parent) (p.key child)

/-- Let an anonymous symbol go by `name`, beside `target`. -/
def addForward (p : Program) (symbol target : SymbolRef) (name : String) :
    StateM Symbols Override := do
  modify fun s => s.override fun o => o.addForward (p.key symbol) { target, name }
  return .forwarded (p.key symbol) name

/-- Release an override.  Export paths that hang on one were never kept, so those that were kept
stay right. -/
def release (override : Override) : StateM Symbols Unit :=
  modify fun s => { s with overrides := s.overrides.release override }

end Symbols

end SymbolGraph
