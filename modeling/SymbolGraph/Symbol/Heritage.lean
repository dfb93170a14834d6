import SymbolGraph.Symbol.Overrides

/-!
# Symbol — heritage

The direct supertypes of a class or interface, and the members of a given name along them.  A base
that has the member ends the search along its path; one that has not is searched in turn, so a
shared ancestor counts once for each path to it.

* `Symbols.baseSymbolsOf`, `Symbols.findBaseMembers`: both answers are kept.  While the members of a
  symbol are being looked for they count as absent, which ends the search where heritage is cyclic.
* `Symbols.seekMembers`: one level of the search for members.
-/

namespace SymbolGraph

namespace Program

/-- The symbol an expression in a heritage clause names. -/
def heritageTarget (p : Program) (expression : NodeId) : Option SymbolRef :=
  (p.symbolAt expression).or ((p.children expression).findSome? p.symbolAt)

/-- The expressions in the heritage clauses of a declaration. -/
def heritageExpressions (p : Program) (declaration : NodeId) : List NodeId :=
  ((p.children declaration).filter fun clause => p.kind clause = .heritageClause).flatMap p.children

/-- The symbols named in the heritage clauses of a class, each once and without the class. -/
def heritageSymbols (p : Program) (ofClass : SymbolRef) : List SymbolRef :=
  let targets := ((p.declarations ofClass).flatMap p.heritageExpressions).filterMap fun expression =>
    (p.heritageTarget expression).map p.behindAlias
  targets.foldl
    (fun known target => if target = ofClass ∨ target ∈ known then known else known ++ [target]) []

/-- The direct supertypes of a class or interface; nothing else has any. -/
def directBases (p : Program) (symbol : SymbolRef) : Option (List SymbolRef) :=
  let flags := p.symbolFlags symbol
  if flags.isClass then some (p.heritageSymbols symbol)
  else if flags.isInterface then
    (p.declaredType symbol).map fun type =>
      ((p.baseTypes type).filterMap p.typeSymbol).filter fun base => base ≠ symbol
  else none

end Program

namespace Symbols

/-- The direct supertypes of a symbol. -/
def baseSymbolsOf (p : Program) (symbol : SymbolRef) :
    StateM Symbols (Option (List SymbolRef)) := do
  let key := p.key symbol
  match (← get).baseSymbols.get? key with
  | some bases => return bases
  | none       =>
      let bases := p.directBases symbol
      modify fun s => { s with baseSymbols := s.baseSymbols.insert key bases }
      return bases

/-- Keep the members of a name along the supertypes of a symbol. -/
def keepBaseMembers (key : SymbolKey) (name : String) (members : Option (List SymbolRef)) :
    StateM Symbols Unit :=
  modify fun s => { s with baseMembers := s.baseMembers.insert (key, name) members }

/-- The members of a name in bases and, where a base has none, along its supertypes as found by
`ask`. -/
def membersAlong (p : Program) (name : String)
    (ask : SymbolRef → StateM Symbols (Option (List SymbolRef))) :
    List SymbolRef → StateM Symbols (List SymbolRef)
  | []            => return []
  | base :: bases => do
      let here ← match p.memberNamed base name with
        | some member => pure [member]
        | none        => do pure ((← ask base).getD [])
      return here ++ (← membersAlong p name ask bases)

/-- The members of a name in the direct supertypes of a symbol and further up. -/
def searchBases (p : Program) (name : String)
    (ask : SymbolRef → StateM Symbols (Option (List SymbolRef))) (symbol : SymbolRef) :
    StateM Symbols (List SymbolRef) := do
  match ← baseSymbolsOf p symbol with
  | none       => return []
  | some bases => membersAlong p name ask bases

/-- Keep what was found, and answer with it.  Nothing found is no answer. -/
def settleMembers (p : Program) (symbol : SymbolRef) (name : String) (found : List SymbolRef) :
    StateM Symbols (Option (List SymbolRef)) := do
  let members := if found.isEmpty then none else some found
  keepBaseMembers (p.key symbol) name members
  return members

/-- One level of the search for members, where `ask` goes on from a base.  While it is under way,
the symbol has no members. -/
def seekMembers (p : Program) (name : String)
    (ask : SymbolRef → StateM Symbols (Option (List SymbolRef))) (symbol : SymbolRef) :
    StateM Symbols (Option (List SymbolRef)) := do
  match (← get).baseMembers.get? (p.key symbol, name) with
  | some members => return members
  | none         =>
      keepBaseMembers (p.key symbol) name none
      settleMembers p symbol name (← searchBases p name ask symbol)

/-- The members of a name along the supertypes of a symbol, at most `fuel` levels up. -/
def findBaseMembersWithin (p : Program) (name : String) :
    (fuel : Nat) → SymbolRef → StateM Symbols (Option (List SymbolRef))
  | 0,        _      => return none
  | fuel + 1, symbol => seekMembers p name (findBaseMembersWithin p name fuel) symbol

/-- The members of a name along the supertypes of a symbol.  Each level takes up another key, and
all symbols that do not exist share one. -/
def findBaseMembers (p : Program) (symbol : SymbolRef) (name : String) :
    StateM Symbols (Option (List SymbolRef)) :=
  findBaseMembersWithin p name (p.symbols.size + 2) symbol

end Symbols

end SymbolGraph
