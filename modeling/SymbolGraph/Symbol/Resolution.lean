import SymbolGraph.Fault
import SymbolGraph.Symbol.Overrides

/-!
# Symbol — choosing how a symbol is recorded

A symbol is classified by its flags and, when it is transient, by the place where it was met: a
property name accessed on a union or intersection stands for the property of each constituent.
Transient and composite symbols have no declarations of their own and are recorded at the place
where they were met.

* `Program.resolution`: the classification.
* `Symbols.forwardTypeAlias`: the names that the type literals of a type alias go by.
-/

namespace SymbolGraph

namespace Program

/-- The constituents of the type of the receiver, when the node is a property name accessed on a
union or intersection. -/
def receiverConstituents (p : Program) (location : NodeId) : Option (List TypeRef) := do
  let parent ← p.parent location
  if p.kind parent ≠ .propertyAccessExpression then none
  let receiver ← (p.children parent).find? fun child => child ≠ location
  p.constituents (← p.typeAt receiver)

/-- How a symbol met at a place is recorded.  Whether it is composite comes before all else, but
only for transient symbols. -/
def resolution (p : Program) (symbol : SymbolRef) (location : Option NodeId) : Resolution :=
  let flags := p.symbolFlags symbol
  if flags.isTransient then
    if (location.bind p.receiverConstituents).isSome then .composite
    else if flags.isTransientOnly then .transient
    else .standard
  else if flags.isTypeAlias then .typeAlias
  else if flags.isAlias then .ofAlias
  else if flags.isMethod then .method
  else .standard

/-- The files of nodes, each once, in order of first sight. -/
def filesOf (p : Program) (nodes : List NodeId) : List FileId :=
  nodes.foldl
    (fun files node => if p.fileOf node ∈ files then files else files ++ [p.fileOf node]) []

end Program

namespace Resolution

/-- Whether the symbol is recorded at the place where it was met. -/
def requiresLocation : Resolution → Bool
  | composite | transient => true
  | _                     => false

/-- The nodes that count as declarations. -/
def declarations (resolution : Resolution) (p : Program) (symbol : SymbolRef)
    (location : Option NodeId) : Except Fault (List NodeId) :=
  if resolution.requiresLocation then
    match location with
    | some node => .ok [node]
    | none      => .error (.missingLocation resolution)
  else .ok (p.declarations symbol)

/-- The node and the text that name a declaration. -/
def identifierOf (resolution : Resolution) (p : Program) (symbol : SymbolRef)
    (declaration : NodeId) : Option (NodeId × String) :=
  if resolution.requiresLocation then some (declaration, p.textOf declaration)
  else if p.kind declaration = .sourceFile ∧ (p.symbolFlags symbol).isValueModule then
    some (declaration, "")
  else (p.nameOf declaration).map fun name => (name, p.textOf name)

end Resolution

/-! ### Type aliases -/

/-- The type literals at and below a node through unions, intersections and parentheses, at most
`fuel` levels down, and whether a union or intersection was passed. -/
def Program.typeLiteralsWithin (p : Program) : (fuel : Nat) → NodeId → List NodeId × Bool
  | 0,        _    => ([], false)
  | fuel + 1, node =>
      match p.kind node with
      | .unionType | .intersectionType =>
          (((p.children node).map (p.typeLiteralsWithin fuel)).flatMap Prod.fst, true)
      | .parenthesizedType =>
          let below := (p.children node).map (p.typeLiteralsWithin fuel)
          (below.flatMap Prod.fst, below.any Prod.snd)
      | .typeLiteral => ([node], false)
      | _            => ([], false)

namespace Symbols

/-- Let type literals go by their names beside `target`. -/
def addForwards (p : Program) (target : SymbolRef) :
    List (NodeId × String) → StateM Symbols (List Override)
  | []                      => return []
  | (literal, name) :: rest => do
      match p.symbolAt literal with
      | none        => addForwards p target rest
      | some symbol =>
          let override ← addForward p symbol target name
          return override :: (← addForwards p target rest)

/-- Let the type literals of a type alias go by the name of the alias, numbered when they are parts
of a union or intersection. -/
def forwardTypeAlias (p : Program) (declaration : NodeId) : StateM Symbols (List Override) :=
  match p.nameOf declaration with
  | none      => return []
  | some name =>
      match p.symbolAt name with
      | none        => return []
      | some target =>
          let below := ((p.children declaration).filter fun child => child ≠ name).map
            (p.typeLiteralsWithin (p.nodes.size + 1))
          let composite := below.any Prod.snd
          let names := (below.flatMap Prod.fst).zipIdx.map fun (literal, index) =>
            (literal, if composite then Text.decimal index ++ "_" ++ p.symbolName target
                      else p.symbolName target)
          addForwards p target names

/-- The overrides to hold while a declaration is walked: only type aliases forward anything. -/
def forward (resolution : Resolution) (p : Program) (declaration : NodeId) :
    StateM Symbols (List Override) :=
  match resolution with
  | .typeAlias => forwardTypeAlias p declaration
  | _          => return []

end Symbols

end SymbolGraph
