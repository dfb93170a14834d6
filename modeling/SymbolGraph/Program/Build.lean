import SymbolGraph.Program.Basic

/-!
# Program — building a program step by step

A program is described by a list of steps: register a file, add a node, declare a symbol, and so on.
Each step either extends the program or refuses with a cause; the first refusal refuses the whole
list.  Ranges are given as byte offsets or by searching the text of the parent node.

* `Program.ofSteps`: the program a list of steps describes, its children in source order.

A step checks the entity it modifies.  Handles that it only stores are taken as they are.
-/

namespace SymbolGraph

/-- Why a construction step was refused. -/
inductive BuildFault where
  | unknownHandle
  | invertedRange
  | offBoundary
  | textNotFound (text : String) (nth : Nat) (contents : String)

/-- The message of a refusal; only a failed search has one. -/
def BuildFault.message? : BuildFault → Option String
  | textNotFound text nth contents =>
      some ("`" ++ text ++ "` (#" ++ Text.decimal nth ++ ") not found in `" ++ contents ++ "`")
  | _ => none

namespace Program

/-- The program without anything in it. -/
def empty : Program :=
  { files := .empty, fileInfos := #[], nodes := #[], symbols := #[], types := #[] }

/-- A change to an unfinished program that may be refused. -/
abbrev Build := EStateM BuildFault Program

/-- One construction step. -/
inductive Step where
  | file (path : Path) (text : String)
  | origin (node : NodeId) (origin : FileOrigin)
  | module (root : NodeId)
  | node (parent : NodeId) (kind : NodeKind) (start stop : Nat)
  | nodeAt (parent : NodeId) (kind : NodeKind) (text : String) (nth : Nat)
  | declaration (parent : NodeId) (kind : NodeKind) (text name : String)
  | identifier (parent : NodeId) (name : String) (nth : Nat) (symbol : SymbolRef)
  | setName (declaration name : NodeId)
  | bind (node : NodeId) (symbol : SymbolRef)
  | typeAt (node : NodeId) (type : TypeRef)
  | quickInfo (node : NodeId) (info : Except String QuickInfo)
  | symbol (name : String) (flags : SymbolFlags)
  | declare (symbol : SymbolRef) (declaration : NodeId)
  | parent (child parent : SymbolRef)
  | exported (parent child : SymbolRef)
  | exportedOnly (parent child : SymbolRef)
  | member (container member : SymbolRef)
  | aliased (symbol target : SymbolRef)
  | standing (symbol : SymbolRef) (standing : Standing)
  | objectType (symbol : Option SymbolRef)
  | unionType (constituents : List TypeRef)
  | declaredType (symbol : SymbolRef) (type : TypeRef)
  | baseType (type base : TypeRef)
  | property (type : TypeRef) (property : SymbolRef)

namespace Build

/-! ### Changing one entity -/

/-- The node of a handle. -/
def nodeAt (node : NodeId) : Build SyntaxNode := do
  match (← get).node? node with
  | some known => return known
  | none       => throw .unknownHandle

/-- Change a node. -/
def updateNode (node : NodeId) (change : SyntaxNode → SyntaxNode) : Build Unit := do
  if node.index < (← get).nodes.size then
    modify fun p => { p with nodes := p.nodes.modify node.index change }
  else throw .unknownHandle

/-- Change a symbol. -/
def updateSymbol (symbol : SymbolRef) (change : SymbolInfo → SymbolInfo) : Build Unit := do
  if symbol.index < (← get).symbols.size then
    modify fun p => { p with symbols := p.symbols.modify symbol.index change }
  else throw .unknownHandle

/-- Change a type. -/
def updateType (type : TypeRef) (change : TypeInfo → TypeInfo) : Build Unit := do
  if type.index < (← get).types.size then
    modify fun p => { p with types := p.types.modify type.index change }
  else throw .unknownHandle

/-! ### Adding entities -/

/-- Append a node; it becomes the last child of its parent. -/
def pushNode (fresh : SyntaxNode) : Build NodeId := do
  let node : NodeId := ⟨(← get).nodes.size⟩
  if let some parent := fresh.parent then
    updateNode parent fun known => { known with children := known.children ++ [node] }
  modify fun p => { p with nodes := p.nodes.push fresh }
  return node

/-- Register a file with a fresh root node over its whole text. -/
def addFile (path : Path) (text : String) : Build NodeId := do
  let (files, file) := (← get).files.add path text
  modify fun p => { p with files }
  let root ← pushNode
    { kind := .sourceFile, file, range := .ofLength 0 (Text.byteLength text.toList), parent := none }
  modify fun p =>
    if file.index < p.fileInfos.size then
      { p with fileInfos := p.fileInfos.modify file.index fun _ => { root, symbol := none } }
    else { p with fileInfos := p.fileInfos.push { root, symbol := none } }
  return root

/-- Add a child node with a given range. -/
def addNode (parent : NodeId) (kind : NodeKind) (range : TextRange) : Build NodeId := do
  let above ← nodeAt parent
  pushNode { kind, file := above.file, range, parent := some parent }

/-- The range of the `nth` occurrence of `text` inside a node. -/
def find (parent : NodeId) (text : String) (nth : Nat) : Build TextRange := do
  let above ← nodeAt parent
  let some whole := (← get).fileText above.file | throw .unknownHandle
  let some contents := Text.slice above.range.start above.range.stop whole.toList
    | throw .offBoundary
  match (Text.occurrences text.toList contents)[nth]? with
  | some offset => return .ofLength (above.range.start + offset) (Text.byteLength text.toList)
  | none        => throw (.textNotFound text nth (String.ofList contents))

/-- Add a child node over the `nth` occurrence of `text`. -/
def addNodeAt (parent : NodeId) (kind : NodeKind) (text : String) (nth : Nat) : Build NodeId := do
  addNode parent kind (← find parent text nth)

/-- Append a symbol. -/
def addSymbol (name : String) (flags : SymbolFlags) : Build SymbolRef := do
  let symbol : SymbolRef := ⟨(← get).symbols.size⟩
  modify fun p => { p with symbols := p.symbols.push { name, flags } }
  return symbol

/-- Let a node denote a symbol. -/
def bind (node : NodeId) (symbol : SymbolRef) : Build Unit :=
  updateNode node fun known => { known with symbol := some symbol }

/-- Make a file a module: its symbol is named by the quoted path and declared by the root. -/
def makeModule (root : NodeId) : Build Unit := do
  let file := (← nodeAt root).file
  let path := ((← get).filePath file).getD ⟨""⟩
  let symbol ← addSymbol ("\"" ++ path.withoutExtension.text ++ "\"") .valueModule
  updateSymbol symbol fun known => { known with declarations := known.declarations ++ [root] }
  bind root symbol
  modify fun p =>
    { p with fileInfos := p.fileInfos.modify file.index fun i => { i with symbol := some symbol } }

/-- Record a declaration of a symbol; the node and its name denote the symbol from now on. -/
def declare (symbol : SymbolRef) (declaration : NodeId) : Build Unit := do
  updateSymbol symbol fun known =>
    { known with declarations := known.declarations ++ [declaration] }
  bind declaration symbol
  if let some name := (← nodeAt declaration).name then bind name symbol

/-- Set the parent of a symbol. -/
def setParent (child parent : SymbolRef) : Build Unit :=
  updateSymbol child fun known => { known with parent := some parent }

/-- Append to the exports of a symbol. -/
def addExport (parent child : SymbolRef) : Build Unit :=
  updateSymbol parent fun known => { known with exported := known.exported ++ [child] }

/-- Append a type. -/
def addType (type : TypeInfo) : Build Unit :=
  modify fun p => { p with types := p.types.push type }

end Build

/-- The change a step makes. -/
def Step.apply : Step → Build Unit
  | .file path text                => discard (Build.addFile path text)
  | .origin n source               => do
      let known ← Build.nodeAt n
      modify fun p => { p with files := p.files.setOrigin known.file source }
  | .module root                   => Build.makeModule root
  | .node above kind start stop    => do
      let some range := TextRange.ofBounds? start stop | throw .invertedRange
      discard (Build.addNode above kind range)
  | .nodeAt above kind text nth    => discard (Build.addNodeAt above kind text nth)
  | .declaration above kind text name => do
      let decl ← Build.addNodeAt above kind text 0
      let ident ← Build.addNodeAt decl .identifier name 0
      Build.updateNode decl fun known => { known with name := some ident }
  | .identifier above name nth s   => do
      let ident ← Build.addNodeAt above .identifier name nth
      Build.bind ident s
  | .setName decl name             =>
      Build.updateNode decl fun known => { known with name := some name }
  | .bind n s                      => Build.bind n s
  | .typeAt n t                    =>
      Build.updateNode n fun known => { known with type := some t }
  | .quickInfo n info              =>
      Build.updateNode n fun known => { known with quickInfo := some info }
  | .symbol name flags             => discard (Build.addSymbol name flags)
  | .declare s decl                => Build.declare s decl
  | .parent child above            => Build.setParent child above
  | .exported above child          => do
      Build.addExport above child
      Build.setParent child above
  | .exportedOnly above child      => Build.addExport above child
  | .member container m            => do
      Build.updateSymbol container fun known => { known with members := known.members ++ [m] }
      Build.setParent m container
  | .aliased s target              =>
      Build.updateSymbol s fun known => { known with aliased := some target }
  | .standing s how                => Build.updateSymbol s fun known => { known with standing := how }
  | .objectType s                  => Build.addType { symbol := s }
  | .unionType parts               => Build.addType { constituents := some parts }
  | .declaredType s t              =>
      Build.updateSymbol s fun known => { known with declaredType := some t }
  | .baseType t base               =>
      Build.updateType t fun known => { known with bases := known.bases ++ [base] }
  | .property t s                  =>
      Build.updateType t fun known => { known with properties := known.properties ++ [s] }

/-- Whether `a` comes before `b` or at the same place in source order: it starts earlier, or it
starts together with `b` and ends no earlier. -/
def sourceOrder (p : Program) (a b : NodeId) : Bool :=
  (p.range a).start < (p.range b).start
    || ((p.range a).start = (p.range b).start && (p.range b).stop ≤ (p.range a).stop)

/-- Insert a node before the first one that it may precede. -/
def insertInOrder (p : Program) (node : NodeId) : List NodeId → List NodeId
  | []            => [node]
  | other :: rest =>
      if p.sourceOrder node other then node :: other :: rest
      else other :: p.insertInOrder node rest

/-- The nodes in source order; those at the same place keep their order. -/
def sortInOrder (p : Program) (nodes : List NodeId) : List NodeId :=
  nodes.foldr p.insertInOrder []

/-- The program with the children of every node in source order, ties in order of creation. -/
def inSourceOrder (p : Program) : Program :=
  { p with nodes := p.nodes.map fun node =>
      { node with children := p.sortInOrder node.children } }

/-- The program a list of steps describes. -/
def ofSteps (steps : List Step) : Except BuildFault Program :=
  match (steps.forM Step.apply).run empty with
  | .ok _ p        => .ok p.inSourceOrder
  | .error fault _ => .error fault

end Program

end SymbolGraph
