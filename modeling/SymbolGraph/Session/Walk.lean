import SymbolGraph.Session.Resolve

/-!
# Session — walking a file

The walk goes through the tree of a file depth first.  Entering a node may assert overrides or open
a document symbol; both are undone when the walk leaves the node, innermost first and also when
something below failed.  Only then is the store told that the node has been left.

* `Session.visitIdentifier`: every identifier that denotes a symbol is a reference to it, unless it
  is the name in one of its definitions.
* `Session.visitFile`: walks a file.
-/

namespace SymbolGraph

namespace Program

/-- The nodes of a kind below a node, at most `fuel` levels down, not looking below those found. -/
def nodesOfKindWithin (p : Program) (kind : NodeKind) : (fuel : Nat) → NodeId → List NodeId
  | 0,        _    => []
  | fuel + 1, node =>
      (p.children node).flatMap fun child =>
        if p.kind child = kind then [child] else p.nodesOfKindWithin kind fuel child

/-- The symbols that a statement exports: by assignment, or by specifiers that keep the name. -/
def exportedBy (p : Program) (statement : NodeId) : List SymbolRef :=
  match p.kind statement with
  | .exportAssignment =>
      let named := (p.children statement).find? fun child => p.kind child = .identifier
      ((named.bind p.symbolAt).map p.behindAlias).toList
  | .exportDeclaration =>
      ((p.nodesOfKindWithin .exportSpecifier (p.nodes.size + 1) statement).filterMap p.symbolAt).filterMap
        fun symbol =>
          let target := p.behindAlias symbol
          if p.symbolName target = p.symbolName symbol then some target else none
  | _ => []

/-- The list without immediate repetitions. -/
def dropRepeats : List SymbolRef → List SymbolRef
  | a :: b :: rest => if a = b then dropRepeats (b :: rest) else a :: dropRepeats (b :: rest)
  | short          => short

/-- The symbols of a file that its export statements export. -/
def exportTargets (p : Program) (root : NodeId) : List SymbolRef :=
  dropRepeats (((p.children root).flatMap p.exportedBy).filter fun target =>
    (p.declarations target).any fun declaration => p.fileOf declaration = p.fileOf root)

end Program

namespace Session

/-! ### Undoing -/

/-- Walk on under overrides, and release them at the end, the last asserted first. -/
def underOverrides (overrides : List Override) (walk : Running Unit) : Running Unit :=
  Action.andThen walk
    (overrides.reverse.forM fun override => (Symbols.release override : Running Unit))

/-- Walk on inside a document symbol of a file, and close it at the end. -/
def insideContainer (w : Setting) (file : FileId) (walk : Running Unit) : Running Unit :=
  Action.andThen walk (Store.endContainer w file)

/-! ### Entering -/

/-- Assert that a module exports symbols. -/
def assertExports (w : Setting) (module : SymbolRef) : List SymbolRef → Running (List Override)
  | []                => return []
  | target :: targets => do
      let parent ← Symbols.addParent w.program target module
      let exported ← Symbols.addExport w.program module target
      return parent :: exported :: (← assertExports w module targets)

/-- Make the record of a module and walk on, under the assertion of what it exports. -/
def insideModule (w : Setting) (root : NodeId) (module : SymbolRef) (walk : Running Unit) :
    Running Unit := do
  let overrides ← assertExports w module (w.program.exportTargets root)
  underOverrides overrides do
    discard (resolve w module (some root))
    walk

/-- Enter the root of a file and walk on: its document is made and, if it is a module, the module is
entered. -/
def insideSourceFile (w : Setting) (root : NodeId) (walk : Running Unit) : Running Unit := do
  let file := w.program.fileOf root
  discard (Store.document w file)
  match w.program.fileSymbol file with
  | none        => walk
  | some module => insideModule w root module walk

/-- Record an identifier as a reference to its symbol. -/
def visitIdentifier (w : Setting) (node : NodeId) : Running Unit := do
  let p := w.program
  match p.symbolAt node with
  | none        => return ()
  | some symbol =>
      let id ← resolve w symbol (some node)
      let file := p.fileOf node
      let info : DefinitionInfo := { file, range := p.range node }
      unless ← Store.hasInfo id info do
        let span ← lineRange w file info.range
        let range ← emit (Graph.vertex (.range span (some (.reference (p.textOf node)))))
        Store.addRange w file range.id
        let hub ← Store.resultSet id
        discard (emit (Graph.link .next range.id hub.id))
        Store.addReference w id file (.range range.id) .references

/-- Walk on, inside a document symbol of a file if the name has a definition range. -/
def insideNamed (w : Setting) (file : FileId) (name : NodeId) (walk : Running Unit) :
    Running Unit := do
  match ← definitionRange name with
  | none       => walk
  | some range =>
      Store.beginContainer w file range.id
      insideContainer w file walk

/-- Open a document symbol for a declaration whose name has a definition range, and walk on. -/
def insideDocumentSymbol (w : Setting) (declaration : NodeId) (walk : Running Unit) :
    Running Unit := do
  match w.program.nameOf declaration with
  | none      => walk
  | some name =>
      if let some symbol := w.program.symbolAt name then
        discard (resolve w symbol (some name))
      insideNamed w (w.program.fileOf declaration) name walk

/-- The overrides that a type alias asserts for its type literals. -/
def assertForwards (w : Setting) (declaration : NodeId) : Running (List Override) := do
  let p := w.program
  match (p.nameOf declaration).bind p.symbolAt with
  | none        => return []
  | some symbol => Symbols.forward (p.resolution symbol none) p declaration

/-- Enter a node and walk on below it. -/
def inside (w : Setting) (node : NodeId) (walk : Running Unit) : Running Unit := do
  match w.program.kind node with
  | .sourceFile           => insideSourceFile w node walk
  | .identifier           => do
      visitIdentifier w node
      walk
  | .typeAliasDeclaration => do
      underOverrides (← assertForwards w node) (insideDocumentSymbol w node walk)
  | kind                  =>
      if kind.isDocumentSymbol then insideDocumentSymbol w node walk else walk

/-! ### Leaving -/

/-- Tell the store that the walk has left a node; a file ends with its root. -/
def leave (w : Setting) (node : NodeId) : Running Unit := do
  Store.nodeProcessed w node
  if w.program.kind node = .sourceFile then
    let file := w.program.fileOf node
    Store.endDocument w file
    fileProcessed w file

/-- Walk a node and what is below it, at most `fuel` levels down. -/
def visitWithin (w : Setting) : (fuel : Nat) → NodeId → Running Unit
  | 0,        _    => throw .endlessChain
  | fuel + 1, node => do
      inside w node ((w.program.children node).forM (visitWithin w fuel))
      leave w node

/-- Walk a file.  A tree is no deeper than there are nodes. -/
def visitFile (w : Setting) (file : FileId) : Running Unit :=
  visitWithin w (w.program.nodes.size + 1) (w.program.root file)

end Session

end SymbolGraph
