import SymbolGraph.Proofs.Agenda
import SymbolGraph.Run

/-!
# Proofs — Session — the plan of a run

The walk and the making of records, as agendas of the operations on the session: between any two of
them the session can be looked at, also in the middle of the making of a record that needs others.
What a plan does is what the session does, operation by operation.

* `Session.Milestone`: the walk has come to an identifier or left a node or a file, or the project
  has ended.
* `Session.Plan.resolve`, `Session.Plan.visitFile`, `Session.Plan.walkAll`: the plans.
* `Session.Plan.run_walkAll`: the plan of a run is the run.
* `Run.stops`: the sessions that a run passes through, with the milestones behind them.
* `Run.index_mem_stops`: the run ends at one of them.
* `Run.visits`: the identifiers that a run visits, each with the session in which the visit begins.
-/

namespace SymbolGraph.Session

/-- What a run may have behind it. -/
inductive Milestone where
  /-- The walk has come to an identifier. -/
  | identifier (node : NodeId)
  /-- The walk has left a node. -/
  | node (node : NodeId)
  /-- The walk has left a file. -/
  | file (file : FileId)
  /-- The project has ended. -/
  | project
  deriving DecidableEq

/-- The identifier that the walk has come to. -/
def Milestone.identifier? : Milestone → Option NodeId
  | .identifier name => some name
  | _                => none

/-- The node that the walk has left. -/
def Milestone.node? : Milestone → Option NodeId
  | .node left => some left
  | _          => none

/-- Operations on a session, one after the other. -/
abbrev Plan (α : Type) := Agenda Milestone Fault Session α

namespace Plan

open SymbolGraph.Agenda

/-- A single operation that is no milestone. -/
abbrev take {α : Type} (act : Running α) : Plan α := single none act

/-- Finds the record of a symbol that was met at a node. -/
abbrev Finder := SymbolRef → Option NodeId → Plan RecordId

/-! ### Making a record -/

/-- The records of overridden methods. -/
def resolveBases (find : Finder) : List SymbolRef → Plan (List RecordId)
  | []            => return []
  | base :: bases => do
      match ← (find base none).attempt with
      | .ok id                        => return id :: (← resolveBases find bases)
      | .error (.cyclicResolution _) => resolveBases find bases
      | .error fault                  => fail fault

/-- The records of the properties of a name in types, each once. -/
def resolveProperties (w : Setting) (find : Finder) (name : String) (location : NodeId) :
    (known : List RecordId) → List TypeRef → Plan (List RecordId)
  | known, []            => return known
  | known, type :: types => do
      match w.program.propertyOf type name with
      | none          => resolveProperties w find name location known types
      | some property =>
          let id ← find property (some location)
          resolveProperties w find name location (if id ∈ known then known else known ++ [id]) types

/-- The kind of the record of a method. -/
def methodKind (w : Setting) (find : Finder) (symbol : SymbolRef) (site : Option NodeId)
    (bases : List SymbolRef) : Plan RecordKind := do
  match site with
  | none      => return .standard
  | some node =>
      let bases ← resolveBases find (bases.filter fun base => base ≠ symbol)
      return .method bases (w.program.fileOf node)

/-- The kind of the record of a symbol. -/
def recordKind (w : Setting) (find : Finder) (resolution : Resolution) (symbol : SymbolRef)
    (location : Option NodeId) (declarations : List NodeId) : Plan RecordKind := do
  let p := w.program
  match resolution with
  | .standard | .typeAlias => return .standard
  | .transient             => return .transient
  | .ofAlias               =>
      match p.aliasedSymbol symbol with
      | none        => return .standard
      | some target =>
          let id ← find target none
          return .aliased id (p.symbolName symbol ≠ p.symbolName target)
  | .method =>
      let bases ← match p.parentSymbol symbol with
        | none        => pure []
        | some parent => do
            pure ((← take (Symbols.findBaseMembers p parent (p.symbolName symbol))).getD [])
      methodKind w find symbol (declarations.head?.or location) bases
  | .composite =>
      match location with
      | none      => return .transient
      | some node =>
          let elements ← resolveProperties w find (p.symbolName symbol) node []
            ((p.receiverConstituents node).getD [])
          return .composite elements (p.fileOf node)

/-- Emit the definition range of a declaration, unless the record has one there. -/
def emitDefinition (w : Setting) (resolution : Resolution) (id : RecordId) (symbol : SymbolRef)
    (declaration : NodeId) : Plan Unit := do
  let p := w.program
  match resolution.identifierOf p symbol declaration with
  | none              => return ()
  | some (name, text) =>
      let file := p.fileOf declaration
      let info : DefinitionInfo := { file, range := p.range name }
      unless ← take (Store.hasInfo id info) do
        let fullRange ← take (lineRange w file (p.fullRange declaration))
        let span ← take (lineRange w file info.range)
        let tag := RangeTag.definition text (p.kind declaration).definitionKind fullRange
        let range ← take (emit (Graph.vertex (.range span (some tag))))
        take (Store.addRange w file range.id)
        take (modify fun s => { s with definitions := s.definitions.insert name range })
        take (Store.addInfo id info)
        take (Store.addDefinition w id file range.id true)

/-- Emit the definition ranges of all declarations, if the record accepts definitions. -/
def emitDefinitions (w : Setting) (resolution : Resolution) (id : RecordId) (symbol : SymbolRef)
    (declarations : List NodeId) : Plan Unit := do
  if (← take (Store.record id)).kind.acceptsDefinitions then
    declarations.forM (emitDefinition w resolution id symbol)

/-- Emit the hover text, if there is any. -/
def emitHover (w : Setting) (id : RecordId) (declarations : List NodeId) : Plan Unit := do
  match hoverText w.program declarations with
  | none          => return ()
  | some contents =>
      let hover ← take (emit (Graph.vertex (.hoverResult contents)))
      take (Store.addHover id hover.id)

/-- Emit the moniker of an exported symbol and the moniker attached to it. -/
def emitMonikers (w : Setting) (id : RecordId) (files : List FileId) (kind : LocationKind)
    (exportPath : String) : Plan Unit := do
  let p := w.program
  let modulePath := ((files.head?.bind p.filePath).map w.projectRoot.modulePath).getD ""
  let identifier := symbolIdentifier kind modulePath exportPath
  let monikerKind := if files.all p.isExternalLibrary then MonikerKind.imported else .exported
  let moniker ← take (emit (Graph.moniker "tsc" identifier monikerKind))
  if let some linker := w.linker then
    if let some linked := linker.link identifier then
      let attached ← take (emit (Graph.moniker linker.scheme linked monikerKind))
      take (discard (emit (Graph.link .attach attached.id moniker.id)))
  take (Store.addMoniker id moniker.id)

/-- Emit the monikers of a record that has an export path, if they are asked for. -/
def emitExported (w : Setting) (resolution : Resolution) (id : RecordId)
    (declarations : List NodeId) (exportPath : Option String) : Plan Unit := do
  let files := w.program.filesOf declarations
  if w.monikers && !resolution.requiresLocation then
    if let (some kind, some path) := (w.program.locationKind files, exportPath) then
      emitMonikers w id files kind path

/-- Emit the hover text and the monikers of a record, where they are asked for. -/
def emitExtras (w : Setting) (resolution : Resolution) (id : RecordId) (declarations : List NodeId)
    (exportPath : Option String) : Plan Unit := do
  if w.hover then emitHover w id declarations
  emitExported w resolution id declarations exportPath

/-- Emit what is known of a record. -/
def describe (w : Setting) (resolution : Resolution) (id : RecordId) (symbol : SymbolRef)
    (declarations : List NodeId) (exportPath : Option String) : Plan Unit := do
  emitDefinitions w resolution id symbol declarations
  emitExtras w resolution id declarations exportPath

/-- Tell the node that a new record is local to, and emit what is known of the record. -/
def announce (w : Setting) (resolution : Resolution) (id : RecordId) (symbol : SymbolRef)
    (declarations : List NodeId) (scope : Option NodeId) (exportPath : Option String) :
    Plan Unit := do
  if let some node := scope then take (Store.watch node id)
  describe w resolution id symbol declarations exportPath

/-- Make the record of a symbol. -/
def create (w : Setting) (find : Finder) (symbol : SymbolRef) (location : Option NodeId) :
    Plan RecordId := do
  let p := w.program
  let resolution := p.resolution symbol location
  let declarations ← halt (resolution.declarations p symbol location)
  let exportPath ← take (Symbols.exportPath p symbol (p.locationKind (p.filesOf declarations)))
  let kind ← recordKind w find resolution symbol location declarations
  let scope := if !kind.acceptsDefinitions || exportPath.isSome then none
    else scopeOf p symbol declarations
  let id ← take (Store.insert w { key := p.key symbol, kind, scope })
  announce w resolution id symbol declarations scope exportPath
  return id

/-- The record of a symbol, descending at most `fuel` times into symbols that it needs. -/
def resolveWithin (w : Setting) : (fuel : Nat) → Finder
  | 0,        _,      _        => fail .endlessChain
  | fuel + 1, symbol, location => do
      let key := w.program.key symbol
      match ← take (Store.lookup key) with
      | some id => return id
      | none    => do
          take (Store.reserve key)
          (create w (resolveWithin w fuel) symbol location).onFailure (take (Store.abandon key))

/-- The record of a symbol, made on first sight. -/
def resolve (w : Setting) : Finder := resolveWithin w (w.program.symbols.size + 3)

/-! ### Walking a file -/

/-- Walk on under overrides, and release them at the end. -/
def underOverrides (overrides : List Override) (walk : Plan Unit) : Plan Unit :=
  walk.andThen (overrides.reverse.forM fun override => take (Symbols.release override))

/-- Walk on inside a document symbol of a file, and close it at the end. -/
def insideContainer (w : Setting) (file : FileId) (walk : Plan Unit) : Plan Unit :=
  walk.andThen (take (Store.endContainer w file))

/-- Make the record of a module and walk on, under the assertion of what it exports. -/
def insideModule (w : Setting) (root : NodeId) (module : SymbolRef) (walk : Plan Unit) :
    Plan Unit := do
  let overrides ← take (assertExports w module (w.program.exportTargets root))
  underOverrides overrides do
    discard (resolve w module (some root))
    walk

/-- Enter the root of a file and walk on. -/
def insideSourceFile (w : Setting) (root : NodeId) (walk : Plan Unit) : Plan Unit := do
  let file := w.program.fileOf root
  take (discard (Store.document w file : Running Document))
  match w.program.fileSymbol file with
  | none        => walk
  | some module => insideModule w root module walk

/-- Record an identifier as a reference to its symbol. -/
def visitIdentifier (w : Setting) (node : NodeId) : Plan Unit := do
  let p := w.program
  match p.symbolAt node with
  | none        => return ()
  | some symbol =>
      let id ← resolve w symbol (some node)
      let file := p.fileOf node
      let info : DefinitionInfo := { file, range := p.range node }
      unless ← take (Store.hasInfo id info) do
        let span ← take (lineRange w file info.range)
        let range ← take (emit (Graph.vertex (.range span (some (.reference (p.textOf node))))))
        take (Store.addRange w file range.id)
        let hub ← take (Store.resultSet id)
        take (discard (emit (Graph.link .next range.id hub.id)))
        take (Store.addReference w id file (.range range.id) .references)

/-- Walk on, inside a document symbol of a file if the name has a definition range. -/
def insideNamed (w : Setting) (file : FileId) (name : NodeId) (walk : Plan Unit) : Plan Unit := do
  match ← take (definitionRange name) with
  | none       => walk
  | some range =>
      take (Store.beginContainer w file range.id)
      insideContainer w file walk

/-- Open a document symbol for a declaration whose name has a definition range, and walk on. -/
def insideDocumentSymbol (w : Setting) (declaration : NodeId) (walk : Plan Unit) : Plan Unit := do
  match w.program.nameOf declaration with
  | none      => walk
  | some name =>
      if let some symbol := w.program.symbolAt name then
        discard (resolve w symbol (some name))
      insideNamed w (w.program.fileOf declaration) name walk

/-- Enter a node and walk on below it. -/
def inside (w : Setting) (node : NodeId) (walk : Plan Unit) : Plan Unit := do
  match w.program.kind node with
  | .sourceFile           => insideSourceFile w node walk
  | .identifier           => do
      single (some (.identifier node)) (pure ())
      visitIdentifier w node
      walk
  | .typeAliasDeclaration => do
      underOverrides (← take (assertForwards w node)) (insideDocumentSymbol w node walk)
  | kind                  =>
      if kind.isDocumentSymbol then insideDocumentSymbol w node walk else walk

/-- Tell the store that the walk has left a node; a file ends with its root. -/
def leave (w : Setting) (node : NodeId) : Plan Unit := do
  single (some (.node node)) (Store.nodeProcessed w node : Running Unit)
  if w.program.kind node = .sourceFile then
    let file := w.program.fileOf node
    single (some (.file file)) (Store.endDocument w file : Running Unit)
    take (fileProcessed w file)

/-- Walk a node and what is below it, at most `fuel` levels down. -/
def visitWithin (w : Setting) : (fuel : Nat) → NodeId → Plan Unit
  | 0,        _    => fail .endlessChain
  | fuel + 1, node => do
      inside w node ((w.program.children node).forM (visitWithin w fuel))
      leave w node

/-- Walk a file. -/
def visitFile (w : Setting) (file : FileId) : Plan Unit :=
  visitWithin w (w.program.nodes.size + 1) (w.program.root file)

/-- Walk all files, close everything and flush. -/
def walkAll (w : Setting) : Plan Summary := do
  (Run.walkedFiles w.program).forM (visitFile w)
  single (some .project) (Store.projectProcessed w : Running Unit)
  take (emit Graph.flush)
  let store := (← take get).store
  return { documents := store.documents.size, symbols := store.records.size
           elements := store.graph.emitted }

/-! ### A plan does what the session does -/

variable {w : Setting} {find : Finder} {resolver : Resolver}

/-- The records of bases are looked for one by one, and a circle is skipped on both sides. -/
theorem run_resolveBases (h : ∀ symbol location, (find symbol location).run = resolver symbol location)
    (bases : List SymbolRef) :
    (resolveBases find bases).run = Session.resolveBases resolver bases := by
  induction bases with
  | nil => rfl
  | cons base bases ih =>
      unfold resolveBases Session.resolveBases
      rw [run_bind, run_attempt, h]
      refine bind_congr fun result => ?_
      cases result with
      | ok id =>
          rw [run_bind, ih]
          rfl
      | error fault =>
          cases fault with
          | cyclicResolution => exact ih
          | _ => rfl

/-- The properties are looked for one by one. -/
theorem run_resolveProperties
    (h : ∀ symbol location, (find symbol location).run = resolver symbol location) (name : String)
    (location : NodeId) (types : List TypeRef) : ∀ known,
      (resolveProperties w find name location known types).run
        = Session.resolveProperties w resolver name location known types := by
  induction types with
  | nil => exact fun _ => rfl
  | cons type types ih =>
      intro known
      unfold resolveProperties Session.resolveProperties
      cases w.program.propertyOf type name with
      | none => exact ih known
      | some property =>
          rw [run_bind, h]
          exact bind_congr fun id => ih _

/-- A method without a site asks for no record; any other asks for those of its bases. -/
theorem run_methodKind (h : ∀ symbol location, (find symbol location).run = resolver symbol location)
    (symbol : SymbolRef) (site : Option NodeId) (bases : List SymbolRef) :
    (methodKind w find symbol site bases).run = Session.methodKind w resolver symbol site bases := by
  cases site with
  | none => rfl
  | some node =>
      unfold methodKind Session.methodKind
      rw [run_bind, run_resolveBases h]
      rfl

/-- By cases of the resolution: the plan of the kind looks for the same records. -/
theorem run_recordKind (h : ∀ symbol location, (find symbol location).run = resolver symbol location)
    (resolution : Resolution) (symbol : SymbolRef) (location : Option NodeId)
    (declarations : List NodeId) :
    (recordKind w find resolution symbol location declarations).run
      = Session.recordKind w resolver resolution symbol location declarations := by
  unfold recordKind Session.recordKind
  cases resolution with
  | standard => rfl
  | typeAlias => rfl
  | transient => rfl
  | ofAlias =>
      dsimp only
      cases w.program.aliasedSymbol symbol with
      | none => rfl
      | some target =>
          rw [run_bind, h]
          rfl
  | method =>
      dsimp only
      cases w.program.parentSymbol symbol with
      | none =>
          rw [run_bind]
          exact bind_congr fun bases => run_methodKind h symbol _ bases
      | some parent =>
          simp only [run_bind, run_single]
          exact bind_congr fun found => bind_congr fun bases => run_methodKind h symbol _ bases
  | composite =>
      dsimp only
      cases location with
      | none => rfl
      | some node =>
          rw [run_bind, run_resolveProperties h]
          rfl

/-- A definition range is emitted in the same operations. -/
theorem run_emitDefinition (resolution : Resolution) (id : RecordId) (symbol : SymbolRef)
    (declaration : NodeId) : (emitDefinition w resolution id symbol declaration).run
      = Session.emitDefinition w resolution id symbol declaration := by
  unfold emitDefinition Session.emitDefinition
  dsimp only
  cases resolution.identifierOf w.program symbol declaration with
  | none => rfl
  | some found =>
      rw [run_bind, run_single]
      refine bind_congr fun known => ?_
      cases known with
      | true => rfl
      | false => simp only [run_bind, run_single, Bool.false_eq_true, if_false]

/-- The declarations are gone through in the same order. -/
theorem run_emitDefinitions (resolution : Resolution) (id : RecordId) (symbol : SymbolRef)
    (declarations : List NodeId) : (emitDefinitions w resolution id symbol declarations).run
      = Session.emitDefinitions w resolution id symbol declarations := by
  unfold emitDefinitions Session.emitDefinitions
  rw [run_bind, run_single]
  refine bind_congr fun record => ?_
  split
  · simp only [run_forM, run_emitDefinition]
  · rfl

/-- The hover text and its link are emitted one after the other. -/
theorem run_emitHover (id : RecordId) (declarations : List NodeId) :
    (emitHover w id declarations).run = Session.emitHover w id declarations := by
  unfold emitHover Session.emitHover
  cases hoverText w.program declarations with
  | none => rfl
  | some contents => simp only [run_bind, run_single]

/-- The moniker comes before what is attached to it. -/
theorem run_emitMonikers (id : RecordId) (files : List FileId) (kind : LocationKind)
    (exportPath : String) : (emitMonikers w id files kind exportPath).run
      = Session.emitMonikers w id files kind exportPath := by
  unfold emitMonikers Session.emitMonikers
  dsimp only
  rw [run_bind, run_single]
  refine bind_congr fun moniker => ?_
  cases w.linker with
  | none => simp only [run_single]
  | some linker =>
      dsimp only
      cases linker.link _ with
      | none => simp only [run_single]
      | some linked => simp only [run_bind, run_single]

/-- The plan asks for an export path where the session does. -/
theorem run_emitExported (resolution : Resolution) (id : RecordId) (declarations : List NodeId)
    (exportPath : Option String) : (emitExported w resolution id declarations exportPath).run
      = Session.emitExported w resolution id declarations exportPath := by
  unfold emitExported Session.emitExported
  dsimp only
  split
  · match w.program.locationKind (w.program.filesOf declarations), exportPath with
    | some kind, some path => exact run_emitMonikers id _ kind path
    | some _, none | none, _ => rfl
  · rfl

/-- The hover text comes before the monikers. -/
theorem run_emitExtras (resolution : Resolution) (id : RecordId) (declarations : List NodeId)
    (exportPath : Option String) : (emitExtras w resolution id declarations exportPath).run
      = Session.emitExtras w resolution id declarations exportPath := by
  unfold emitExtras Session.emitExtras
  dsimp only
  split
  · rw [run_bind, run_emitHover]
    exact bind_congr fun _ => run_emitExported _ _ _ _
  · exact run_emitExported _ _ _ _

/-- The definitions come before the extras. -/
theorem run_describe (resolution : Resolution) (id : RecordId) (symbol : SymbolRef)
    (declarations : List NodeId) (exportPath : Option String) :
    (describe w resolution id symbol declarations exportPath).run
      = Session.describe w resolution id symbol declarations exportPath := by
  simp only [describe, Session.describe, run_bind, run_emitDefinitions, run_emitExtras]

/-- Watching comes first, then what is known of the record. -/
theorem run_announce (resolution : Resolution) (id : RecordId) (symbol : SymbolRef)
    (declarations : List NodeId) (scope : Option NodeId) (exportPath : Option String) :
    (announce w resolution id symbol declarations scope exportPath).run
      = Session.announce w resolution id symbol declarations scope exportPath := by
  unfold announce Session.announce
  cases scope with
  | none => exact run_describe _ _ _ _ _
  | some node => simp only [run_bind, run_single, run_describe]

/-- The plan of making a record makes it, if its finder finds what the resolver does. -/
theorem run_create (h : ∀ symbol location, (find symbol location).run = resolver symbol location)
    (symbol : SymbolRef) (location : Option NodeId) :
    (create w find symbol location).run = Session.create w resolver symbol location := by
  unfold create Session.create establish
  simp only [run_bind, run_halt, run_single, run_recordKind h, run_announce, run_pure]

/-- By induction on the depth: what is not found is reserved and made, and given up if that
fails. -/
theorem run_resolveWithin (fuel : Nat) : ∀ symbol location,
    (resolveWithin w fuel symbol location).run = Session.resolveWithin w fuel symbol location := by
  induction fuel with
  | zero => exact fun _ _ => rfl
  | succ fuel ih =>
      intro symbol location
      unfold resolveWithin Session.resolveWithin seek
      rw [run_bind, run_single]
      refine bind_congr fun found => ?_
      cases found with
      | some id => rfl
      | none => simp only [run_bind, run_single, run_onFailure, run_create ih]

theorem run_resolve (symbol : SymbolRef) (location : Option NodeId) :
    (resolve w symbol location).run = Session.resolve w symbol location :=
  run_resolveWithin _ symbol location

/-- The plan releases the overrides in the end, also after a failure. -/
theorem run_underOverrides (overrides : List Override) (walk : Plan Unit) :
    (underOverrides overrides walk).run = Session.underOverrides overrides walk.run := by
  unfold underOverrides Session.underOverrides
  simp only [run_andThen, run_forM, run_single]

theorem run_insideContainer (file : FileId) (walk : Plan Unit) :
    (insideContainer w file walk).run = Session.insideContainer w file walk.run := by
  unfold insideContainer Session.insideContainer
  rw [run_andThen, run_single]

/-- The overrides of a module hold for the walk below it. -/
theorem run_insideModule (root : NodeId) (module : SymbolRef) (walk : Plan Unit) :
    (insideModule w root module walk).run = Session.insideModule w root module walk.run := by
  unfold insideModule Session.insideModule
  simp only [run_bind, run_single, run_underOverrides, run_discard, run_resolve]

/-- The module of a file is entered, if it is one. -/
theorem run_insideSourceFile (root : NodeId) (walk : Plan Unit) :
    (insideSourceFile w root walk).run = Session.insideSourceFile w root walk.run := by
  unfold insideSourceFile Session.insideSourceFile
  dsimp only
  rw [run_bind, run_single]
  refine bind_congr fun _ => ?_
  cases w.program.fileSymbol (w.program.fileOf root) with
  | none => rfl
  | some module => exact run_insideModule root module walk

/-- An identifier is recorded in the same operations. -/
theorem run_visitIdentifier (node : NodeId) :
    (visitIdentifier w node).run = Session.visitIdentifier w node := by
  unfold visitIdentifier Session.visitIdentifier
  dsimp only
  cases w.program.symbolAt node with
  | none => rfl
  | some symbol =>
      simp only [run_bind, run_single, run_resolve]
      refine bind_congr fun id => bind_congr fun known => ?_
      cases known with
      | true => rfl
      | false => simp only [run_bind, run_single, Bool.false_eq_true, if_false]

/-- A container is opened where there is a definition range. -/
theorem run_insideNamed (file : FileId) (name : NodeId) (walk : Plan Unit) :
    (insideNamed w file name walk).run = Session.insideNamed w file name walk.run := by
  unfold insideNamed Session.insideNamed
  rw [run_bind, run_single]
  refine bind_congr fun found => ?_
  cases found with
  | none => rfl
  | some range => simp only [run_bind, run_single, run_insideContainer]

/-- The record of a declaration is looked for before its document symbol is opened. -/
theorem run_insideDocumentSymbol (declaration : NodeId) (walk : Plan Unit) :
    (insideDocumentSymbol w declaration walk).run
      = Session.insideDocumentSymbol w declaration walk.run := by
  unfold insideDocumentSymbol Session.insideDocumentSymbol
  cases w.program.nameOf declaration with
  | none => rfl
  | some name =>
      dsimp only
      cases w.program.symbolAt name with
      | none => exact run_insideNamed _ name walk
      | some symbol => simp only [run_bind, run_discard, run_resolve, run_insideNamed]

/-- By cases of the node; the milestone of an identifier is an operation that does nothing. -/
theorem run_inside (node : NodeId) (walk : Plan Unit) :
    (inside w node walk).run = Session.inside w node walk.run := by
  unfold inside Session.inside
  cases w.program.kind node with
  | sourceFile => exact run_insideSourceFile node walk
  | identifier => simp only [run_bind, run_single, pure_bind, run_visitIdentifier]
  | typeAliasDeclaration =>
      simp only [run_bind, run_single, run_underOverrides, run_insideDocumentSymbol]
  | _ =>
      dsimp only
      split
      · exact run_insideDocumentSymbol node walk
      · rfl

/-- The milestones of a node and of its file are passed where the session leaves them. -/
theorem run_leave (node : NodeId) : (leave w node).run = Session.leave w node := by
  unfold leave Session.leave
  rw [run_bind, run_single]
  refine bind_congr fun _ => ?_
  split
  · simp only [run_bind, run_single]
  · rfl

/-- By induction on the depth: the plan walks the children as the session does. -/
theorem run_visitWithin (fuel : Nat) : ∀ node,
    (visitWithin w fuel node).run = Session.visitWithin w fuel node := by
  induction fuel with
  | zero => exact fun _ => rfl
  | succ fuel ih =>
      intro node
      unfold visitWithin Session.visitWithin
      simp only [run_bind, run_inside, run_forM, ih, run_leave]

/-- **The plan of a run is the run.** -/
theorem run_walkAll : (walkAll w).run = Run.walkAll w := by
  unfold walkAll Run.walkAll Run.finishAll
  have hfile : (fun file => (visitFile w file).run) = Session.visitFile w :=
    funext fun file => run_visitWithin _ _
  simp only [run_bind, run_single, run_forM, run_pure, hfile]

end Plan

end SymbolGraph.Session

namespace SymbolGraph.Run

/-- The sessions that a run passes through, each with the milestones behind it.  They are read off the
plan; that it does what the run does is `Session.Plan.run_walkAll`, and that the last of them is where
the run ends is `Run.index_mem_stops`. -/
def stops (w : Setting) (sink : Sink) : List (List Session.Milestone × Session) :=
  match start w (Graph.ofSink sink) with
  | .ok session _ => (Session.Plan.walkAll w).stops [] session
  | .error _ _    => []

/-- The identifiers that a run visits, each with the session in which the visit begins. -/
def visits (w : Setting) (sink : Sink) : List (NodeId × Session) :=
  match start w (Graph.ofSink sink) with
  | .ok session _ => ((Session.Plan.walkAll w).begins session).filterMap fun (milestone, s) =>
      milestone.identifier?.map fun node => (node, s)
  | .error _ _    => []

/-- A run stops where its walk ends, well or not. -/
theorem ended_mem_stops {w : Setting} {sink : Sink} {first : Session} {graph : Graph}
    (hstart : start w (Graph.ofSink sink) = .ok first graph) :
    ∃ stop ∈ stops w sink, stop.2 = (Action.ended (walkAll w) first).2 := by
  obtain ⟨stop, hstop, hend⟩ := (Session.Plan.walkAll w).ended_mem_stops [] first
  rw [Session.Plan.run_walkAll] at hend
  unfold stops
  rw [hstart]
  exact ⟨stop, hstop, hend⟩

/-- **A run stops where it ends.** -/
theorem index_mem_stops {w : Setting} {sink : Sink} {first : Session} {graph : Graph}
    (hstart : start w (Graph.ofSink sink) = .ok first graph) :
    ∃ stop ∈ stops w sink, (index w sink).2 = stop.2.graph := by
  obtain ⟨stop, hstop, hend⟩ := ended_mem_stops hstart
  refine ⟨stop, hstop, ?_⟩
  rw [hend]
  unfold index Action.ended
  rw [hstart]
  dsimp only
  cases walkAll w first with
  | ok summary t => rfl
  | error fault t => rfl

end SymbolGraph.Run
