import SymbolGraph.Proofs.Run.Walked
import SymbolGraph.Proofs.Store.Interrupted
import SymbolGraph.Run

/-!
# Proofs — Run — interrupted runs

The first element that the sink refuses ends a run.  The fault crosses the making of records, which
only forgives a symbol that needs itself, and the walk, which gives up reservations, releases
overrides and closes containers on the way out; none of this hands over an element, because a
container is closed in a document that is there since it was opened.

* `Session.resolve_failStop`, `Session.walkAll_failStop`: making records and walking.
* `Run.fail_stop`: a run over a sink that refuses an element, and the run over one that does not.
-/

namespace SymbolGraph

open SymbolGraph.Action HasSink

variable {α : Type} {w : Setting}

instance : HasSink Session where
  sink s := s.store.graph.sink
  onSink change s := { s with store := onSink change s.store }
  sink_onSink _ _ := rfl
  Documented s file := s.store.documents.get? file ≠ none
  documented_onSink _ _ _ h := h

namespace Session

/-! ### Operations -/

/-- A session hands over through its store. -/
theorem store_failStop {act : Store.Storing α} (h : FailStop act) :
    FailStop (liftM act : Running α) :=
  h.onPart (fun _ => rfl) (fun _ _ => rfl) (fun _ _ => rfl) (fun _ _ _ => rfl)
    fun _ _ hswells => hswells.documented

/-- What is known of symbols has nothing to do with the sink. -/
theorem symbols_failStop (act : StateM Symbols α) : FailStop (liftM act : Running α) :=
  failStop_onPartSafely (fun _ _ => rfl) (fun _ _ _ => rfl) (fun _ _ => rfl) fun _ _ _ h => h

theorem emit_failStop {act : Emission α} (h : FailStop act) : FailStop (emit act) :=
  store_failStop (Store.emission_failStop h)

theorem vertex_failStop (v : Vertex) : FailStop (emit (Graph.vertex v)) :=
  emit_failStop (Graph.vertex_failStop v)

theorem link_failStop (kind : LinkKind) (source target : ElementId) :
    FailStop (discard (emit (Graph.link kind source target))) :=
  (emit_failStop (Graph.link_failStop kind source target)).discard

/-- Reading off a range may hand over a document. -/
theorem lineRange_failStop (file : FileId) (range : TextRange) :
    FailStop (lineRange w file range) := by
  refine FailStop.bind (failStop_get (fun s => ?_) fun _ _ => rfl) fun _ => failStop_pure
  cases s.lineIndexes.get? file with
  | some index => exact failStop_pure
  | none =>
      refine FailStop.bind (failStop_modify ?_ ?_ ?_) fun _ => failStop_pure
      · exact fun _ _ => rfl
      · exact fun _ => rfl
      · exact fun _ _ h => h

/-! ### Making a record -/

variable {resolver : Resolver}

/-- By induction on the methods: a circle is skipped, and a refusal is none. -/
theorem resolveBases_failStop (h : ∀ symbol location, FailStop (resolver symbol location))
    (bases : List SymbolRef) : FailStop (resolveBases resolver bases) := by
  induction bases with
  | nil => exact failStop_pure
  | cons base bases ih =>
      refine (h base none).attemptBind (fun result => ?_) fun _ => rfl
      cases result with
      | ok id => exact ih.bind fun _ => failStop_pure
      | error fault =>
          cases fault with
          | cyclicResolution => exact ih
          | _ => exact failStop_throw

/-- By induction on the types: nothing is looked for after a refusal. -/
theorem resolveProperties_failStop (h : ∀ symbol location, FailStop (resolver symbol location))
    (name : String) (location : NodeId) (types : List TypeRef) : ∀ known,
      FailStop (resolveProperties w resolver name location known types) := by
  induction types with
  | nil => exact fun _ => failStop_pure
  | cons type types ih =>
      intro known
      unfold resolveProperties
      cases w.program.propertyOf type name with
      | none => exact ih known
      | some property => exact (h property _).bind fun _ => ih _

/-- The records of overridden methods are looked for, up to the first refusal. -/
theorem methodKind_failStop (h : ∀ symbol location, FailStop (resolver symbol location))
    (symbol : SymbolRef) (site : Option NodeId) (bases : List SymbolRef) :
    FailStop (methodKind w resolver symbol site bases) := by
  cases site with
  | none => exact failStop_pure
  | some node => exact (resolveBases_failStop h _).bind fun _ => failStop_pure

/-- By cases of the resolution: other records are looked for, up to the first refusal. -/
theorem recordKind_failStop (h : ∀ symbol location, FailStop (resolver symbol location))
    (resolution : Resolution) (symbol : SymbolRef) (location : Option NodeId)
    (declarations : List NodeId) :
    FailStop (recordKind w resolver resolution symbol location declarations) := by
  have hmethod := methodKind_failStop (w := w) h symbol (declarations.head?.or location)
  cases resolution with
  | standard => exact failStop_pure
  | typeAlias => exact failStop_pure
  | transient => exact failStop_pure
  | ofAlias =>
      unfold recordKind
      dsimp only
      cases w.program.aliasedSymbol symbol with
      | none => exact failStop_pure
      | some target => exact (h target none).bind fun _ => failStop_pure
  | method =>
      unfold recordKind
      dsimp only
      cases w.program.parentSymbol symbol with
      | none => exact failStop_pure.bind hmethod
      | some parent => exact (symbols_failStop _).bind fun _ => failStop_pure.bind hmethod
  | composite =>
      unfold recordKind
      dsimp only
      cases location with
      | none => exact failStop_pure
      | some node => exact (resolveProperties_failStop h _ _ _ _).bind fun _ => failStop_pure

/-- A definition range is handed over and collected, up to the first refusal. -/
theorem emitDefinition_failStop (resolution : Resolution) (id : RecordId) (symbol : SymbolRef)
    (declaration : NodeId) : FailStop (emitDefinition w resolution id symbol declaration) := by
  unfold emitDefinition
  dsimp only
  cases resolution.identifierOf w.program symbol declaration with
  | none => exact failStop_pure
  | some found =>
      refine (store_failStop (Store.hasInfo_failStop _ _)).bind fun known => ?_
      cases known with
      | true => exact failStop_pure
      | false =>
          refine (lineRange_failStop _ _).bind fun _ => (lineRange_failStop _ _).bind fun _ => ?_
          refine (vertex_failStop _).bind fun range => ?_
          refine (store_failStop (Store.addRange_failStop _ _)).bind fun _ => ?_
          refine FailStop.bind (failStop_modify ?_ ?_ ?_) fun _ => ?_
          · exact fun _ _ => rfl
          · exact fun _ => rfl
          · exact fun _ _ h => h
          · exact (store_failStop (Store.addInfo_failStop _ _)).bind fun _ =>
              store_failStop (Store.addDefinition_failStop _ _ _ _)

/-- The definition ranges of declarations are handed over one by one. -/
theorem emitDefinitions_failStop (resolution : Resolution) (id : RecordId) (symbol : SymbolRef)
    (declarations : List NodeId) :
    FailStop (emitDefinitions w resolution id symbol declarations) := by
  refine (store_failStop (Store.record_failStop id)).bind fun record => ?_
  split
  · exact .forM _ (emitDefinition_failStop resolution id symbol)
  · exact failStop_pure

/-- A hover text is handed over, and then the link to it. -/
theorem emitHover_failStop (id : RecordId) (declarations : List NodeId) :
    FailStop (emitHover w id declarations) := by
  unfold emitHover
  cases hoverText w.program declarations with
  | none => exact failStop_pure
  | some contents =>
      exact (vertex_failStop _).bind fun _ => store_failStop (Store.addHover_failStop _ _)

/-- A moniker is handed over, then what is attached to it, and then the link. -/
theorem emitMonikers_failStop (id : RecordId) (files : List FileId) (kind : LocationKind)
    (exportPath : String) : FailStop (emitMonikers w id files kind exportPath) := by
  have hadd (moniker : VertexRef) : FailStop (Store.addMoniker id moniker.id : Running Unit) :=
    store_failStop (Store.addMoniker_failStop _ _)
  refine (vertex_failStop _).bind fun moniker => ?_
  cases w.linker with
  | none => exact hadd moniker
  | some linker =>
      dsimp only
      cases linker.link _ with
      | none => exact hadd moniker
      | some linked =>
          refine (vertex_failStop _).bind fun attached => ?_
          exact (link_failStop _ _ _).bind fun _ => hadd moniker

/-- Without an export path nothing is handed over. -/
theorem emitExported_failStop (resolution : Resolution) (id : RecordId)
    (declarations : List NodeId) (exportPath : Option String) :
    FailStop (emitExported w resolution id declarations exportPath) := by
  unfold emitExported
  dsimp only
  split
  · split
    · exact emitMonikers_failStop id _ _ _
    · exact failStop_pure
  · exact failStop_pure

/-- Hover text and monikers are handed over, up to the first refusal. -/
theorem emitExtras_failStop (resolution : Resolution) (id : RecordId) (declarations : List NodeId)
    (exportPath : Option String) :
    FailStop (emitExtras w resolution id declarations exportPath) := by
  unfold emitExtras
  dsimp only
  split
  · exact (emitHover_failStop id declarations).bind fun _ => emitExported_failStop _ _ _ _
  · exact emitExported_failStop _ _ _ _

/-- What is known of a record is handed over, up to the first refusal. -/
theorem describe_failStop (resolution : Resolution) (id : RecordId) (symbol : SymbolRef)
    (declarations : List NodeId) (exportPath : Option String) :
    FailStop (describe w resolution id symbol declarations exportPath) :=
  (emitDefinitions_failStop _ _ _ _).bind fun _ => emitExtras_failStop _ _ _ _

theorem announce_failStop (resolution : Resolution) (id : RecordId) (symbol : SymbolRef)
    (declarations : List NodeId) (scope : Option NodeId) (exportPath : Option String) :
    FailStop (announce w resolution id symbol declarations scope exportPath) := by
  cases scope with
  | none => exact describe_failStop _ _ _ _ _
  | some node =>
      exact (store_failStop (Store.watch_failStop _ _)).bind fun _ => describe_failStop _ _ _ _ _

/-- A record is made up to the first refusal. -/
theorem create_failStop (h : ∀ symbol location, FailStop (resolver symbol location))
    (symbol : SymbolRef) (location : Option NodeId) :
    FailStop (create w resolver symbol location) := by
  unfold create
  dsimp only
  refine failStop_ofExcept.bind fun declarations => (symbols_failStop _).bind fun exportPath => ?_
  refine (recordKind_failStop h _ _ _ _).bind fun kind => ?_
  exact (store_failStop (Store.insert_failStop _)).bind fun id =>
    (announce_failStop _ _ _ _ _ _).bind fun _ => failStop_pure

/-- **The record of a symbol is looked for.** -/
theorem resolveWithin_failStop (fuel : Nat) : ∀ symbol location,
    FailStop (resolveWithin w fuel symbol location) := by
  induction fuel with
  | zero => exact fun _ _ => failStop_throw
  | succ fuel ih =>
      intro symbol location
      refine (store_failStop (Store.lookup_failStop _)).bind fun found => ?_
      cases found with
      | some id => exact failStop_pure
      | none =>
          obtain ⟨habandon, hquiet⟩ := Store.abandon_failStop (w.program.key symbol)
          refine (store_failStop (Store.mark_failStop _ _)).bind fun _ => ?_
          refine (create_failStop ih symbol location).onFailure (store_failStop habandon) fun s => ?_
          exact ensures_onPart.mpr ((hquiet s.store).mono (fun _ _ h => h) fun _ _ h => h)

/-- A key is given up without the sink, so a refusal stays the first. -/
theorem resolve_failStop (symbol : SymbolRef) (location : Option NodeId) :
    FailStop (resolve w symbol location) :=
  resolveWithin_failStop _ symbol location

/-! ### Walking -/

variable {walk : Running Unit} {node : NodeId}

/-- Overrides are released without the sink. -/
theorem underOverrides_failStop (overrides : List Override) (h : FailStop walk) :
    FailStop (underOverrides overrides walk) := by
  have hrelease : FailStop (overrides.reverse.forM fun override =>
      (Symbols.release override : Running Unit)) := .forM _ fun _ => symbols_failStop _
  have hquiet : Stays Quiet (overrides.reverse.forM fun override =>
      (Symbols.release override : Running Unit)) :=
    .forM fun _ _ => stays_onPartSafely fun _ _ => rfl
  exact ⟨fun s => (h.stops s).andThen h.swells hrelease fun t _ => hquiet t,
    h.swells.andThen hrelease.swells⟩

/-- A container is closed without the sink, in the document in which it was opened. -/
theorem container_failStop (file : FileId) (range : ElementId) (h : FailStop walk) : FailStop (do
    Store.beginContainer w file range
    insideContainer w file walk : Running Unit) := by
  have hends : FailStop (Store.endContainer w file : Running Unit) :=
    store_failStop (Store.endContainer_failStop file)
  refine (store_failStop (Store.beginContainer_failStop file range)).bindReady
    (fun _ t => Documented t file) (fun s => ?_) (fun _ t ht => ?_)
    fun _ => h.swells.andThen hends.swells
  · exact ensures_onPart.mpr ((Store.beginContainer_documented s.store).mono (fun _ _ h => h)
      fun _ _ h => h)
  · refine (h.stops t).andThen h.swells hends fun u htu => ensures_onPart.mpr ?_
    exact (Store.endContainer_quiet (htu file ht)).mono (fun _ _ h => h) fun _ _ h => h

/-- Exports are asserted without the sink. -/
theorem assertExports_failStop (module : SymbolRef) (targets : List SymbolRef) :
    FailStop (assertExports w module targets) := by
  induction targets with
  | nil => exact failStop_pure
  | cons target targets ih =>
      exact (symbols_failStop _).bind fun _ => (symbols_failStop _).bind fun _ =>
        ih.bind fun _ => failStop_pure

/-- Forwards are asserted without the sink. -/
theorem assertForwards_failStop : FailStop (assertForwards w node) := by
  unfold assertForwards
  dsimp only
  cases (w.program.nameOf node).bind w.program.symbolAt with
  | none => exact failStop_pure
  | some symbol => exact symbols_failStop _

/-- Overrides are released without the sink, also after a refusal. -/
theorem insideSourceFile_failStop (h : FailStop walk) : FailStop (insideSourceFile w node walk) := by
  refine (store_failStop (Store.document_failStop _)).discard.bind fun _ => ?_
  cases w.program.fileSymbol (w.program.fileOf node) with
  | none => exact h
  | some module =>
      refine (assertExports_failStop module _).bind fun overrides => underOverrides_failStop _ ?_
      exact (resolve_failStop module _).discard.bind fun _ => h

/-- A reference is handed over with its link, and then collected. -/
theorem visitIdentifier_failStop : FailStop (visitIdentifier w node) := by
  unfold visitIdentifier
  dsimp only
  cases w.program.symbolAt node with
  | none => exact failStop_pure
  | some symbol =>
      refine (resolve_failStop symbol _).bind fun id => ?_
      refine (store_failStop (Store.hasInfo_failStop _ _)).bind fun known => ?_
      cases known with
      | true => exact failStop_pure
      | false =>
          refine (lineRange_failStop _ _).bind fun _ => (vertex_failStop _).bind fun range => ?_
          refine (store_failStop (Store.addRange_failStop _ _)).bind fun _ => ?_
          refine (store_failStop (Store.resultSet_failStop _)).bind fun hub => ?_
          exact (link_failStop _ _ _).bind fun _ =>
            store_failStop (Store.addReference_failStop _ _ _ _)

/-- A container that was opened is closed without the sink, since its document is known. -/
theorem insideNamed_failStop (name : NodeId) (file : FileId) (h : FailStop walk) :
    FailStop (insideNamed w file name walk) := by
  refine FailStop.bind (failStop_get (fun _ => failStop_pure) fun _ _ => rfl) fun found => ?_
  cases found with
  | none => exact h
  | some range => exact container_failStop _ _ h

/-- The record of a declaration comes first, and then the walk inside. -/
theorem insideDocumentSymbol_failStop (h : FailStop walk) :
    FailStop (insideDocumentSymbol w node walk) := by
  unfold insideDocumentSymbol
  cases w.program.nameOf node with
  | none => exact h
  | some name =>
      dsimp only
      cases w.program.symbolAt name with
      | none => exact insideNamed_failStop name _ h
      | some symbol =>
          exact (resolve_failStop symbol _).discard.bind fun _ => insideNamed_failStop name _ h

/-- By cases of the node: what comes first, and then the walk on. -/
theorem inside_failStop (h : FailStop walk) : FailStop (inside w node walk) := by
  unfold inside
  cases w.program.kind node with
  | sourceFile => exact insideSourceFile_failStop h
  | identifier => exact visitIdentifier_failStop.bind fun _ => h
  | typeAliasDeclaration =>
      exact assertForwards_failStop.bind fun _ =>
        underOverrides_failStop _ (insideDocumentSymbol_failStop h)
  | _ =>
      dsimp only
      split
      · exact insideDocumentSymbol_failStop h
      · exact h

/-- A node that is left lists what was local to it, up to the first refusal. -/
theorem leave_failStop : FailStop (leave w node) := by
  refine (store_failStop (Store.nodeProcessed_failStop node)).bind fun _ => ?_
  split
  · refine (store_failStop (Store.endDocument_failStop _)).bind fun _ => failStop_modify ?_ ?_ ?_
    · exact fun _ _ => rfl
    · exact fun _ => rfl
    · exact fun _ _ h => h
  · exact failStop_pure

/-- **A tree is walked.** -/
theorem visitWithin_failStop (fuel : Nat) : ∀ node, FailStop (visitWithin w fuel node) := by
  induction fuel with
  | zero => exact fun _ => failStop_throw
  | succ fuel ih =>
      intro node
      exact (inside_failStop (.forM _ ih)).bind fun _ => leave_failStop

end Session

namespace Run

/-- **All files are walked, and the project ends.** -/
theorem walkAll_failStop : FailStop (walkAll w) := by
  refine (FailStop.forM _ fun _ => Session.visitWithin_failStop _ _).bind fun _ => ?_
  refine (Session.store_failStop Store.projectProcessed_failStop).bind fun _ => ?_
  refine (Session.emit_failStop Graph.flush_failStop).bind fun _ => ?_
  exact failStop_get (fun _ => failStop_pure) fun _ _ => rfl

/-- A run is its start and its walk, each ended by its own fault. -/
theorem index_eq (sink : Sink) : index w sink =
    match Store.start w.projectRoot (Graph.ofSink sink) with
    | .error fault g => (.error fault, g)
    | .ok project g  =>
        match walkAll w { store := { graph := g, project } } with
        | .ok summary s  => (.ok summary, s.graph)
        | .error fault s => (.error fault, s.graph) := by
  unfold index start
  rw [bind_run]
  cases Store.start w.projectRoot (Graph.ofSink sink) with
  | ok project g => rfl
  | error fault g => rfl

/-- **An interrupted run** and the same run over a mended sink: they end alike, and the refusal is
still to come; or the first one was interrupted by it. -/
theorem index_interrupted (c : Interruption) {sink : Sink} (hsink : c.Awaits sink) :
    (c.Awaits (index w sink).2.sink ∧
      index w (c.mended sink) = ((index w sink).1, c.mend (index w sink).2)) ∨
    ∃ fault, (index w sink).1 = .error (.sink fault) ∧
      c.Cuts fault (index w sink).2.sink (index w (c.mended sink)).2.sink := by
  have hfirst : FailStop (Store.start w.projectRoot) :=
    (Graph.vertex_failStop _).discard.bind fun _ =>
      (Graph.vertex_failStop _).bind fun _ => failStop_pure
  have hstart := hfirst.stops (Graph.ofSink sink) c hsink
  rw [show c.mend (Graph.ofSink sink) = Graph.ofSink (c.mended sink) from rfl] at hstart
  rw [index_eq, index_eq]
  generalize Store.start w.projectRoot (Graph.ofSink sink) = result at hstart
  generalize Store.start w.projectRoot (Graph.ofSink (c.mended sink)) = other at hstart
  -- The interruption falls into the start, into the walk or into neither. If into the start,
  -- whatever the other run does later only adds to what it has written.
  cases hstart with
  | error hg => exact .inl ⟨hg, rfl⟩
  | @ok project g hg =>
      have hwalk := (walkAll_failStop (w := w)).stops { store := { graph := g, project } } c hg
      rw [show (c.mend { store := { graph := g, project } } : Session)
        = { store := { graph := c.mend g, project } } from rfl] at hwalk
      dsimp only
      generalize walkAll w { store := { graph := g, project } } = result at hwalk
      generalize walkAll w { store := { graph := c.mend g, project } } = other at hwalk
      cases hwalk with
      | ok hs => exact .inl ⟨hs, rfl⟩
      | error hs => exact .inl ⟨hs, rfl⟩
      | interrupted hcut =>
          refine .inr ⟨_, rfl, ?_⟩
          cases other with
          | ok summary s => exact hcut
          | error e s => exact hcut
  | interrupted hcut =>
      refine .inr ⟨_, rfl, ?_⟩
      cases other with
      | error e g => exact hcut
      | ok project g =>
          have hmore := ((walkAll_failStop (w := w)).swells
            { store := { graph := g, project } }).final.taken
          dsimp only
          generalize walkAll w { store := { graph := g, project } } = result at hmore
          cases result with
          | ok summary s => exact c.later hcut hmore
          | error e s => exact c.later hcut hmore

/-- A run over a sink that is to refuse its call `n`, and the same run over a mended sink. -/
theorem index_parallels {n : Nat} {fault : SinkFault} {sink : Sink} (hsink : sink.Awaits n fault) :
    ((index w sink).2.sink.Awaits n fault ∧
      (index w sink.mended).2 = onSink Sink.mended (index w sink).2) ∨
      (index w sink).1 = .error (.sink fault) ∧ (index w sink).2.sink.Refused n ∧
        (index w sink).2.elements <+: (index w sink.mended).2.elements := by
  rcases index_interrupted (w := w) (.atCall n fault) hsink with
    ⟨hwaits, hsame⟩ | ⟨_, hfails, rfl, hrefused, hbefore⟩
  · exact .inl ⟨hwaits, congrArg Prod.snd hsame⟩
  · exact .inr ⟨hfails, hrefused, hbefore⟩

/-- **The first refusal ends a run.**  If the sink fails on its call `n` and not before, and the run
over a sink that never fails makes as many calls, then the run fails with that very fault, makes no
call after it, and has delivered the elements before it, as the other run does. -/
theorem fail_stop (w : Setting) {faults : Nat → Option SinkFault} {fault : SinkFault} {n : Nat}
    (hn : 1 ≤ n) (hbefore : ∀ call < n - 1, faults call = none) (hfails : faults (n - 1) = some fault)
    (hlong : n ≤ (index w .inMemory).2.sink.calls) :
    (index w (.memory faults 0 #[])).1 = .error (.sink fault) ∧
    (index w (.memory faults 0 #[])).2.sink.calls = n ∧
    (index w (.memory faults 0 #[])).2.elements = (index w .inMemory).2.elements.take (n - 1) := by
  have hawaits : (Sink.memory faults 0 #[]).Awaits (n - 1) fault :=
    ⟨Nat.zero_le _, rfl, hbefore, hfails⟩
  have hmended : (Sink.memory faults 0 #[]).mended = .inMemory := rfl
  have hparallels := index_parallels (w := w) hawaits
  rw [hmended] at hparallels
  generalize index w (.memory faults 0 #[]) = failed at hparallels
  generalize index w .inMemory = whole at hparallels hlong
  rcases hparallels with ⟨hwaits, hwhole⟩ | ⟨hresult, hrefused, hprefix⟩
  · -- The run that never fails has not come to the call that is to fail.
    have hshort : whole.2.sink.calls ≤ n - 1 := by
      rw [hwhole]
      exact hwaits.calls_le
    omega
  · obtain ⟨hcalls, hlength⟩ := hrefused.calls_eq
    refine ⟨hresult, hcalls.trans (Nat.sub_add_cancel hn), ?_⟩
    exact hlength ▸ List.prefix_iff_eq_take.mp hprefix

/-- A file that mentions an alias of a variable before it declares the variable. -/
def aliasing : Setting := plain
  [.file ⟨"/p/a.ts"⟩ "b; let a", .declaration ⟨0⟩ .variableDeclaration "a" "a",
   .symbol "a" .blockScopedVariable, .declare ⟨0⟩ ⟨1⟩, .symbol "b" .ofAlias, .aliased ⟨1⟩ ⟨0⟩,
   .identifier ⟨0⟩ "b" 0 ⟨1⟩]

/-- The sink refuses the result set of the variable, whose record is made for that of the alias. -/
theorem aliasing_fails : 4 ≤ (index aliasing .inMemory).2.sink.calls ∧
    (let failed := index aliasing (.memory (fun call => if call = 3 then some (.io "full") else none) 0 #[])
    failed.1 = .error (.sink (.io "full")) ∧ failed.2.sink.calls = 4 ∧
      failed.2.elements = (index aliasing .inMemory).2.elements.take 3) := by
  have hlong : 4 ≤ (index aliasing .inMemory).2.sink.calls := by
    decide +kernel
  refine ⟨hlong, fail_stop aliasing (by decide) (fun call hcall => if_neg ?_) rfl hlong⟩
  exact fun heq => absurd hcall (by omega)

end Run

end SymbolGraph
