import SymbolGraph.Store.Basic

/-!
# Store — collecting definitions and references

What is recorded under one record may belong to others: references to an alias belong to its target,
references to an overriding method to the methods it overrides, and references to a shared property
to the property of each arm.  Only ranges are passed on by methods and shared properties; whole
reference results stay where they are added.

* `Store.addDefinition`, `Store.addReference`: record a range or a result; `Store.define` and
  `Store.passOn` are one level of that.
* `Store.tie`: links a record to what it passes on to.
* `Store.insert`: stores a new record, emits its result set and ties it.
-/

namespace SymbolGraph.Store

/-- Have a record told when the walk leaves a node. -/
def watch (node : NodeId) (id : RecordId) : Storing Unit :=
  modify fun s =>
    let told := (s.watchers.get? node).getD []
    { s with watchers := s.watchers.insert node (if id ∈ told then told else told ++ [id]) }

/-- Make sure that a record has a partition for a file; the record is told when the walk leaves the
file. -/
def ensurePartition (w : Setting) (id : RecordId) (file : FileId) : Storing Unit := do
  unless (← record id).partitions.contains file do
    let document := (← document w file).vertex.id
    changeRecord id fun record =>
      { record with partitions := record.partitions.insert file (.live { document }) }
    watch (w.program.root file) id

/-- Change the partition of a record for a file, which must not be cleared. -/
def changePartition (w : Setting) (id : RecordId) (file : FileId) (f : Partition → Partition) :
    Storing Unit := do
  ensurePartition w id file
  let known ← record id
  match known.partitions.get? file with
  | some (.live partition) =>
      changeRecord id fun record =>
        { record with partitions := record.partitions.insert file (.live (f partition)) }
  | _ => throw (.partitionCleared known.key (w.program.shownFile file))

/-- Go on with a record if it is open.  A record that is closed fails or does nothing. -/
def whenOpen (id : RecordId) (act : Record → Storing Unit) : Storing Unit := do
  let known ← record id
  if ← Action.ofExcept known.isOpen then act known

/-- Record a definition under the record itself. -/
def addOwnDefinition (w : Setting) (id : RecordId) (file : FileId) (range : ElementId)
    (asReference : Bool) : Storing Unit := do
  let hub ← resultSet id
  discard (Graph.link .next range hub.id)
  changePartition w id file fun partition => partition.addDefinition range asReference

/-- Record a reference under the record itself. -/
def addOwnReference (w : Setting) (id : RecordId) (file : FileId) (reference : Reference)
    (role : ReferenceRole) : Storing Unit :=
  changePartition w id file fun partition => partition.addReference role reference

/-- Record a reference under a record, where `ask` records what is passed on. -/
def passOn (w : Setting) (file : FileId) (reference : Reference) (role : ReferenceRole)
    (ask : RecordId → Storing Unit) (id : RecordId) : Storing Unit :=
  whenOpen id fun known =>
    match known.kind, reference with
    | .aliased target _, _                => ask target
    | .method (base :: bases) _, .range _ => (base :: bases).forM ask
    | .composite elements _, .range _     => elements.forM ask
    | _, _                                => addOwnReference w id file reference role

/-- Record a reference, passing it on at most `fuel` times. -/
def addReferenceWithin (w : Setting) (file : FileId) (reference : Reference)
    (role : ReferenceRole) : (fuel : Nat) → RecordId → Storing Unit
  | 0,        _  => throw .endlessChain
  | fuel + 1, id =>
      passOn w file reference role (addReferenceWithin w file reference role fuel) id

/-- Record a reference.  A chain of records that ends visits none twice. -/
def addReference (w : Setting) (id : RecordId) (file : FileId) (reference : Reference)
    (role : ReferenceRole) : Storing Unit := do
  addReferenceWithin w file reference role ((← get).records.size + 1) id

/-- Record a definition, where `cite` records what counts as a reference to it.  An alias that keeps
the name counts its definition as a reference to its target, and a method lists its definition with
the methods it overrides. -/
def define (w : Setting) (cite : ReferenceRole → RecordId → Storing Unit) (id : RecordId)
    (file : FileId) (range : ElementId) (asReference : Bool) : Storing Unit :=
  whenOpen id fun known => do
    match known.kind with
    | .standard              => addOwnDefinition w id file range asReference
    | .aliased _ true        => addOwnDefinition w id file range false
    | .aliased target false  =>
        let hub ← resultSet id
        discard (Graph.link .next range hub.id)
        cite .references target
    | .method [] _           => addOwnDefinition w id file range asReference
    | .method (base :: bases) _ =>
        addOwnDefinition w id file range false
        (base :: bases).forM (cite .definitions)
    | .composite _ _         => return ()
    | .transient             => return ()

/-- Record a definition, and the references that it counts as. -/
def addDefinition (w : Setting) (id : RecordId) (file : FileId) (range : ElementId)
    (asReference : Bool) : Storing Unit :=
  define w (fun role other => addReference w other file (.range range) role) id file range
    asReference

/-- Link the result set of an open record to something that is said of it. -/
def attach (id : RecordId) (kind : LinkKind) (target : ElementId) : Storing Unit :=
  whenOpen id fun _ => do
    let hub ← resultSet id
    discard (Graph.link kind hub.id target)

/-- Give a record its hover text. -/
def addHover (id : RecordId) (hover : ElementId) : Storing Unit := attach id .hover hover

/-- Give a record its moniker. -/
def addMoniker (id : RecordId) (moniker : ElementId) : Storing Unit := attach id .moniker moniker

/-- Lead from the result set of an alias to that of its target. -/
def tieAlias (hub : VertexRef) (target : RecordId) : Storing Unit := do
  let next ← resultSet target
  discard (Graph.link .next hub.id next.id)

/-- List the reference result of a method with the methods that it overrides. -/
def tieMethod (w : Setting) (id : RecordId) (bases : List RecordId) (anchor : FileId) :
    Storing Unit := do
  let own ← onRecord id Ledger.referenceResult
  bases.forM fun base => addReference w base anchor (.result own.id) .references

/-- List the reference results of the arms of a union with their shared property. -/
def tieComposite (w : Setting) (id : RecordId) (elements : List RecordId) (anchor : FileId) :
    Storing Unit :=
  elements.forM fun element => do
    let result ← onRecord element Ledger.referenceResult
    addOwnReference w id anchor (.result result.id) .references

/-- Tie an open record to the records that it passes on to. -/
def tie (w : Setting) (id : RecordId) (hub : VertexRef) : Storing Unit := do
  match (← record id).kind with
  | .aliased target _              => tieAlias hub target
  | .method (base :: bases) anchor => tieMethod w id (base :: bases) anchor
  | .composite elements anchor     => tieComposite w id elements anchor
  | _                              => return ()

/-- Open a record and tie it to the records that it passes on to. -/
def begin (w : Setting) (id : RecordId) : Storing Unit := do
  tie w id (← onRecord id Ledger.begin)

/-- Store a new record and begin it. -/
def insert (w : Setting) (fresh : Record) : Storing RecordId := do
  let id : RecordId := ⟨(← get).records.size⟩
  modify fun s =>
    { s with cache := s.cache.insert fresh.key (.live id), records := s.records.push fresh }
  begin w id
  return id

end SymbolGraph.Store
