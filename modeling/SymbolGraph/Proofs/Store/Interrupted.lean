import SymbolGraph.Proofs.Interruption
import SymbolGraph.Proofs.Table
import SymbolGraph.Store.LifeCycle

/-!
# Proofs — Store — interrupted operations

Every operation on a record and on a store is interrupted by the first refusal of the sink.  None of
them hands over anything after a failure, and none of them turns the fault of the sink into another.

* `Ledger.close_failStop`: records.
* `Store.addDefinition_failStop`, `Store.insert_failStop`, `Store.nodeProcessed_failStop`,
  `Store.projectProcessed_failStop` and the others: the store.
* `Store.endContainer_quiet`: a container of a document that is known is closed without the sink.
-/

namespace SymbolGraph

open SymbolGraph.Action HasSink

variable {α : Type}

/-! ### Records -/

instance : HasSink Ledger where
  sink l := l.graph.sink
  onSink change l := { l with graph := onSink change l.graph }
  sink_onSink _ _ := rfl
  Documented _ _ := False
  documented_onSink _ _ _ h := h

namespace Ledger

/-- A record hands over through its graph. -/
theorem emission_failStop {act : Emission α} (h : FailStop act) :
    FailStop (liftM act : Writing α) :=
  h.onPart (fun _ => rfl) (fun _ _ => rfl) (fun _ _ => rfl) (fun _ _ _ => rfl) fun _ _ _ _ => False.elim

/-- Changing a record hands over nothing. -/
theorem change_failStop (f : Record → Record) : FailStop (change f) :=
  failStop_modify (fun _ _ => rfl) (fun _ => rfl) fun _ _ => False.elim

theorem resultSet_failStop : FailStop resultSet :=
  failStop_get (fun _ => failStop_ofExcept) fun _ _ => rfl

theorem emitResultSet_failStop : FailStop emitResultSet :=
  (emission_failStop (Graph.vertex_failStop _)).bind fun _ =>
    (change_failStop _).bind fun _ => failStop_pure

/-- A record that was opened already is not opened again, and the fault is its own. -/
theorem begin_failStop : FailStop begin := by
  refine failStop_get (fun l => ?_) fun _ _ => rfl
  dsimp only
  split
  · exact failStop_throw.bind fun _ => emitResultSet_failStop
  · exact emitResultSet_failStop

/-- A new result is handed over, and then the link to it. -/
theorem newResult_failStop (v : Vertex) (kind : LinkKind) (note : VertexRef → Record → Record) :
    FailStop (newResult v kind note) := by
  refine resultSet_failStop.bind fun hub => ?_
  refine (emission_failStop (Graph.vertex_failStop _)).bind fun result => ?_
  refine (emission_failStop (Graph.link_failStop _ _ _)).discard.bind fun _ => ?_
  exact (change_failStop _).bind fun _ => failStop_pure

theorem referenceResult_failStop : FailStop referenceResult := by
  refine failStop_get (fun l => ?_) fun _ _ => rfl
  cases l.record.referenceResult with
  | some result => exact failStop_pure
  | none => exact newResult_failStop _ _ _

theorem definitionResult_failStop : FailStop definitionResult := by
  refine failStop_get (fun l => ?_) fun _ _ => rfl
  cases l.record.definitionResult with
  | some result => exact failStop_pure
  | none => exact newResult_failStop _ _ _

theorem item_failStop (source : VertexRef) (targets : List ElementId) (document : ElementId)
    (property : ItemProperty) :
    FailStop (discard (Graph.item source targets document property) : Writing Unit) :=
  (emission_failStop (Graph.item_failStop _ _ _ _)).discard

/-- The references of a partition. -/
theorem listReferences_failStop (partition : Partition) :
    FailStop (listReferences partition) := by
  unfold listReferences
  split
  · refine referenceResult_failStop.bind fun result => ?_
    refine FailStop.forM partition.listed fun entry => ?_
    unfold listEntry
    split
    · exact failStop_pure
    · exact item_failStop _ _ _ _
  · exact failStop_pure

/-- What a partition collected is handed over list by list, up to the first refusal. -/
theorem flush_failStop (partition : Partition) : FailStop (flush partition) := by
  unfold flush
  dsimp only
  split
  · exact listReferences_failStop partition
  · exact definitionResult_failStop.bind fun result => (item_failStop _ _ _ _).bind fun _ =>
      listReferences_failStop partition

/-- A partition that is cleared is handed over. -/
theorem endPartition_failStop (file : FileId) : FailStop (endPartition file) := by
  refine failStop_get (fun l => ?_) fun _ _ => rfl
  split
  · exact (change_failStop _).bind fun _ => flush_failStop _
  · exact failStop_pure

/-- The partitions of a record are handed over one by one. -/
theorem close_failStop : FailStop close := by
  refine failStop_get (fun l => ?_) fun _ _ => rfl
  dsimp only
  split
  · exact failStop_pure
  · exact (FailStop.forM _ endPartition_failStop).bind fun _ => change_failStop _

end Ledger

/-! ### The store -/

instance : HasSink Store where
  sink s := s.graph.sink
  onSink change s := { s with graph := onSink change s.graph }
  sink_onSink _ _ := rfl
  Documented s file := s.documents.get? file ≠ none
  documented_onSink _ _ _ h := h

namespace Store

variable {w : Setting}

/-- A store hands over through its graph. -/
theorem emission_failStop {act : Emission α} (h : FailStop act) :
    FailStop (liftM act : Storing α) :=
  h.onPart (fun _ => rfl) (fun _ _ => rfl) (fun _ _ => rfl) (fun _ _ _ => rfl) fun _ _ _ _ h => h

theorem vertex_failStop (v : Vertex) : FailStop (Graph.vertex v : Storing VertexRef) :=
  emission_failStop (Graph.vertex_failStop v)

theorem link_failStop (kind : LinkKind) (source target : ElementId) :
    FailStop (discard (Graph.link kind source target) : Storing Unit) :=
  (emission_failStop (Graph.link_failStop kind source target)).discard

/-- A record that is missing is a fault of the store, not of the sink. -/
theorem record_failStop (id : RecordId) : FailStop (record id) := by
  refine failStop_get (fun s => ?_) fun _ _ => rfl
  cases s.records[id.index]? with
  | some r => exact failStop_pure
  | none => exact failStop_throw

/-- Changing a record hands over nothing. -/
theorem changeRecord_failStop (id : RecordId) (f : Record → Record) :
    FailStop (changeRecord id f) := by
  refine (record_failStop id).discard.bind fun _ => failStop_modify ?_ ?_ ?_
  · exact fun _ _ => rfl
  · exact fun _ => rfl
  · exact fun _ _ h => h

/-- What a record hands over, the store does; it goes back in either case. -/
theorem onRecord_failStop (id : RecordId) {act : Ledger.Writing α} (h : FailStop act) :
    FailStop (onRecord id act) := by
  refine (record_failStop id).bind fun known => h.onPart ?_ ?_ ?_ ?_ ?_
  · exact fun _ => rfl
  · exact fun _ _ => rfl
  · exact fun _ _ => rfl
  · exact fun _ _ _ => rfl
  · exact fun _ _ _ _ h => h

theorem resultSet_failStop (id : RecordId) : FailStop (resultSet id) :=
  (record_failStop id).bind fun _ => failStop_ofExcept

theorem hasInfo_failStop (id : RecordId) (info : DefinitionInfo) : FailStop (hasInfo id info) :=
  (record_failStop id).bind fun _ => failStop_pure

theorem addInfo_failStop (id : RecordId) (info : DefinitionInfo) : FailStop (addInfo id info) :=
  changeRecord_failStop _ _

/-! #### The cache -/

/-- Looking up a key hands over nothing, and its faults are its own. -/
theorem lookup_failStop (key : SymbolKey) : FailStop (lookup key) := by
  refine failStop_get (fun s => ?_) fun _ _ => rfl
  cases s.cache.get? key with
  | none => exact failStop_pure
  | some slot =>
      cases slot with
      | live id => exact failStop_pure
      | resolving => exact failStop_throw
      | cleared => exact failStop_throw

/-- Marking a key hands over nothing. -/
theorem mark_failStop (key : SymbolKey) (slot : CacheSlot) : FailStop (mark key slot) :=
  failStop_modify (fun _ _ => rfl) (fun _ => rfl) fun _ _ h => h

/-- A reservation is given up without the sink. -/
theorem abandon_failStop (key : SymbolKey) : FailStop (abandon key) ∧
    ∀ s, Ensures (abandon key) s (fun _ t => Quiet s t) fun _ _ => False := by
  refine ⟨failStop_modify (fun _ s => ?_) (fun s => ?_) fun s file h => ?_, fun s => ?_⟩
  · show (if s.cache.get? key = some .resolving then _ else _) = _
    split
    · rfl
    · rfl
  · split
    · rfl
    · rfl
  · split
    · exact h
    · exact h
  · refine ensures_modify.mpr ?_
    split
    · rfl
    · rfl

/-! #### Documents -/

/-- A new document is handed over, and is known only if it was taken. -/
theorem document_failStop (file : FileId) : FailStop (document w file) := by
  refine failStop_get (fun s => ?_) fun _ _ => rfl
  cases s.documents.get? file with
  | some slot =>
      cases slot with
      | live d => exact failStop_pure
      | cleared => exact failStop_throw
  | none =>
      refine (vertex_failStop _).bind fun v => FailStop.bind (failStop_modify ?_ ?_ ?_) fun _ => ?_
      · exact fun _ _ => rfl
      · exact fun _ => rfl
      · exact fun _ _ h => Table.get?_insert_ne_none h
      · exact failStop_pure

theorem putDocument_failStop (file : FileId) (known : Document) :
    FailStop (putDocument file known) :=
  failStop_modify (fun _ _ => rfl) (fun _ => rfl) fun _ _ h => Table.get?_insert_ne_none h

theorem addRange_failStop (file : FileId) (range : ElementId) : FailStop (addRange w file range) :=
  (document_failStop file).bind fun _ => putDocument_failStop _ _

theorem beginContainer_failStop (file : FileId) (range : ElementId) :
    FailStop (beginContainer w file range) :=
  (document_failStop file).bind fun _ => putDocument_failStop _ _

theorem endContainer_failStop (file : FileId) : FailStop (endContainer w file) :=
  (document_failStop file).bind fun _ => failStop_ofExcept.bind fun _ => putDocument_failStop _ _

/-- A document that ends hands over its symbols and what it contains, up to the first refusal. -/
theorem endDocument_failStop (file : FileId) : FailStop (endDocument w file) := by
  refine failStop_get (fun s => ?_) fun _ _ => rfl
  cases s.documents.get? file with
  | none => exact failStop_pure
  | some slot =>
      cases slot with
      | cleared => exact failStop_throw
      | live known =>
          refine FailStop.bind (failStop_modify ?_ ?_ ?_) fun _ => ?_
          · exact fun _ _ => rfl
          · exact fun _ => rfl
          · exact fun _ _ h => Table.get?_insert_ne_none h
          · exact emission_failStop (known.finish_failStop _)

/-- A container of a document that is known is closed without the sink. -/
theorem endContainer_quiet {file : FileId} {s : Store} (h : Documented s file) :
    Ensures (endContainer w file) s (fun _ t => Quiet s t) fun _ t => Quiet s t := by
  refine ensures_bind.mpr (ensures_bind.mpr (ensures_get.mpr ?_))
  cases hslot : s.documents.get? file with
  | none => exact absurd hslot h
  | some slot =>
      cases slot with
      | cleared => exact ensures_throw.mpr rfl
      | live known =>
          refine ensures_pure.mpr (ensures_bind.mpr ?_)
          cases known.endContainer with
          | ok next => exact rfl
          | error fault => exact rfl

/-- A document in which a container was opened is known. -/
theorem beginContainer_documented {file : FileId} {range : ElementId} (s : Store) :
    Ensures (beginContainer w file range) s (fun _ t => Documented t file) fun _ _ => True := by
  have hdocument : Stays (fun _ _ => True) (document w file) := fun s =>
    ((document_failStop file).swells s).mono (fun _ _ _ => trivial) fun _ _ _ => trivial
  refine ensures_bind.mpr ((hdocument s).mono (fun known t _ => ?_) fun _ _ _ => trivial)
  refine ensures_modify.mpr fun hnone => ?_
  cases ((Table.get?_insert _ _ _ _).trans (if_pos rfl)).symm.trans hnone

/-! #### Collecting -/

theorem watch_failStop (node : NodeId) (id : RecordId) : FailStop (watch node id) :=
  failStop_modify (fun _ _ => rfl) (fun _ => rfl) fun _ _ h => h

/-- A partition comes with the document of its file, which may have to be handed over. -/
theorem ensurePartition_failStop (id : RecordId) (file : FileId) :
    FailStop (ensurePartition w id file) := by
  refine (record_failStop id).bind fun known => ?_
  split
  · exact failStop_pure
  · refine (document_failStop file).bind fun d => ?_
    exact (changeRecord_failStop _ _).bind fun _ => watch_failStop _ _

theorem changePartition_failStop (id : RecordId) (file : FileId) (f : Partition → Partition) :
    FailStop (changePartition w id file f) := by
  refine (ensurePartition_failStop id file).bind fun _ => (record_failStop id).bind fun known => ?_
  split
  · exact changeRecord_failStop _ _
  · exact failStop_throw

theorem addOwnDefinition_failStop (id : RecordId) (file : FileId) (range : ElementId)
    (asReference : Bool) : FailStop (addOwnDefinition w id file range asReference) :=
  (resultSet_failStop id).bind fun _ => (link_failStop _ _ _).bind fun _ =>
    changePartition_failStop _ _ _

theorem addOwnReference_failStop (id : RecordId) (file : FileId) (reference : Reference)
    (role : ReferenceRole) : FailStop (addOwnReference w id file reference role) :=
  changePartition_failStop _ _ _

/-- Asking whether a record is open hands over nothing. -/
theorem whenOpen_failStop (id : RecordId) {act : Record → Storing Unit}
    (h : ∀ known, FailStop (act known)) : FailStop (whenOpen id act) := by
  refine (record_failStop id).bind fun known => failStop_ofExcept.bind fun isOpen => ?_
  split
  · exact h known
  · exact failStop_pure

/-- By induction on how far the reference is passed on: it is collected, and nothing is handed over
but documents. -/
theorem addReferenceWithin_failStop (file : FileId) (reference : Reference) (role : ReferenceRole)
    (fuel : Nat) : ∀ id, FailStop (addReferenceWithin w file reference role fuel id) := by
  induction fuel with
  | zero => exact fun _ => failStop_throw
  | succ fuel ih =>
      intro id
      refine whenOpen_failStop id fun known => ?_
      split
      · exact ih _
      · exact .forM _ ih
      · exact .forM _ ih
      · exact addOwnReference_failStop _ _ _ _

theorem addReference_failStop (id : RecordId) (file : FileId) (reference : Reference)
    (role : ReferenceRole) : FailStop (addReference w id file reference role) :=
  failStop_get (fun _ => addReferenceWithin_failStop _ _ _ _ _) fun _ _ => rfl

/-- A definition is handed over with its link, and then collected. -/
theorem addDefinition_failStop (id : RecordId) (file : FileId) (range : ElementId)
    (asReference : Bool) : FailStop (addDefinition w id file range asReference) := by
  refine whenOpen_failStop id fun known => ?_
  split
  · exact addOwnDefinition_failStop _ _ _ _
  · exact addOwnDefinition_failStop _ _ _ _
  · exact (resultSet_failStop id).bind fun _ => (link_failStop _ _ _).bind fun _ =>
      addReference_failStop _ _ _ _
  · exact addOwnDefinition_failStop _ _ _ _
  · exact (addOwnDefinition_failStop _ _ _ _).bind fun _ =>
      .forM _ fun _ => addReference_failStop _ _ _ _
  · exact failStop_pure
  · exact failStop_pure

/-- The result set of an open record is linked to something. -/
theorem attach_failStop (id : RecordId) (kind : LinkKind) (target : ElementId) :
    FailStop (attach id kind target) :=
  whenOpen_failStop id fun _ => (resultSet_failStop id).bind fun _ => link_failStop _ _ _

theorem addHover_failStop (id : RecordId) (hover : ElementId) : FailStop (addHover id hover) :=
  attach_failStop id .hover hover

theorem addMoniker_failStop (id : RecordId) (moniker : ElementId) :
    FailStop (addMoniker id moniker) :=
  attach_failStop id .moniker moniker

/-- A record begins with its result set, and is then linked to those it forwards to. -/
theorem begin_failStop (id : RecordId) : FailStop (begin w id) := by
  refine (onRecord_failStop id Ledger.begin_failStop).bind fun hub => ?_
  refine (record_failStop id).bind fun known => ?_
  split
  · exact (resultSet_failStop _).bind fun _ => link_failStop _ _ _
  · refine (onRecord_failStop id Ledger.referenceResult_failStop).bind fun own => ?_
    exact .forM _ fun _ => addReference_failStop _ _ _ _
  · refine FailStop.forM _ fun element => ?_
    exact (onRecord_failStop element Ledger.referenceResult_failStop).bind fun _ =>
      addOwnReference_failStop _ _ _ _
  · exact failStop_pure

/-- A new record is entered before anything of it is handed over. -/
theorem insert_failStop (fresh : Record) : FailStop (insert w fresh) := by
  refine failStop_get (fun s => FailStop.bind (failStop_modify ?_ ?_ ?_) fun _ => ?_) fun _ _ => rfl
  · exact fun _ _ => rfl
  · exact fun _ => rfl
  · exact fun _ _ h => h
  · exact (begin_failStop _).bind fun _ => failStop_pure

/-! #### Closing -/

/-- A record that is local to a node hands over what it collected. -/
theorem leave_failStop (node : NodeId) (id : RecordId) : FailStop (leave w node id) := by
  refine (record_failStop id).bind fun known => ?_
  dsimp only
  split
  · exact failStop_pure
  · split
    · split
      · exact failStop_pure
      · exact (onRecord_failStop id Ledger.close_failStop).bind fun _ => mark_failStop _ _
    · split
      · exact onRecord_failStop id (Ledger.endPartition_failStop _)
      · exact failStop_pure

/-- **The walk leaves a node.** -/
theorem nodeProcessed_failStop (node : NodeId) : FailStop (nodeProcessed w node) := by
  refine failStop_get (fun s => ?_) fun _ _ => rfl
  cases s.watchers.get? node with
  | none => exact failStop_pure
  | some told =>
      refine FailStop.bind (failStop_modify ?_ ?_ ?_) fun _ => FailStop.forM told (leave_failStop node)
      · exact fun _ _ => rfl
      · exact fun _ => rfl
      · exact fun _ _ h => h

/-- A record that is still open hands over what it collected. -/
theorem closeIfOpen_failStop (id : RecordId) : FailStop (closeIfOpen id) := by
  refine (record_failStop id).bind fun known => ?_
  split
  · exact onRecord_failStop id Ledger.close_failStop
  · exact failStop_pure

/-- **The project ends.** -/
theorem projectProcessed_failStop : FailStop (projectProcessed w) := by
  refine FailStop.bind (failStop_modify ?_ ?_ ?_) fun _ => ?_
  · exact fun _ _ => rfl
  · exact fun _ => rfl
  · exact fun _ _ h => h
  refine failStop_get (fun s => ?_) fun _ _ => rfl
  refine (FailStop.forM _ fun _ => closeIfOpen_failStop _).bind fun _ => ?_
  refine failStop_get (fun s => ?_) fun _ _ => rfl
  refine (FailStop.forM _ endDocument_failStop).bind fun _ => ?_
  exact Project.finish_failStop.onPart (fun _ => rfl) (fun _ _ => rfl) (fun _ _ => rfl)
    (fun _ _ _ => rfl) fun _ _ _ _ h => h

end Store

end SymbolGraph
