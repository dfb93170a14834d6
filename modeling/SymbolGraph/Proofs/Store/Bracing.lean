import SymbolGraph.Proofs.Record.Labelling
import SymbolGraph.Proofs.Record.Routes
import SymbolGraph.Proofs.Store.Departing

/-!
# Proofs — Store — what is never broken

Whatever a store is asked to do, over any sink and however it ends, every handle that it keeps has
the right label and every record passes on to earlier ones only.  So no edge is refused for its
source, no chain of records is endless, and what is left are ordinary faults.  Nor does collecting
open or close a container.

* `Store.Sturdy`: labels are right and links lead to earlier records.
* `Store.depth`: how many containers are open in the document of a file.
* `Store.Braces`: an operation that keeps all this, with ordinary faults.
* `Store.passOn`: one level of recording a reference, `Store.before`: how deep that can go.
* `Store.insert_braces`: a record is stored whose key was reserved.
* `Store.nodeProcessed_clears`: only the keys of records local to the node are cleared.
* `Store.endDocument_concludes`, `Store.projectProcessed_concludes`: documents without open containers
  end.
-/

namespace SymbolGraph.Store

open SymbolGraph.Action SymbolGraph.Discipline

variable {α β : Type} {w : Setting} {s t u : Store} {id : RecordId} {file : FileId} {node : NodeId}

/-! ### What is kept -/

/-- Every handle has the right label, and every record passes on to earlier ones only. -/
structure Sturdy (s : Store) : Prop where
  project   : s.project.vertex.label = .project
  documents : ∀ file document, s.documents.get? file = some (.live document) →
    document.vertex.label = .document
  records   : ∀ (i : Nat) (r : Record), s.records[i]? = some r → r.Labelled
  descends  : ∀ (i : Nat) (r : Record), s.records[i]? = some r →
    ∀ ids, r.kind.passesTo = some ids → ∀ id ∈ ids, id.index < i

/-- How many containers are open in the document of a file. -/
def depth (s : Store) (file : FileId) : Nat :=
  (((s.documents.get? file).bind Slot.value?).map fun d => d.containers.length).getD 0

/-- The depth of a live document is read off its open containers. -/
theorem depth_of_live {d : Document} (h : s.documents.get? file = some (.live d)) :
    s.depth file = d.containers.length := by
  rw [Store.depth, h]
  rfl

/-- The document of one file changes. -/
theorem depth_insert {project : Project} {slot : Slot Document} {other : FileId} :
    Store.depth { s with project, documents := s.documents.insert file slot } other
      = if other = file then (slot.value?.map fun d => d.containers.length).getD 0
        else s.depth other := by
  rw [Store.depth, Store.depth, Table.get?_insert]
  split <;> rfl

/-- The store is as sturdy as it was, its records are who they were, and nothing happened to the
cache. -/
structure Maintains (s t : Store) : Prop where
  sturdy  : t.Sturdy
  records : Renews Record.Endures s.records t.records
  cache   : t.cache = s.cache

/-- What is maintained twice is maintained. -/
theorem Maintains.trans (h : s.Maintains t) (h' : t.Maintains u) : s.Maintains u where
  sturdy := h'.sturdy
  records := h.records.trans Record.Endures.trans h'.records
  cache := h'.cache.trans h.cache

/-- Nor did anything happen to containers. -/
structure Steadies (s t : Store) : Prop extends Maintains s t where
  depth : ∀ file, t.depth file = s.depth file

theorem Steadies.refl (h : s.Sturdy) : s.Steadies s :=
  ⟨⟨h, .refl Record.Endures.refl _, rfl⟩, fun _ => rfl⟩

/-- What is steady twice is steady. -/
theorem Steadies.trans (h : s.Steadies t) (h' : t.Steadies u) : s.Steadies u :=
  ⟨h.toMaintains.trans h'.toMaintains, fun file => (h'.depth file).trans (h.depth file)⟩

/-- Links lead to earlier records as long as records keep their kind. -/
theorem Sturdy.descends_of (hs : s.Sturdy) (hrecords : Renews Record.Endures s.records t.records)
    (i : Nat) (r : Record) (hr : t.records[i]? = some r) (ids : List RecordId)
    (hids : r.kind.passesTo = some ids) : ∀ id ∈ ids, id.index < i := by
  obtain ⟨r', hr', hendures⟩ := hrecords.backward hr
  exact hs.descends i r' hr' ids (hendures.kind ▸ hids)

/-- Records change, and nothing else that counts. -/
theorem Sturdy.renew (hs : s.Sturdy) (hrecords : Renews Record.Endures s.records t.records)
    (hlabelled : ∀ (i : Nat) (r : Record), t.records[i]? = some r → r.Labelled)
    (hproject : t.project = s.project) (hdocuments : t.documents = s.documents)
    (hcache : t.cache = s.cache) : s.Steadies t where
  sturdy := ⟨hproject ▸ hs.project, hdocuments ▸ hs.documents, hlabelled, hs.descends_of hrecords⟩
  records := hrecords
  cache := hcache
  depth file := by rw [Store.depth, Store.depth, hdocuments]

/-- Nothing that counts changes. -/
theorem Sturdy.congr (hs : s.Sturdy) (hrecords : t.records = s.records)
    (hproject : t.project = s.project) (hdocuments : t.documents = s.documents)
    (hcache : t.cache = s.cache) : s.Steadies t := by
  refine hs.renew ?_ ?_ hproject hdocuments hcache
  · rw [hrecords]
    exact .refl Record.Endures.refl _
  · rw [hrecords]
    exact hs.records

/-- A store is as sturdy with any graph. -/
theorem Sturdy.write (hs : s.Sturdy) (graph : Graph) : s.Steadies { s with graph } :=
  hs.congr rfl rfl rfl rfl

/-- One record changes. -/
theorem Sturdy.modify (hs : s.Sturdy) {r : Record} {f : Record → Record} {graph : Graph}
    (hr : s.records[id.index]? = some r) (hendures : r.Endures (f r)) (hlabelled : (f r).Labelled) :
    s.Steadies { s with graph, records := s.records.modify id.index f } := by
  refine hs.renew (.modify Record.Endures.refl fun r' hr' => ?_) (fun i r' hr' => ?_) rfl rfl rfl
  · cases hr.symm.trans hr'
    exact hendures
  · change (s.records.modify id.index f)[i]? = some r' at hr'
    rw [Array.getElem?_modify] at hr'
    split at hr'
    · rename_i hi
      subst hi
      rw [hr] at hr'
      cases hr'
      exact hlabelled
    · exact hs.records i r' hr'

/-- The document of a file changes or ends. -/
theorem Sturdy.shelve (hs : s.Sturdy) {project : Project} {slot : Slot Document}
    (hproject : project.vertex = s.project.vertex)
    (hlabel : ∀ d, slot = .live d → d.vertex.label = .document) :
    s.Maintains { s with project, documents := s.documents.insert file slot } where
  sturdy := by
    refine ⟨hproject ▸ hs.project, fun other d hd => ?_, hs.records, hs.descends⟩
    change (s.documents.insert file slot).get? other = _ at hd
    rw [Table.get?_insert] at hd
    split at hd
    · exact hlabel d (Option.some.inj hd)
    · exact hs.documents other d hd
  records := .refl Record.Endures.refl _
  cache := rfl

/-- The document of a file is replaced by one with as many open containers. -/
theorem Sturdy.reshelve (hs : s.Sturdy) {project : Project} {d : Document}
    (hproject : project.vertex = s.project.vertex) (hlabel : d.vertex.label = .document)
    (hdepth : d.containers.length = s.depth file) :
    s.Steadies { s with project, documents := s.documents.insert file (.live d) } := by
  refine ⟨hs.shelve hproject fun d' hd' => ?_, fun other => ?_⟩
  · cases hd'
    exact hlabel
  · rw [depth_insert]
    split
    · rename_i heq
      exact heq ▸ hdepth
    · rfl

/-! ### Operations that collect -/

/-- From a sturdy store an operation keeps it sturdy, touches neither the cache nor containers, and
only has ordinary faults. -/
def bracing : Discipline Store Fault where
  ready := Sturdy
  steps := Steadies
  blames s fault t := fault.IsOrdinary ∧ s.Steadies t
  refl := .refl
  trans := Steadies.trans
  keeps _ h := h.sturdy
  carries h h' := ⟨h'.1, h.trans h'.2⟩

/-- An operation that breaks nothing, with ordinary faults. -/
abbrev Braces (act : Storing α) (s : Store) (post : α → Store → Prop) : Prop :=
  bracing.Follows act s post

/-- An ordinary fault breaks nothing. -/
theorem throw_braces {fault : Fault} {post : α → Store → Prop} (h : fault.IsOrdinary) :
    Braces (throw fault) s post :=
  fun hs => ensures_throw.mpr ⟨h, .refl hs⟩

/-- A change of the store that breaks nothing. -/
theorem modify_braces {f : Store → Store} (h : s.Sturdy → s.Steadies (f s)) :
    Braces (modify f) s fun _ t => t = f s :=
  follows_modify h

theorem record_braces : Braces (record id) s fun r t =>
    t = s ∧ s.records[id.index]? = some r := by
  refine follows_get ?_
  cases hr : s.records[id.index]? with
  | some r => exact follows_pure ⟨rfl, rfl⟩
  | none => exact throw_braces trivial

/-- A missing result set is an ordinary fault. -/
theorem resultSet_braces : Braces (resultSet id) s fun _ t => t = s := by
  refine record_braces.bind fun r t _ _ ht => ?_
  obtain ⟨rfl, -⟩ := ht
  unfold Record.begunResultSet
  cases r.resultSet with
  | some hub => exact follows_pure rfl
  | none => exact throw_braces trivial

theorem hasInfo_braces {info : DefinitionInfo} : Braces (hasInfo id info) s fun _ t => t = s :=
  record_braces.bind fun _ _ _ _ ht => follows_pure ht.1

/-- A record may change while it stays who it is and keeps its labels. -/
theorem changeRecord_braces {f : Record → Record}
    (h : ∀ r, s.records[id.index]? = some r → r.Endures (f r) ∧ (r.Labelled → (f r).Labelled)) :
    Braces (changeRecord id f) s fun _ _ => True := by
  intro hs
  refine ensures_bind.mpr (ensures_discard.mpr ((record_braces hs).mono (fun r t ht => ?_)
    fun _ _ hfault => hfault))
  obtain ⟨-, rfl, hr⟩ := ht
  obtain ⟨hendures, hlabelled⟩ := h r hr
  exact ensures_modify.mpr ⟨hs.modify hr hendures (hlabelled (hs.records _ r hr)), trivial⟩

/-- Noted coordinates break nothing. -/
theorem addInfo_braces {info : DefinitionInfo} : Braces (addInfo id info) s fun _ _ => True := by
  refine changeRecord_braces fun r _ => ⟨(r.amends_addInfo info).toEndures, fun h => ?_⟩
  unfold Record.addInfo
  split
  · exact ⟨h.definition, h.reference⟩
  · exact h

/-- A record is written to. -/
theorem onRecord_braces {act : Ledger.Writing α} {post : α → Ledger → Prop}
    (h : ∀ r, s.records[id.index]? = some r → Ledger.Labels act ⟨r, s.graph⟩ post) :
    Braces (onRecord id act) s fun a _ => ∃ l, post a l := by
  intro hs
  cases hr : s.records[id.index]? with
  | none =>
      unfold onRecord record
      rw [ensures_bind, ensures_bind, ensures_get, hr]
      exact ensures_throw.mpr ⟨trivial, .refl hs⟩
  | some r =>
      refine (ensures_onRecord hr).mpr ((h r hr (hs.records _ r hr)).mono (fun a l hl => ?_)
        fun _ l hl => ?_)
      · exact ⟨hs.modify hr hl.1.endures hl.1.labelled, l, hl.2⟩
      · exact ⟨hl.1, hs.modify hr hl.2.endures hl.2.labelled⟩

/-- A new reference result has the label of one. -/
theorem referenceResult_braces :
    Braces (onRecord id Ledger.referenceResult) s fun _ _ => True :=
  (onRecord_braces fun _ _ => Ledger.referenceResult_labels).mono fun _ _ _ => trivial

/-- The sink may refuse what is emitted. -/
theorem emission_braces {act : Emission α} {post : α → Prop}
    (h : Ensures act s.graph (fun a _ => post a) fun fault _ => Graph.OfSink fault) :
    Braces (liftM act) s fun a t => t = { s with graph := t.graph } ∧ post a := by
  exact fun hs => ensures_onPart.mpr (h.mono (fun _ g ha => ⟨hs.write g, rfl, ha⟩)
    fun _ g hfault => ⟨hfault.isOrdinary, hs.write g⟩)

/-- A link breaks nothing, and only the sink can refuse it. -/
theorem link_braces {kind : LinkKind} {source target : ElementId} :
    Braces (discard (Graph.link kind source target) : Storing Unit) s fun _ _ => True :=
  ((emission_braces (Graph.edge_faults _ _)).mono fun _ _ _ => trivial).discard

/-- A document that is made has no containers. -/
theorem document_braces : Braces (document w file) s fun d t =>
    d.vertex.label = .document ∧ t.documents.get? file = some (.live d) := by
  refine follows_get ?_
  cases hslot : s.documents.get? file with
  | some slot =>
      cases slot with
      | live d => exact fun hs => ensures_pure.mpr ⟨.refl hs, hs.documents file d hslot, hslot⟩
      | cleared => exact throw_braces trivial
  | none =>
      refine (emission_braces (Graph.vertex_labels _ _)).bind fun v t _ _ ht => ?_
      obtain ⟨htgraph, hlabel⟩ := ht
      have hnone : t.depth file = 0 := by
        rw [htgraph]
        simp [Store.depth, hslot]
      refine (modify_braces fun ht => ?_).bind fun _ u _ _ hu => follows_pure ⟨hlabel, ?_⟩
      · exact ht.reshelve rfl hlabel hnone.symm
      · rw [hu]
        exact (Table.get?_insert _ _ _ _).trans (if_pos rfl)

/-- A range is added to a document, whose containers stay as they are. -/
theorem addRange_braces {range : ElementId} : Braces (addRange w file range) s fun _ _ => True := by
  refine document_braces.bind fun d t _ _ ht => ?_
  have hlabel : (d.addRange range).vertex.label = .document := ht.1
  exact (modify_braces fun hready =>
    hready.reshelve rfl hlabel (depth_of_live ht.2).symm).mono fun _ _ _ => trivial

theorem watch_braces : Braces (watch node id) s fun _ _ => True :=
  (modify_braces fun hs => hs.congr rfl rfl rfl rfl).mono fun _ _ _ => trivial

/-- A partition that is put in place changes nothing that the record is known by. -/
theorem putPartition_braces {partition : Partition} :
    Braces (changeRecord id fun record =>
      { record with partitions := record.partitions.insert file (.live partition) }) s
      fun _ _ => True :=
  changeRecord_braces fun _ _ =>
    ⟨⟨rfl, rfl, rfl, fun _ h => h⟩, fun h => ⟨h.definition, h.reference⟩⟩

/-- A partition comes with the document of its file, in which no container is open. -/
theorem ensurePartition_braces : Braces (ensurePartition w id file) s fun _ _ => True := by
  refine record_braces.bind fun r t _ _ _ => ?_
  split
  · exact follows_pure trivial
  · refine document_braces.bind fun d u _ _ _ => ?_
    exact putPartition_braces.bind fun _ _ _ _ _ => watch_braces

/-- A partition may change as it likes. -/
theorem changePartition_braces {f : Partition → Partition} :
    Braces (changePartition w id file f) s fun _ _ => True := by
  refine ensurePartition_braces.bind fun _ t _ _ _ => record_braces.bind fun r u _ _ _ => ?_
  split
  · exact putPartition_braces
  · exact throw_braces trivial

/-- A definition goes to a partition of its record. -/
theorem addOwnDefinition_braces {range : ElementId} {asReference : Bool} :
    Braces (addOwnDefinition w id file range asReference) s fun _ _ => True :=
  resultSet_braces.bind fun _ _ _ _ _ => link_braces.bind fun _ _ _ _ _ => changePartition_braces

/-- What an operation does once it knows that a record may be written to. -/
theorem whenOpen_braces {act : Record → Storing Unit}
    (h : ∀ r, s.records[id.index]? = some r → Braces (act r) s fun _ _ => True) :
    Braces (whenOpen id act) s fun _ _ => True := by
  refine record_braces.bind fun r t _ _ ht => ?_
  obtain ⟨rfl, hr⟩ := ht
  have hclosed {post : Unit → Store → Prop} : Braces (throw (.recordClosed r.key)) t post :=
    throw_braces trivial
  unfold Record.isOpen
  cases r.state with
  | opened => exact h r hr
  | unopened => exact hclosed
  | closed =>
      dsimp only
      split
      · exact hclosed
      · exact follows_pure trivial

/-- How many records come before a record, which need not be there. -/
def before (s : Store) (id : RecordId) : Nat := min id.index s.records.size

/-- The records that a record passes to are among those before it. -/
theorem Sturdy.lt_before (hs : s.Sturdy) {r : Record} (hr : s.records[id.index]? = some r)
    {ids : List RecordId} (hids : r.kind.passesTo = some ids) {other : RecordId}
    (hother : other ∈ ids) : other.index < s.before id := by
  have hearlier := hs.descends _ r hr ids hids other hother
  have hknown := (Array.getElem?_eq_some_iff.mp hr).1
  unfold Store.before
  omega

/-- A reference is passed on to earlier records only. -/
theorem passOn_braces {reference : Reference} {role : ReferenceRole}
    {ask : RecordId → Storing Unit}
    (h : ∀ other : RecordId, other.index < s.before id →
      ∀ t, Braces (ask other) t fun _ _ => True) :
    Braces (passOn w file reference role ask id) s fun _ _ => True := by
  refine whenOpen_braces fun r hr hs => ?_
  have hlater {ids : List RecordId} (hids : r.kind.passesTo = some ids) :
      ∀ other ∈ ids, ∀ t, Braces (ask other) t fun _ _ => True :=
    fun other hother => h other (hs.lt_before hr hids hother)
  split
  · rename_i hkind
    exact hlater (by rw [hkind]; rfl) _ List.mem_cons_self s hs
  · rename_i hkind
    exact Follows.forM (fun _ => True) _
      (fun base hbase t _ => hlater (by rw [hkind]; rfl) base hbase t) trivial hs
  · rename_i hkind
    exact Follows.forM (fun _ => True) _
      (fun element helement t _ => hlater (by rw [hkind]; rfl) element helement t) trivial hs
  · exact changePartition_braces hs

/-- **A chain of records ends**, because each leads to earlier ones. -/
theorem addReferenceWithin_braces {reference : Reference} {role : ReferenceRole} (fuel : Nat) :
    ∀ (id : RecordId) (s : Store), s.before id < fuel →
      Braces (addReferenceWithin w file reference role fuel id) s fun _ _ => True := by
  induction fuel with
  | zero => exact fun _ _ hlt => absurd hlt (Nat.not_lt_zero _)
  | succ fuel ih =>
      intro id s hlt
      refine passOn_braces fun other hother t => ih other t ?_
      have hle : t.before other ≤ other.index := Nat.min_le_left ..
      omega

/-- A reference is passed on to earlier and earlier records, so that ends within the bound. -/
theorem addReference_braces {reference : Reference} {role : ReferenceRole} :
    Braces (addReference w id file reference role) s fun _ _ => True :=
  follows_get (addReferenceWithin_braces _ id s (Nat.lt_succ_of_le (Nat.min_le_right ..)))

/-- A definition goes to a partition, and as a reference to earlier records. -/
theorem addDefinition_braces {range : ElementId} {asReference : Bool} :
    Braces (addDefinition w id file range asReference) s fun _ _ => True := by
  refine whenOpen_braces fun r _ => ?_
  split
  · exact addOwnDefinition_braces
  · exact addOwnDefinition_braces
  · refine resultSet_braces.bind fun _ _ _ _ _ => link_braces.bind fun _ _ _ _ _ => ?_
    exact addReference_braces
  · exact addOwnDefinition_braces
  · refine addOwnDefinition_braces.bind fun _ _ _ _ _ => ?_
    exact .forM (fun _ => True) _ (fun _ _ _ _ => addReference_braces) trivial
  · exact follows_pure trivial
  · exact follows_pure trivial

/-- The result set of an open record is linked to something. -/
theorem attach_braces {kind : LinkKind} {target : ElementId} :
    Braces (attach id kind target) s fun _ _ => True :=
  whenOpen_braces fun _ _ => resultSet_braces.bind fun _ _ _ _ _ => link_braces

/-- A hover text is a link from the result set. -/
theorem addHover_braces {hover : ElementId} : Braces (addHover id hover) s fun _ _ => True :=
  attach_braces

/-- A moniker is a link from the result set. -/
theorem addMoniker_braces {moniker : ElementId} :
    Braces (addMoniker id moniker) s fun _ _ => True :=
  attach_braces

/-! ### New records -/

/-- **A record that was just stored is opened** and tied to the records that it passes on to. -/
theorem begin_braces (h : ∀ r, s.records[id.index]? = some r →
    r.state = .unopened ∧ r.resultSet = none) : Braces (begin w id) s fun _ _ => True := by
  refine (onRecord_braces fun r hr =>
    Ledger.begin_labels (h r hr).1 (h r hr).2).bind fun hub t _ _ _ => ?_
  refine record_braces.bind fun r u _ _ _ => ?_
  split
  · exact resultSet_braces.bind fun _ _ _ _ _ => link_braces
  · refine referenceResult_braces.bind fun _ _ _ _ _ => ?_
    exact .forM (fun _ => True) _ (fun _ _ _ _ => addReference_braces) trivial
  · refine .forM (fun _ => True) _ (fun _ _ _ _ => ?_) trivial
    exact referenceResult_braces.bind fun _ _ _ _ _ => changePartition_braces
  · exact follows_pure trivial

/-- A record that passes on to earlier ones may be stored. -/
theorem Sturdy.push (hs : s.Sturdy) {key : SymbolKey} {kind : RecordKind} {scope : Option NodeId}
    (hlinks : ∀ ids, kind.passesTo = some ids → ∀ id ∈ ids, id.index < s.records.size) :
    (s.pushed { key, kind, scope }).Sturdy := by
  refine ⟨hs.project, hs.documents, fun i r hr => ?_, fun i r hr => ?_⟩
  · rcases getElem?_pushed.mp hr with hr | ⟨-, rfl⟩
    · exact hs.records i r hr
    · exact ⟨nofun, nofun⟩
  · rcases getElem?_pushed.mp hr with hr | ⟨rfl, rfl⟩
    · exact hs.descends i r hr
    · exact hlinks

/-- **A new record is stored**, and nothing else happens to the cache. -/
theorem insert_braces (hs : s.Sturdy) {key : SymbolKey} {kind : RecordKind} {scope : Option NodeId}
    (hlinks : ∀ ids, kind.passesTo = some ids → ∀ id ∈ ids, id.index < s.records.size) :
    Ensures (insert w { key, kind, scope }) s
      (fun id t => id = ⟨s.records.size⟩ ∧ (s.pushed { key, kind, scope }).Steadies t)
      fun fault t => fault.IsOrdinary ∧ (s.pushed { key, kind, scope }).Steadies t := by
  refine ensures_bind.mpr (ensures_get.mpr (ensures_bind.mpr (ensures_modify.mpr
    (ensures_bind.mpr ((begin_braces (fun r hr => ?_) (hs.push hlinks)).mono (fun _ t ht => ?_)
      fun _ _ hfault => hfault)))))
  · rcases getElem?_pushed.mp hr with hr | ⟨-, rfl⟩
    · have hlt := (Array.getElem?_eq_some_iff.mp hr).1
      exact absurd hlt (Nat.lt_irrefl _)
    · exact ⟨rfl, rfl⟩
  · exact ensures_pure.mpr ⟨rfl, ht.1⟩

/-! ### Containers -/

/-- One more container is open in the document of a file. -/
theorem beginContainer_braces (hs : s.Sturdy) {range : ElementId} :
    Ensures (beginContainer w file range) s
      (fun _ t => s.Maintains t ∧
        ∀ other, t.depth other = if other = file then s.depth file + 1 else s.depth other)
      fun fault t => fault.IsOrdinary ∧ s.Maintains t := by
  refine ensures_bind.mpr ((document_braces hs).mono (fun d t ht => ?_)
    fun _ _ h => ⟨h.1, h.2.toMaintains⟩)
  obtain ⟨hst, hlabel, hlive⟩ := ht
  refine ensures_modify.mpr ⟨hst.toMaintains.trans (hst.sturdy.shelve rfl fun d' hd' => ?_),
    fun other => ?_⟩
  · cases hd'
    exact hlabel
  · rw [depth_insert, ← hst.depth file, depth_of_live hlive]
    split
    · rfl
    · exact hst.depth other

/-- Closing a container leaves one less. -/
theorem endContainer_length {d : Document} {n : Nat} (h : d.containers.length = n + 1) :
    ∃ d', d.endContainer = .ok d' ∧ d'.vertex = d.vertex ∧ d'.containers.length = n := by
  unfold Document.endContainer
  cases hcontainers : d.containers with
  | nil => simp [hcontainers] at h
  | cons inner rest =>
      cases rest with
      | nil =>
          rw [hcontainers] at h
          exact ⟨_, rfl, rfl, Nat.succ.inj h⟩
      | cons outer others =>
          rw [hcontainers] at h
          exact ⟨_, rfl, rfl, Nat.succ.inj h⟩

/-- **One container less is open** in the document of a file, if there was any. -/
theorem endContainer_braces (hs : s.Sturdy) : Ensures (endContainer w file) s
    (fun _ t => s.Maintains t ∧ ∀ other, t.depth other =
      if other = file then s.depth file - 1 else s.depth other)
    fun fault t => s.Maintains t ∧
      (fault.IsOrdinary ∨ s.depth file = 0 ∧ fault.IsUnbalanced) := by
  refine ensures_bind.mpr ((document_braces hs).mono (fun d t ht => ?_)
    fun _ _ h => ⟨h.2.toMaintains, .inl h.1⟩)
  obtain ⟨hst, hlabel, hlive⟩ := ht
  have hdepth : s.depth file = d.containers.length := by
    rw [← hst.depth file, depth_of_live hlive]
  cases hlength : d.containers.length with
  | zero =>
      have hnone : d.endContainer = .error (.unbalancedContainers d.path) := by
        unfold Document.endContainer
        rw [List.length_eq_zero_iff.mp hlength]
      rw [hnone]
      exact ensures_bind.mpr (ensures_throw.mpr
        ⟨hst.toMaintains, .inr ⟨hdepth.trans hlength, trivial⟩⟩)
  | succ n =>
      obtain ⟨d', hd', hvertex, hn⟩ := endContainer_length hlength
      rw [hd']
      refine ensures_bind.mpr (ensures_ofExcept_ok.mpr (ensures_modify.mpr
        ⟨hst.toMaintains.trans (hst.sturdy.shelve rfl fun d₁ hd₁ => ?_), fun other => ?_⟩))
      · cases hd₁
        exact hvertex ▸ hlabel
      · rw [depth_insert, hdepth, hlength]
        split
        · exact hn
        · exact hst.depth other

/-! ### Closing -/

/-- When the walk leaves a node, only the keys of records local to it are cleared. -/
structure Clears (node : NodeId) (s t : Store) : Prop where
  sturdy  : t.Sturdy
  records : Renews Record.Endures s.records t.records
  depth   : ∀ file, t.depth file = s.depth file
  cache   : ∀ key, t.cache.get? key = s.cache.get? key ∨ t.cache.get? key = some .cleared ∧
    ∃ (i : Nat) (r : Record), s.records[i]? = some r ∧ r.key = key ∧ r.scope = some node

/-- Where the cache stays as it is, no key is cleared. -/
theorem Steadies.clears (h : s.Steadies t) : s.Clears node t :=
  ⟨h.sturdy, h.records, h.depth, fun key => .inl (by rw [h.cache])⟩

/-- Two steps that clear only keys local to the node do so together. -/
theorem Clears.trans (h : s.Clears node t) (h' : t.Clears node u) : s.Clears node u where
  sturdy := h'.sturdy
  records := h.records.trans Record.Endures.trans h'.records
  depth file := (h'.depth file).trans (h.depth file)
  cache key := by
    rcases h'.cache key with hsame | ⟨hcleared, i, r, hr, hkey, hscope⟩
    · rw [hsame]
      exact h.cache key
    · obtain ⟨r', hr', hendures⟩ := h.records.backward hr
      exact .inr ⟨hcleared, i, r', hr', hendures.key ▸ hkey, hendures.scope ▸ hscope⟩

/-- From a sturdy store an operation only clears keys of records local to a node, and only has
ordinary faults. -/
def clearing (node : NodeId) : Discipline Store Fault where
  ready := Sturdy
  steps := Clears node
  blames s fault t := fault.IsOrdinary ∧ s.Clears node t
  refl h := (Steadies.refl h).clears
  trans := Clears.trans
  keeps _ h := h.sturdy
  carries h h' := ⟨h'.1, h.trans h'.2⟩

/-- What breaks nothing clears no key. -/
theorem Braces.clears {act : Storing α} {post : α → Store → Prop} (h : Braces act s post) :
    (clearing node).Follows act s post :=
  fun hs => Ensures.mono (h hs) (fun _ _ ht => ⟨ht.1.clears, ht.2⟩)
    fun _ _ hfault => ⟨hfault.1, hfault.2.clears⟩

/-- A record is told that the walk has left a node. -/
theorem leave_clears : (clearing node).Follows (leave w node id) s fun _ _ => True := by
  refine (Braces.clears record_braces).bind fun r t _ _ ht => ?_
  obtain ⟨rfl, hr⟩ := ht
  dsimp only
  split
  · exact follows_pure trivial
  · split
    · rename_i hscope
      split
      · exact follows_pure trivial
      · refine (Braces.clears (onRecord_braces fun _ _ => Ledger.close_labels)).bind
          fun _ u htu _ _ => ?_
        -- The record is still the one that was asked for its key.
        obtain ⟨r', hr', hendures⟩ := htu.records.forward hr
        refine fun hu => ensures_modify.mpr ⟨⟨⟨hu.project, hu.documents, hu.records, hu.descends⟩,
          .refl Record.Endures.refl _, fun _ => rfl, fun key => ?_⟩, trivial⟩
        change (u.cache.insert r.key .cleared).get? key = _ ∨ _
        by_cases hkey : key = r.key
        · refine .inr ⟨(Table.get?_insert _ _ _ _).trans (if_pos hkey), _, r', hr', ?_, ?_⟩
          · exact hendures.key.trans hkey.symm
          · exact hendures.scope.trans hscope
        · exact .inl ((Table.get?_insert _ _ _ _).trans (if_neg hkey))
    · split
      · exact (Braces.clears (onRecord_braces fun _ _ => Ledger.endPartition_labels _)).mono
          fun _ _ _ => trivial
      · exact follows_pure trivial

/-- **The walk leaves a node**: only the keys of records local to it are cleared. -/
theorem nodeProcessed_clears :
    (clearing node).Follows (nodeProcessed w node) s fun _ _ => True := by
  refine follows_get ?_
  split
  · exact follows_pure trivial
  · refine (Braces.clears (modify_braces fun hs => hs.congr rfl rfl rfl rfl)).bind
      fun _ _ _ _ _ => ?_
    exact .forM (fun _ => True) _ (fun _ _ _ _ => leave_clears) trivial

/-- From a sturdy store documents may end, and no container is opened.  What is not an ordinary fault
is one about containers that were open. -/
def concluding : Discipline Store Fault where
  ready := Sturdy
  steps s t := s.Maintains t ∧ ∀ file, s.depth file = 0 → t.depth file = 0
  blames s fault t := s.Maintains t ∧
    (fault.IsOrdinary ∨ (∃ file, s.depth file ≠ 0) ∧ fault.IsUnbalanced)
  refl h := ⟨(Steadies.refl h).toMaintains, fun _ h => h⟩
  trans h h' := ⟨h.1.trans h'.1, fun file hfile => h'.2 file (h.2 file hfile)⟩
  keeps _ h := h.1.sturdy
  carries h h' := by
    refine ⟨h.1.trans h'.1, h'.2.imp_right fun ⟨⟨file, hfile⟩, hfault⟩ => ⟨⟨file, ?_⟩, hfault⟩⟩
    exact fun hzero => hfile (h.2 file hzero)

/-- What breaks nothing opens no container either. -/
theorem Braces.concludes {act : Storing α} {post : α → Store → Prop} (h : Braces act s post) :
    concluding.Follows act s post :=
  fun hs => Ensures.mono (h hs)
    (fun _ _ ht => ⟨⟨ht.1.toMaintains, fun file hfile => (ht.1.depth file).trans hfile⟩, ht.2⟩)
    fun _ _ hfault => ⟨hfault.2.toMaintains, .inl hfault.1⟩

theorem emitRanges_faults {d : Document} (hlabel : d.vertex.label = .document) (g : Graph) :
    Ensures d.emitRanges g (fun _ _ => True) fun fault _ => Graph.OfSink fault := by
  unfold Document.emitRanges
  split
  · trivial
  · exact ensures_discard.mpr (Graph.contains_faults (.inr hlabel) _ g)

theorem emitSymbols_faults {d : Document} {withSymbols : Bool} (g : Graph) :
    Ensures (d.emitSymbols withSymbols) g (fun _ _ => True) fun fault _ => Graph.OfSink fault := by
  unfold Document.emitSymbols
  split
  · refine ensures_bind.mpr ((Graph.vertex_labels _ g).mono (fun _ g' _ => ?_) fun _ _ h => h)
    exact ensures_discard.mpr (Graph.edge_faults _ g')
  · trivial

/-- A document without open containers says what it contains, unless the sink refuses that. -/
theorem finish_faults {d : Document} {withSymbols : Bool} (hlabel : d.vertex.label = .document)
    (hcontainers : d.containers = []) (g : Graph) :
    Ensures (d.finish withSymbols) g (fun _ _ => True) fun fault _ => Graph.OfSink fault := by
  unfold Document.finish
  rw [hcontainers]
  exact ensures_bind.mpr ((emitRanges_faults hlabel g).mono (fun _ g' _ => emitSymbols_faults g')
    fun _ _ hfault => hfault)

/-- **A document ends.**  It can say what it contains if no container is open in it. -/
theorem endDocument_concludes : concluding.Follows (endDocument w file) s fun _ _ => True := by
  refine follows_get ?_
  cases hslot : s.documents.get? file with
  | none => exact follows_pure trivial
  | some slot =>
      cases slot with
      | cleared =>
          have hthrow : Braces (throw (.documentCleared (w.program.shownFile file))) s
            fun (_ : Unit) _ => True := throw_braces trivial
          exact hthrow.concludes
      | live d =>
          intro hs
          have hended : s.Maintains { s with documents := s.documents.insert file .cleared } :=
            hs.shelve rfl nofun
          have hdepth (other : FileId) (hother : s.depth other = 0) :
              depth { s with documents := s.documents.insert file .cleared } other = 0 := by
            rw [depth_insert]
            split
            · rfl
            · exact hother
          have hwritten (g : Graph) : s.Maintains
              { s with graph := g, documents := s.documents.insert file .cleared } :=
            hended.trans (hended.sturdy.write g).toMaintains
          refine ensures_bind.mpr (ensures_modify.mpr (ensures_onPart.mpr ?_))
          -- With a container still open the document fails to end, and the depth of its file is not
          -- 0.
          by_cases hcontainers : d.containers = []
          · refine (finish_faults (hs.documents file d hslot) hcontainers _).mono
              (fun _ g _ => ⟨⟨hwritten g, hdepth⟩, trivial⟩) fun _ g hfault => ?_
            exact ⟨hwritten g, .inl hfault.isOrdinary⟩
          · have hthrow : d.finish w.documentSymbols
                = throw (.unbalancedContainers d.path) := by
              unfold Document.finish
              cases hopen : d.containers with
              | nil => exact absurd hopen hcontainers
              | cons inner outer => rfl
            rw [hthrow]
            refine ⟨hwritten _, .inr ⟨⟨file, fun hzero => hcontainers ?_⟩, trivial⟩⟩
            exact List.length_eq_zero_iff.mp ((depth_of_live hslot).symm.trans hzero)

/-- A record that is still open is closed; its faults are ordinary. -/
theorem closeIfOpen_braces : Braces (closeIfOpen id) s fun _ _ => True := by
  refine record_braces.bind fun r t _ _ _ => ?_
  split
  · exact (onRecord_braces fun _ _ => Ledger.close_labels).mono fun _ _ _ => trivial
  · exact follows_pure trivial

/-- The project says what it contains. -/
theorem finishProject_braces : Braces (Action.onPart
    (fun s => { project := s.project, graph := s.graph : Project.Ledger })
    (fun ledger s => { s with project := ledger.project, graph := ledger.graph })
    Project.finish : Storing Unit) s fun _ _ => True := by
  intro hs
  have hkeeps {project : Project} {graph : Graph} (hproject : project.vertex = s.project.vertex) :
      s.Steadies { s with project, graph } := by
    refine ⟨⟨⟨?_, hs.documents, hs.records, hs.descends⟩, .refl Record.Endures.refl _, rfl⟩,
      fun _ => rfl⟩
    exact hproject ▸ hs.project
  have hcontains := Graph.contains_faults (.inl hs.project) s.project.documents s.graph
  refine ensures_onPart.mpr ?_
  unfold Ensures Project.finish at *
  dsimp only
  by_cases hnone : s.project.documents.isEmpty = true
  · rw [if_pos hnone]
    exact ⟨hkeeps rfl, trivial⟩
  · rw [if_neg hnone]
    cases hrun : Graph.contains s.project.vertex s.project.documents s.graph with
    | ok a g => exact ⟨hkeeps rfl, trivial⟩
    | error fault g =>
        rw [hrun] at hcontains
        exact ⟨hcontains.isOrdinary, hkeeps rfl⟩

/-- **The project ends.** -/
theorem projectProcessed_concludes :
    concluding.Follows (projectProcessed w) s fun _ _ => True := by
  refine (Braces.concludes (modify_braces fun hs => hs.congr rfl rfl rfl rfl)).bind
    fun _ t _ _ _ => follows_get ?_
  refine Follows.bind (.forM (fun _ => True) _ (fun _ _ _ _ => closeIfOpen_braces.concludes)
    trivial) fun _ u _ _ _ => follows_get ?_
  refine Follows.bind (.forM (fun _ => True) _ (fun _ _ _ _ => endDocument_concludes) trivial)
    fun _ v _ _ _ => finishProject_braces.concludes

end SymbolGraph.Store
