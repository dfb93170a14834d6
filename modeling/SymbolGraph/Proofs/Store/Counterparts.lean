import SymbolGraph.Proofs.Record.Counterparts
import SymbolGraph.Proofs.Store.Editing

/-!
# Proofs — Store — stores side by side

Two runs that are asked for different extras make the same records and documents in the same order
and treat them alike.  Extras are written in passing: they are linked to a record that is open, and
nothing is kept of them.

* `Setting.Similar`: settings that differ in what is asked for only.
* `Store.Matches`: stores with the same records and documents, under paired ids.
* `Store.addDefinition_alike`, `Store.insert_alike`, `Store.nodeProcessed_alike`,
  `Store.projectProcessed_alike` and the others: the operations on a store.
* `Store.IsReady`, `Store.attach_silent`: what an extra needs, and what it leaves.
-/

namespace SymbolGraph

open SymbolGraph.Action Counterparts

/-- Settings that differ in what is asked for only. -/
structure Setting.Similar (w w' : Setting) : Prop where
  program     : w'.program = w.program
  projectRoot : w'.projectRoot = w.projectRoot

namespace Store

variable {α β : Type} {V : Pairing → α → β → Prop} {ρ ρ' : Pairing} {w w' : Setting} {s t : Store}

/-! ### Stores that match -/

section Renews

variable {change : Record → Record → Prop} {old new : Array Record}

/-- One record changes on both sides. -/
theorem Renews.modifyBoth (h : Renews change old new) {i : Nat} {f f' : Record → Record}
    (hf : ∀ r r', change r r' → change (f r) (f' r')) :
    Renews change (old.modify i f) (new.modify i f') := by
  intro j
  have hj := h j
  rw [Array.getElem?_modify, Array.getElem?_modify]
  generalize old[j]? = before at hj
  generalize new[j]? = after at hj
  split
  · cases hj with
    | none => exact .none
    | some hchange => exact .some (hf _ _ hchange)
  · exact hj

/-- A record is added on both sides. -/
theorem Renews.push (h : Renews change old new) {r r' : Record} (hr : change r r') :
    Renews change (old.push r) (new.push r') := by
  intro i
  rw [Array.getElem?_push, Array.getElem?_push, h.size]
  split
  · exact .some hr
  · exact h i

end Renews

/-- Stores with the same records and documents, under paired ids. -/
structure Matches (ρ : Pairing) (s t : Store) : Prop where
  graph     : s.graph.Matches ρ t.graph
  project   : s.project.Matches ρ t.project
  records   : Renews (Record.Matches ρ) s.records t.records
  cache     : t.cache = s.cache
  documents : s.documents.Matches (Slot.Matches (Document.Matches ρ)) t.documents
  watchers  : t.watchers = s.watchers

instance : Counterparts Store := ⟨Matches⟩

/-- Records that match do so along every later pairing. -/
theorem records_later (h : Renews (Record.Matches ρ) s.records t.records) (hρ : ρ ≤ ρ') :
    Renews (Record.Matches ρ') s.records t.records :=
  h.mono fun _ _ hr => hr.later hρ

/-- Documents that match do so along every later pairing. -/
theorem documents_later (h : s.documents.Matches (Slot.Matches (Document.Matches ρ)) t.documents)
    (hρ : ρ ≤ ρ') : s.documents.Matches (Slot.Matches (Document.Matches ρ')) t.documents :=
  h.imp fun _ _ hslot => hslot.imp fun _ _ hd => hd.later hρ

/-- The graphs have taken more elements. -/
theorem Matches.regraph (h : s.Matches ρ t) (hρ : ρ ≤ ρ') {g g' : Graph} (hg : g.Matches ρ' g') :
    Matches ρ' { s with graph := g } { t with graph := g' } where
  graph := hg
  project := h.project.later hρ
  records := records_later h.records hρ
  cache := h.cache
  documents := documents_later h.documents hρ
  watchers := h.watchers

/-- What two graphs do alike, their stores do alike. -/
theorem emission_alike {act : Emission α} {act' : Emission β} (h : Alike ρ V act act') :
    Alike ρ V (liftM act : Storing α) (liftM act' : Storing β) :=
  h.onPart (fun _ _ _ _ hst => hst.graph) fun _ _ _ _ _ _ hρ hst hg => Matches.regraph hst hρ hg

/-- A plain link between ids that are paired may be delivered. -/
theorem link_alike {kind : LinkKind} {source source' target target' : ElementId}
    (hkind : kind.isExtra = false) (hsource : ρ source source') (htarget : ρ target target') :
    Alike ρ Same (discard (Graph.link kind source target) : Storing Unit)
      (discard (Graph.link kind source' target') : Storing Unit) :=
  (emission_alike (Graph.link_alike hkind hsource htarget)).discard

/-! ### Records -/

/-- The records of one id match, or there is none on either side. -/
theorem record_alike (id : RecordId) : Alike ρ Record.Matches (record id) (record id) := by
  refine alike_get.bind fun ρ₁ s t _ hst => ?_
  have hrecord := hst.records id.index
  generalize s.records[id.index]? = known at hrecord
  generalize t.records[id.index]? = known' at hrecord
  cases hrecord with
  | none => exact alike_throw
  | some hr => exact alike_pure fun _ hρ => hr.later hρ

/-- Both records may change, if they match after it. -/
theorem changeRecord_alike (id : RecordId) {f f' : Record → Record}
    (hf : ∀ ρ₁ r r', ρ ≤ ρ₁ → Record.Matches ρ₁ r r' → (f r).Matches ρ₁ (f' r')) :
    Alike ρ Same (changeRecord id f) (changeRecord id f') := by
  refine (record_alike id).discard.next fun _ => alike_modify fun ρ₁ s t hρ hst => ?_
  exact { hst with records := hst.records.modifyBoth fun r r' => hf ρ₁ r r' hρ }

/-- What two records do alike, their stores do alike, and both are put back. -/
theorem onRecord_alike (id : RecordId) {act : Ledger.Writing α} {act' : Ledger.Writing β}
    (h : Alike ρ V act act') : Alike ρ V (onRecord id act) (onRecord id act') := by
  refine (record_alike id).bind fun ρ₁ r r' hρ hr => (h.later hρ).onPart ?_ ?_
  · exact fun _ _ _ hρ' hst => ⟨hr.later hρ', hst.graph⟩
  · exact fun _ _ _ _ _ _ hρ' hst hl => { Matches.regraph hst hρ' hl.2 with
      records := (records_later hst.records hρ').modifyBoth fun _ _ _ => hl.1 }

/-- The result sets of one record are paired, or missing on both sides. -/
theorem resultSet_alike (id : RecordId) : Alike ρ VertexRef.Matches (resultSet id) (resultSet id) :=
  (record_alike id).bind fun _ _ _ _ hr => alike_ofExcept fun _ hρ => (hr.later hρ).begunResultSet

/-- Both records know the same coordinates. -/
theorem hasInfo_alike (id : RecordId) (info : DefinitionInfo) :
    Alike ρ Same (hasInfo id info) (hasInfo id info) := by
  refine (record_alike id).bind fun _ r r' _ hr => alike_pure fun _ _ => ?_
  show r.hasInfo info = r'.hasInfo info
  unfold Record.hasInfo
  rw [hr.definitionInfos]

theorem addInfo_alike (id : RecordId) (info : DefinitionInfo) :
    Alike ρ Same (addInfo id info) (addInfo id info) :=
  changeRecord_alike id fun _ _ _ _ hr => hr.addInfo info

/-- What is done with a record that is open. -/
theorem whenOpen_alike {id : RecordId} {act act' : Record → Storing Unit}
    (h : ∀ ρ₁ r r', ρ ≤ ρ₁ → Record.Matches ρ₁ r r' → Alike ρ₁ Same (act r) (act' r')) :
    Alike ρ Same (whenOpen id act) (whenOpen id act') := by
  refine (record_alike id).bind fun ρ₁ r r' hρ hr => ?_
  rw [hr.isOpen]
  exact alike_ofExcept_same.next fun isOpen =>
    alike_ite (fun _ => h ρ₁ r r' hρ hr) fun _ => alike_same

/-! ### The cache -/

/-- Both caches have the same slot for a key. -/
theorem lookup_alike (key : SymbolKey) : Alike ρ Same (lookup key) (lookup key) := by
  refine alike_get.bind fun ρ₁ s t _ hst => ?_
  rw [hst.cache]
  cases s.cache.get? key with
  | none => exact alike_same
  | some slot =>
      cases slot with
      | live id => exact alike_same
      | resolving => exact alike_throw
      | cleared => exact alike_throw

/-- Both caches get the same slot. -/
theorem mark_alike (key : SymbolKey) (slot : CacheSlot) :
    Alike ρ Same (mark key slot) (mark key slot) :=
  alike_modify fun _ _ _ _ hst => { hst with
    cache := congrArg (fun cache => Table.insert cache key slot) hst.cache }

/-- Both reservations are given up, or neither. -/
theorem abandon_alike (key : SymbolKey) : Alike ρ Same (abandon key) (abandon key) := by
  refine alike_modify fun _ s t _ hst => ?_
  rw [hst.cache]
  split
  · exact { hst with cache := rfl }
  · exact hst

/-! ### Documents -/

section Documents

variable (hw : w.Similar w')

include hw

/-- The documents of one file match, new ones with paired ids. -/
theorem document_alike (file : FileId) :
    Alike ρ Document.Matches (document w file) (document w' file) := by
  unfold document
  rw [hw.program, hw.projectRoot]
  refine alike_get.bind fun ρ₁ s t _ hst => ?_
  have hslot := hst.documents.get? file
  generalize s.documents.get? file = slot at hslot
  generalize t.documents.get? file = slot' at hslot
  cases hslot with
  | some hslot =>
      cases hslot with
      | live hd => exact alike_pure fun _ hρ => hd.later hρ
      | cleared => exact alike_throw
  | none =>
      refine (emission_alike (Graph.vertex_alike _ rfl)).bind fun ρ₂ v v' _ hv => ?_
      have hnew (ρ₃ : Pairing) (hρ : ρ₂ ≤ ρ₃) (path : String) (isExternal : Bool)
          (modulePath : Option String) : Document.Matches ρ₃
            { file, path, vertex := v, isExternal, modulePath }
            { file, path, vertex := v', isExternal, modulePath } :=
        ⟨rfl, hv.later hρ, .nil, rfl⟩
      refine (alike_modify fun ρ₃ u u' hρ hu => ?_).next fun _ =>
        alike_pure fun ρ₃ hρ => hnew ρ₃ hρ _ _ _
      exact { hu with
        project := ⟨hu.project.vertex, List.rel_append hu.project.documents
          (.cons (hρ _ _ hv.id) .nil)⟩
        documents := hu.documents.insert (.live (hnew ρ₃ hρ _ _ _)) }

omit hw in
/-- Documents that match may be put in place of those that do. -/
theorem putDocument_alike (file : FileId) {d d' : Document} (hd : d.Matches ρ d') :
    Alike ρ Same (putDocument file d) (putDocument file d') :=
  alike_modify fun _ _ _ hρ hst => { hst with
    documents := hst.documents.insert (.live (hd.later hρ)) }

/-- Both documents get a range, under ids that are paired. -/
theorem addRange_alike (file : FileId) {range range' : ElementId} (hrange : ρ range range') :
    Alike ρ Same (addRange w file range) (addRange w' file range') :=
  (document_alike hw file).bind fun _ _ _ hρ hd =>
    putDocument_alike file (hd.addRange (hρ _ _ hrange))

/-- Both documents open a container; whose range it is does not matter. -/
theorem beginContainer_alike (file : FileId) (range range' : ElementId) :
    Alike ρ Same (beginContainer w file range) (beginContainer w' file range') :=
  (document_alike hw file).bind fun _ _ _ _ hd =>
    putDocument_alike file (hd.beginContainer range range')

/-- Both documents close a container, or both have none. -/
theorem endContainer_alike (file : FileId) :
    Alike ρ Same (endContainer w file) (endContainer w' file) := by
  refine (document_alike hw file).bind fun ρ₁ d d' _ hd => ?_
  refine Alike.bind (alike_ofExcept fun _ hρ => (hd.later hρ).endContainer) fun _ _ _ _ hd' => ?_
  exact putDocument_alike file hd'

/-- **A document ends**, with its symbols or without. -/
theorem endDocument_alike (file : FileId) :
    Alike ρ Same (endDocument w file) (endDocument w' file) := by
  unfold endDocument
  rw [hw.program]
  refine alike_get.bind fun ρ₁ s t _ hst => ?_
  have hslot := hst.documents.get? file
  generalize s.documents.get? file = slot at hslot
  generalize t.documents.get? file = slot' at hslot
  cases hslot with
  | none => exact alike_same
  | some hslot =>
      cases hslot with
      | cleared => exact alike_throw
      | live hd =>
          refine (alike_modify fun _ _ _ _ hu => ?_).next fun _ =>
            emission_alike (Document.finish_alike hd _ _)
          exact { hu with documents := hu.documents.insert .cleared }

/-! ### Collecting -/

omit hw in
/-- Both stores are to tell the same record. -/
theorem watch_alike (node : NodeId) (id : RecordId) :
    Alike ρ Same (watch node id) (watch node id) := by
  refine alike_modify fun _ s t _ hst => ?_
  rw [hst.watchers]
  exact { hst with watchers := rfl }

/-- Both records have a partition for the file, or get one that is empty. -/
theorem ensurePartition_alike (id : RecordId) (file : FileId) :
    Alike ρ Same (ensurePartition w id file) (ensurePartition w' id file) := by
  refine (record_alike id).bind fun ρ₁ r r' _ hr => ?_
  rw [hr.partitions.contains, hw.program]
  refine alike_ite (fun _ => alike_same) fun _ => ?_
  refine (document_alike hw file).bind fun ρ₂ d d' _ hd => ?_
  refine (changeRecord_alike id fun ρ₃ u u' hρ hu => ?_).next fun _ => watch_alike _ id
  exact hu.insert (.live ⟨hρ _ _ hd.vertex.id, .nil, .nil, .nil, .nil, .nil⟩)

/-- Both partitions may change, if they match after it. -/
theorem changePartition_alike (id : RecordId) (file : FileId) {f f' : Partition → Partition}
    (hf : ∀ ρ₁ p p', ρ ≤ ρ₁ → Partition.Matches ρ₁ p p' → (f p).Matches ρ₁ (f' p')) :
    Alike ρ Same (changePartition w id file f) (changePartition w' id file f') := by
  refine (ensurePartition_alike hw id file).next fun _ => ?_
  refine (record_alike id).bind fun ρ₁ r r' hρ₁ hr => ?_
  rw [hr.key, hw.program]
  have hslot := hr.partitions.get? file
  generalize r.partitions.get? file = slot at hslot
  generalize r'.partitions.get? file = slot' at hslot
  cases hslot with
  | none => exact alike_throw
  | some hslot =>
      cases hslot with
      | cleared => exact alike_throw
      | live hp =>
          refine changeRecord_alike id fun ρ₂ u u' hρ₂ hu => ?_
          exact hu.insert (.live (hf ρ₂ _ _ (le_trans hρ₁ hρ₂) (hp.later hρ₂)))

/-- A definition is collected on both sides, under ids that are paired. -/
theorem addOwnDefinition_alike (id : RecordId) (file : FileId) {range range' : ElementId}
    (hrange : ρ range range') (asReference : Bool) :
    Alike ρ Same (addOwnDefinition w id file range asReference)
      (addOwnDefinition w' id file range' asReference) := by
  refine (resultSet_alike id).bind fun ρ₁ hub hub' hρ₁ hhub => ?_
  refine (link_alike rfl (hρ₁ _ _ hrange) hhub.id).next fun _ => ?_
  refine changePartition_alike hw id file fun ρ₂ p p' hρ₂ hp => ?_
  exact hp.addDefinition (hρ₂ _ _ (hρ₁ _ _ hrange)) asReference

/-- A reference is collected on both sides, under ids that are paired. -/
theorem addOwnReference_alike (id : RecordId) (file : FileId) {reference reference' : Reference}
    (hreference : reference.Matches ρ reference') (role : ReferenceRole) :
    Alike ρ Same (addOwnReference w id file reference role)
      (addOwnReference w' id file reference' role) :=
  changePartition_alike hw id file fun _ _ _ hρ hp => hp.addReference (hreference.later hρ) role

/-- By induction on how far the reference is passed on: the kinds are the same on both sides, so it
takes the same way. -/
theorem addReferenceWithin_alike (file : FileId) (role : ReferenceRole) (fuel : Nat) :
    ∀ {ρ : Pairing} {reference reference' : Reference} (id : RecordId),
      reference.Matches ρ reference' → Alike ρ Same
        (addReferenceWithin w file reference role fuel id)
        (addReferenceWithin w' file reference' role fuel id) := by
  induction fuel with
  | zero => exact fun _ _ => alike_throw
  | succ fuel ih =>
      intro ρ reference reference' id hreference
      refine whenOpen_alike fun ρ₁ r r' hρ hr => ?_
      have hown := addOwnReference_alike hw id file (hreference.later hρ) role
      have hpass (records : List RecordId) : Alike ρ₁ Same
          (records.forM fun other => addReferenceWithin w file reference role fuel other)
          (records.forM fun other => addReferenceWithin w' file reference' role fuel other) :=
        .forEach fun other => ih other (hreference.later hρ)
      rw [hr.kind]
      cases r.kind with
      | aliased target renames => exact ih target (hreference.later hρ)
      | standard => exact hown
      | transient => exact hown
      | method bases anchor =>
          cases bases with
          | nil => exact hown
          | cons base bases =>
              cases hreference with
              | range => exact hpass (base :: bases)
              | result => exact hown
      | composite elements anchor =>
          cases hreference with
          | range => exact hpass elements
          | result => exact hown

/-- A reference takes the same way on both sides, as far as there are records. -/
theorem addReference_alike (id : RecordId) (file : FileId) {reference reference' : Reference}
    (hreference : reference.Matches ρ reference') (role : ReferenceRole) :
    Alike ρ Same (addReference w id file reference role)
      (addReference w' id file reference' role) := by
  refine alike_get.bind fun ρ₁ s t hρ hst => ?_
  rw [hst.records.size]
  exact addReferenceWithin_alike hw file role _ id (hreference.later hρ)

/-- A definition is passed on to the same records on both sides. -/
theorem addDefinition_alike (id : RecordId) (file : FileId) {range range' : ElementId}
    (hrange : ρ range range') (asReference : Bool) :
    Alike ρ Same (addDefinition w id file range asReference)
      (addDefinition w' id file range' asReference) := by
  refine whenOpen_alike fun ρ₁ r r' hρ hr => ?_
  have hown := addOwnDefinition_alike hw id file (hρ _ _ hrange)
  rw [hr.kind]
  cases r.kind with
  | standard => exact hown asReference
  | transient => exact alike_same
  | composite elements anchor => exact alike_same
  | aliased target renames =>
      cases renames with
      | true => exact hown false
      | false =>
          refine (resultSet_alike id).bind fun ρ₂ hub hub' hρ₂ hhub => ?_
          refine (link_alike rfl (hρ₂ _ _ (hρ _ _ hrange)) hhub.id).next fun _ => ?_
          exact addReference_alike hw target file (.range (hρ₂ _ _ (hρ _ _ hrange))) _
  | method bases anchor =>
      cases bases with
      | nil => exact hown asReference
      | cons base bases =>
          refine (hown false).next fun _ => .forEach fun other => ?_
          exact addReference_alike hw other file (.range (hρ _ _ hrange)) _

/-! ### New records -/

/-- Both records begin with a result set, and are linked to the same records. -/
theorem begin_alike (id : RecordId) : Alike ρ Same (begin w id) (begin w' id) := by
  refine (onRecord_alike id Ledger.begin_alike).bind fun ρ₁ hub hub' _ hhub => ?_
  refine (record_alike id).bind fun ρ₂ r r' hρ₂ hr => ?_
  rw [hr.kind]
  cases r.kind with
  | standard => exact alike_same
  | transient => exact alike_same
  | aliased target renames =>
      refine (resultSet_alike target).bind fun ρ₃ next next' hρ₃ hnext => ?_
      exact link_alike rfl (hρ₃ _ _ (hρ₂ _ _ hhub.id)) hnext.id
  | method bases anchor =>
      cases bases with
      | nil => exact alike_same
      | cons base bases =>
          refine (onRecord_alike id Ledger.referenceResult_alike).bind fun ρ₃ own own' _ hown => ?_
          exact .forEach fun other => addReference_alike hw other anchor (.result hown.id) _
  | composite elements anchor =>
      refine .forEach fun element => ?_
      refine (onRecord_alike element Ledger.referenceResult_alike).bind fun ρ₃ v v' _ hv => ?_
      exact addOwnReference_alike hw id anchor (.result hv.id) _

/-- **A record is stored and begun.** -/
theorem insert_alike (key : SymbolKey) (kind : RecordKind) (scope : Option NodeId) :
    Alike ρ Same (insert w { key, kind, scope }) (insert w' { key, kind, scope }) := by
  refine alike_get.bind fun ρ₁ s t _ hst => ?_
  rw [hst.records.size]
  refine (alike_modify fun ρ₂ u u' _ hu => ?_).next fun _ =>
    (begin_alike hw _).next fun _ => alike_same
  rw [hu.cache]
  exact { hu with
    cache := rfl
    records := hu.records.push ⟨rfl, rfl, rfl, rfl, .none, .none, .none, rfl, Table.matches_empty⟩ }

/-! ### Closing -/

/-- A record that is local to the node lists what it collected, on both sides. -/
theorem leave_alike (node : NodeId) (id : RecordId) :
    Alike ρ Same (leave w node id) (leave w' node id) := by
  unfold leave
  rw [hw.program]
  refine (record_alike id).bind fun ρ₁ r r' _ hr => ?_
  dsimp only
  rw [hr.state, hr.scope, hr.key]
  refine alike_ite (fun _ => alike_same) fun _ => alike_ite (fun _ => ?_) fun _ => ?_
  · refine alike_ite (fun _ => alike_same) fun _ => ?_
    exact (onRecord_alike id Ledger.close_alike).next fun _ => mark_alike _ _
  · exact alike_ite (fun _ => onRecord_alike id (Ledger.endPartition_alike _)) fun _ => alike_same

/-- The same records are told that the walk has left a node. -/
theorem nodeProcessed_alike (node : NodeId) :
    Alike ρ Same (nodeProcessed w node) (nodeProcessed w' node) := by
  refine alike_get.bind fun ρ₁ s t _ hst => ?_
  rw [hst.watchers]
  cases s.watchers.get? node with
  | none => exact alike_same
  | some told =>
      refine (alike_modify fun _ u u' _ hu => ?_).next fun _ => .forEach (leave_alike hw node)
      exact { hu with watchers := congrArg (fun watchers => Table.erase watchers node) hu.watchers }

omit hw in
/-- Both records are closed, or both were. -/
theorem closeIfOpen_alike (id : RecordId) : Alike ρ Same (closeIfOpen id) (closeIfOpen id) := by
  refine (record_alike id).bind fun ρ₁ r r' _ hr => ?_
  rw [hr.state]
  exact alike_ite (fun _ => onRecord_alike id Ledger.close_alike) fun _ => alike_same

omit hw in
/-- The same documents have not ended. -/
theorem Matches.openDocuments (h : s.Matches ρ t) : t.openDocuments = s.openDocuments := by
  have hdocuments := h.documents
  unfold Store.openDocuments
  unfold Table.Matches at hdocuments
  generalize s.documents.entries = entries at *
  generalize t.documents.entries = entries' at *
  induction hdocuments with
  | nil => rfl
  | @cons e e' _ _ he _ ih =>
      obtain ⟨key, slot⟩ := e
      obtain ⟨key', slot'⟩ := e'
      obtain ⟨hkey, hslot⟩ := he
      cases hslot with
      | live => exact congrArg₂ List.cons hkey ih
      | cleared => exact ih

/-- **The project ends.** -/
theorem projectProcessed_alike : Alike ρ Same (projectProcessed w) (projectProcessed w') := by
  refine Alike.next (alike_modify ?_) fun _ => ?_
  · exact fun _ _ _ _ hst => { hst with watchers := rfl }
  refine alike_get.bind fun ρ₁ s t _ hst => ?_
  rw [hst.records.size]
  refine (Alike.forEach fun index => closeIfOpen_alike ⟨index⟩).next fun _ => ?_
  refine alike_get.bind fun ρ₂ u v _ huv => ?_
  rw [Matches.openDocuments huv]
  refine (Alike.forEach (endDocument_alike hw)).next fun _ => Project.finish_alike.onPart ?_ ?_
  · exact fun _ _ _ _ hst => ⟨hst.project, hst.graph⟩
  · exact fun _ _ _ _ _ _ hρ hst hl => { Matches.regraph hst hρ hl.2 with project := hl.1 }

end Documents

/-! ### Extras -/

/-- A record is open and has its result set. -/
def IsReady (s : Store) (id : RecordId) : Prop :=
  ∃ r hub, s.records[id.index]? = some r ∧ r.state = .opened ∧ r.resultSet = some hub

/-- A record stays ready under edits. -/
theorem IsReady.edited {id : RecordId} (h : s.IsReady id) (hedited : Edited w s t) :
    t.IsReady id := by
  obtain ⟨r, hub, hr, hstate, hhub⟩ := h
  obtain ⟨r', hr', hrevises⟩ := hedited.revises.forward hr
  exact ⟨r', hub, hr', hrevises.state.trans hstate, hrevises.resultSet.trans hhub⟩

/-- A record that was just admitted is ready. -/
theorem Admits.isReady {key : SymbolKey} {kind : RecordKind} {scope : Option NodeId}
    {hub : VertexRef} (h : s.Admits key kind scope hub t) : t.IsReady ⟨s.records.size⟩ := by
  rw [h.store]
  exact ⟨_, hub, getElem?_pushed.mpr (.inr ⟨rfl, rfl⟩), rfl, rfl⟩

/-- A record is ready on both sides. -/
theorem Matches.isReady (h : s.Matches ρ t) {id : RecordId} (hs : s.IsReady id) : t.IsReady id := by
  obtain ⟨r, hub, hr, hstate, hhub⟩ := hs
  obtain ⟨r', hr', hmatches⟩ := h.records.forward hr
  have hset := hmatches.resultSet
  rw [hhub] at hset
  cases hset' : r'.resultSet with
  | none =>
      rw [hset'] at hset
      cases hset
  | some hub' => exact ⟨r', hub', hr', hmatches.state.trans hstate, hset'⟩

/-- A store whose graph has taken extras only. -/
def Silently (s t : Store) : Prop := ∃ g, t = { s with graph := g } ∧ s.graph.Silently g

/-- An extra is linked to a record that is open. -/
theorem attach_silent (hg : s.graph.sink.IsPlain) {id : RecordId} (hs : s.IsReady id)
    {kind : LinkKind} (hkind : kind.isExtra = true) (target : ElementId) :
    Ensures (attach id kind target) s (fun _ t => s.Silently t) fun _ _ => False := by
  obtain ⟨r, hub, hr, hstate, hhub⟩ := hs
  have hopen : r.isOpen = .ok true := Record.isOpen_eq_true.mpr hstate
  have hset : r.begunResultSet = .ok hub := by
    unfold Record.begunResultSet
    rw [hhub]
  refine ensures_bind.mpr (ensures_bind.mpr (ensures_get.mpr ?_))
  rw [hr]
  refine ensures_pure.mpr (ensures_bind.mpr ?_)
  rw [hopen]
  refine ensures_ofExcept_ok.mpr (ensures_bind.mpr (ensures_bind.mpr (ensures_bind.mpr
    (ensures_get.mpr ?_))))
  rw [hr]
  refine ensures_pure.mpr ?_
  rw [hset]
  refine ensures_ofExcept_ok.mpr (ensures_discard.mpr (ensures_onPart.mpr ?_))
  exact (Graph.link_silent hg hkind hub.id target).mono (fun _ g hlink => ⟨g, rfl, hlink⟩)
    fun _ _ hfalse => hfalse

end Store

end SymbolGraph
