import SymbolGraph.Proofs.Record.Draining
import SymbolGraph.Proofs.Store.Working

/-!
# Proofs — Store — edits

Between the making of a record and its end a store is only *edited*, over any sink and however an
operation ends: elements are added that list nothing, partitions of open records are opened and
filled, records are given results and told of nodes.  A partition is opened only for a file whose
document has not ended, and the record is then told when the walk leaves the file.

* `Store.Edits`: one edit; `Store.Edited`: any number.
* `Record.Revises`: what edits leave of a record.
* `Store.Handles`: an operation that edits, however it ends.
* `Store.addReference_handles`, `Store.addDefinition_handles` and the others: every operation that
  neither closes records nor deals with the cache edits.
* `Store.insert_admits`: a new record is stored open, and then edits follow.
-/

namespace SymbolGraph

open SymbolGraph.Action SymbolGraph.Discipline

/-! ### Records -/

namespace Record

/-- Only an open record says that it is open. -/
theorem isOpen_eq_true {r : Record} : r.isOpen = .ok true ↔ r.state = .opened := by
  unfold isOpen
  cases r.state with
  | opened => simp
  | unopened => simp
  | closed => cases r.kind.isStrict <;> simp

/-- What edits leave of a record: who it is and its state, and its partitions unless it is open. -/
structure Revises (r r' : Record) : Prop where
  key        : r'.key = r.key
  kind       : r'.kind = r.kind
  scope      : r'.scope = r.scope
  state      : r'.state = r.state
  resultSet  : r'.resultSet = r.resultSet
  partitions : r.state ≠ .opened → r'.partitions = r.partitions

theorem Revises.refl (r : Record) : r.Revises r := ⟨rfl, rfl, rfl, rfl, rfl, fun _ => rfl⟩

/-- Two revisions in a row leave what each of them leaves. -/
theorem Revises.trans {r r' r'' : Record} (h : r.Revises r') (h' : r'.Revises r'') :
    r.Revises r'' where
  key := h'.key.trans h.key
  kind := h'.kind.trans h.kind
  scope := h'.scope.trans h.scope
  state := h'.state.trans h.state
  resultSet := h'.resultSet.trans h.resultSet
  partitions hstate := (h'.partitions (h.state ▸ hstate)).trans (h.partitions hstate)

/-- A revised record is the same record. -/
theorem Revises.endures {r r' : Record} (h : r.Revises r') : r.Endures r' where
  key := h.key
  kind := h.kind
  scope := h.scope
  resultSet _ hv := h.resultSet.trans hv

/-- Noting coordinates revises the record. -/
theorem revises_addInfo (r : Record) (info : DefinitionInfo) : r.Revises (r.addInfo info) := by
  unfold addInfo
  split
  · exact ⟨rfl, rfl, rfl, rfl, rfl, fun _ => rfl⟩
  · exact .refl r

end Record

namespace Store

variable {α β : Type} {w : Setting} {s t u : Store} {id : RecordId} {file : FileId} {node : NodeId}

/-! ### Edits -/

section Renews

variable {change change' : Record → Record → Prop} {old mid new : Array Record}

/-- Where every record changed in one way, every record changed in a weaker one. -/
theorem Renews.mono (h : Renews change old new) (himp : ∀ r r', change r r' → change' r r') :
    Renews change' old new := by
  intro i
  have hi := h i
  generalize old[i]? = before at hi
  generalize new[i]? = after at hi
  cases hi with
  | none => exact .none
  | some hchange => exact .some (himp _ _ hchange)

/-- Where every record changed twice, it changed by both changes. -/
theorem Renews.trans (htrans : ∀ {r r' r''}, change r r' → change r' r'' → change r r'')
    (h : Renews change old mid) (h' : Renews change mid new) : Renews change old new := by
  intro i
  have hfirst := h i
  have hsecond := h' i
  generalize old[i]? = before at hfirst
  generalize mid[i]? = between at hfirst hsecond
  generalize new[i]? = after at hsecond
  cases hfirst with
  | none => exact hsecond
  | some hchange =>
      cases hsecond with
      | some hchange' => exact .some (htrans hchange hchange')

end Renews

/-- The store with a record told when the walk leaves a node. -/
def watching (s : Store) (node : NodeId) (id : RecordId) : Store :=
  let told := (s.watchers.get? node).getD []
  { s with watchers := s.watchers.insert node (if id ∈ told then told else told ++ [id]) }

/-- A record is to be told when the walk leaves a node. -/
def Tells (s : Store) (node : NodeId) (id : RecordId) : Prop :=
  id ∈ (s.watchers.get? node).getD []

/-- The store with an open partition of a record for a file. -/
def withPartition (s : Store) (id : RecordId) (file : FileId) (partition : Partition) : Store :=
  { s with records := s.records.modify id.index fun r =>
      { r with partitions := r.partitions.insert file (.live partition) } }

/-- One edit of a store. -/
inductive Edits (w : Setting) (s : Store) : Store → Prop
  /-- Elements are added that list nothing. -/
  | writes {graph : Graph} : s.graph.GrowsPlainly graph → Edits w s { s with graph }
  /-- Coordinates are noted. -/
  | notes {id : RecordId} {info : DefinitionInfo} :
      Edits w s { s with records := s.records.modify id.index fun r => r.addInfo info }
  /-- A record is given results. -/
  | grants {id : RecordId} {r : Record} {ledger : Ledger} : s.records[id.index]? = some r →
      Ledger.Grants ⟨r, s.graph⟩ ledger → Edits w s (s.putBack id ledger)
  /-- A partition of an open record is opened, for a file whose document has not ended. -/
  | opens {id : RecordId} {r : Record} {file : FileId} {partition : Partition} :
      s.records[id.index]? = some r → r.state = .opened → r.partitions.get? file = none →
      s.documents.get? file ≠ some .cleared →
      Edits w s ((s.withPartition id file partition).watching (w.program.root file) id)
  /-- A partition of an open record is filled. -/
  | fills {id : RecordId} {r : Record} {file : FileId} {old new : Partition} :
      s.records[id.index]? = some r → r.state = .opened →
      r.partitions.get? file = some (.live old) → Edits w s (s.withPartition id file new)
  /-- A record is to be told of a node. -/
  | watches {node : NodeId} {id : RecordId} : Edits w s (s.watching node id)
  /-- Documents come, change and end; those that have ended stay so. -/
  | files {project : Project} {documents : Table FileId (Slot Document)} :
      (∀ file, s.documents.get? file = some .cleared → documents.get? file = some .cleared) →
      (∀ file, s.documents.get? file ≠ none → documents.get? file ≠ none) →
      Edits w s { s with project, documents }

/-- Any number of edits. -/
abbrev Edited (w : Setting) : Store → Store → Prop := Relation.ReflTransGen (Edits w)

instance : IsPreorder Store (Edited w) where
  refl _ := .refl
  trans _ _ _ := Relation.ReflTransGen.trans

/-- Only the record that is named gets the partition. -/
theorem withPartition_records {partition : Partition} {i : Nat} :
    (s.withPartition id file partition).records[i]? = if id.index = i then s.records[i]?.map fun r =>
      { r with partitions := r.partitions.insert file (.live partition) } else s.records[i]? :=
  Array.getElem?_modify

/-- Opening or filling a partition revises only an open record. -/
theorem renews_partition {r : Record} {partition : Partition} (hr : s.records[id.index]? = some r)
    (hopen : r.state = .opened) :
    Renews Record.Revises s.records (s.withPartition id file partition).records := by
  refine .modify Record.Revises.refl fun r' hr' => ?_
  cases hr.symm.trans hr'
  exact ⟨rfl, rfl, rfl, rfl, rfl, fun hnot => absurd hopen hnot⟩

/-- Putting a record back changes that record by what was done to it, and no other. -/
theorem renews_putBack {r : Record} {ledger : Ledger} (hr : s.records[id.index]? = some r)
    {change : Record → Record → Prop} (hrefl : ∀ r, change r r) (h : change r ledger.record) :
    Renews change s.records (s.putBack id ledger).records := by
  refine .modify hrefl fun r' hr' => ?_
  cases hr.symm.trans hr'
  exact h

/-- An edit leaves of every record who it is. -/
theorem Edits.revises (h : Edits w s t) : Renews Record.Revises s.records t.records := by
  cases h with
  | notes => exact .modify Record.Revises.refl fun r _ => r.revises_addInfo _
  | grants hr hgrants =>
      obtain ⟨_, _, hrecord⟩ := hgrants.record
      refine renews_putBack hr Record.Revises.refl ?_
      rw [hrecord]
      exact ⟨rfl, rfl, rfl, rfl, rfl, fun _ => rfl⟩
  | opens hr hopen => exact renews_partition hr hopen
  | fills hr hopen => exact renews_partition hr hopen
  | _ => exact .refl Record.Revises.refl _

/-- No edit concerns the cache. -/
theorem Edits.cache (h : Edits w s t) : t.cache = s.cache := by
  cases h <;> rfl

/-- No edit makes a sink fail that takes everything. -/
theorem Edits.reliable (h : Edits w s t) (hs : s.graph.sink.IsReliable) :
    t.graph.sink.IsReliable := by
  cases h with
  | writes hgraph => exact hgraph.reliable hs
  | grants _ hgrants => exact hgrants.graph.reliable hs
  | _ => exact hs

namespace Edited

/-- By induction on the edits, each of which revises every record. -/
theorem revises (h : Edited w s t) : Renews Record.Revises s.records t.records := by
  induction h with
  | refl => exact .refl Record.Revises.refl _
  | tail _ hstep ih => exact ih.trans Record.Revises.trans hstep.revises

/-- By induction on the edits, none of which concerns the cache. -/
theorem cache (h : Edited w s t) : t.cache = s.cache := by
  induction h with
  | refl => rfl
  | tail _ hstep ih => exact hstep.cache.trans ih

/-- By induction on the edits, none of which makes the sink fail. -/
theorem reliable (h : Edited w s t) (hs : s.graph.sink.IsReliable) :
    t.graph.sink.IsReliable := by
  induction h with
  | refl => exact hs
  | tail _ hstep ih => exact hstep.reliable ih

/-- An open record stays open. -/
theorem isOpen (h : Edited w s t) (hs : s.IsOpen id) : t.IsOpen id := by
  obtain ⟨r, hr, hopen⟩ := hs
  obtain ⟨r', hr', hrevises⟩ := h.revises.forward hr
  exact ⟨r', hr', hrevises.state.trans hopen⟩

end Edited

/-! ### Operations that edit -/

/-- From any store an operation edits, and when it fails it has edited. -/
def editing (w : Setting) : Discipline Store Fault where
  ready _ := True
  steps := Edited w
  blames s _ t := Edited w s t
  refl _ := .refl
  trans := Relation.ReflTransGen.trans
  keeps _ _ := trivial
  carries := Relation.ReflTransGen.trans

/-- An operation that edits, however it ends. -/
abbrev Handles (w : Setting) (act : Storing α) (s : Store) (post : α → Store → Prop) : Prop :=
  (editing w).Follows act s post

/-- What an operation does whatever it finds. -/
theorem stays_of_handles {act : Storing α} {post : Store → α → Store → Prop}
    (h : ∀ s, Handles w act s (post s)) : Stays (Edited w) act :=
  fun s => (h s trivial).mono (fun _ _ ht => ht.1) fun _ _ ht => ht

/-- A change of the store that is one edit. -/
theorem edit_handles {f : Store → Store} (h : Edits w s (f s)) :
    Handles w (modify f) s fun _ t => t = f s :=
  follows_modify fun _ => .single h

/-- Failing edits nothing. -/
theorem throw_handles {fault : Fault} {post : α → Store → Prop} :
    Handles w (throw fault) s post :=
  follows_throw .refl

/-! #### Records -/

/-- A record is looked up without an edit. -/
theorem record_handles : Handles w (record id) s fun r t =>
    t = s ∧ s.records[id.index]? = some r := by
  refine follows_get ?_
  cases hr : s.records[id.index]? with
  | some r => exact follows_pure ⟨rfl, rfl⟩
  | none => exact throw_handles

/-- A result without state, and what is done with it. -/
theorem ofExcept_handles {result : Except Fault α} {f : α → Storing β} {post : β → Store → Prop}
    (h : ∀ a, result = .ok a → Handles w (f a) s post) :
    Handles w (Action.ofExcept result >>= f) s post := by
  cases result with
  | ok a => exact h a rfl
  | error fault => exact fun _ => ensures_bind.mpr (ensures_throw.mpr .refl)

/-- A result set is looked up without an edit. -/
theorem resultSet_handles : Handles w (resultSet id) s fun _ t => t = s := by
  refine record_handles.bind fun r t _ _ ht => ?_
  obtain ⟨rfl, -⟩ := ht
  cases r.begunResultSet with
  | ok hub => exact follows_pure rfl
  | error fault => exact throw_handles

theorem hasInfo_handles {info : DefinitionInfo} : Handles w (hasInfo id info) s fun _ t => t = s :=
  record_handles.bind fun _ _ _ _ ht => follows_pure ht.1

/-- Coordinates that are noted are one edit. -/
theorem addInfo_handles {info : DefinitionInfo} :
    Handles w (addInfo id info) s fun _ _ => True := by
  refine (record_handles.mono fun _ _ ht => ht.1).discard.bind fun _ t _ _ _ => ?_
  exact (edit_handles .notes).mono fun _ _ _ => trivial

/-- What is emitted is one edit, if it lists nothing. -/
theorem emission_handles {act : Emission α} (h : Stays Graph.GrowsPlainly act) :
    Handles w (liftM act) s fun _ t => t = { s with graph := t.graph } :=
  fun _ => ensures_onPart.mpr ((h s.graph).mono (fun _ _ hg => ⟨.single (.writes hg), rfl⟩)
    fun _ _ hg => .single (.writes hg))

/-- A link lists nothing. -/
theorem link_handles {kind : LinkKind} {source target : ElementId} :
    Handles w (discard (Graph.link kind source target) : Storing Unit) s
      fun _ t => t = { s with graph := t.graph } :=
  (emission_handles (Graph.link_grows _ _ _)).discard

/-- A record is asked for its reference result, whatever its state. -/
theorem referenceResult_handles :
    Handles w (onRecord id Ledger.referenceResult) s fun _ _ => True := by
  intro _
  cases hr : s.records[id.index]? with
  | none =>
      unfold onRecord record
      rw [ensures_bind, ensures_bind, ensures_get, hr]
      exact ensures_throw.mpr .refl
  | some r =>
      refine (ensures_onRecord hr).mpr ((Ledger.referenceResult_grants ⟨r, s.graph⟩).mono
        (fun _ ledger hledger => ?_) fun _ ledger hledger => ?_)
      · exact ⟨.single (.grants hr hledger.1), trivial⟩
      · exact .single (.grants hr hledger)

/-! #### Documents -/

/-- The document of a file is there once it was asked for, and has not ended. -/
theorem document_handles : Handles w (document w file) s fun d t =>
    t.documents.get? file = some (.live d) ∧ t.records = s.records := by
  refine follows_get ?_
  cases hslot : s.documents.get? file with
  | some slot =>
      cases slot with
      | live d => exact follows_pure ⟨hslot, rfl⟩
      | cleared => exact throw_handles
  | none =>
      refine (emission_handles (Graph.vertex_stays _)).bind fun v t _ _ ht => ?_
      have hold : t.documents = s.documents ∧ t.records = s.records := by
        rw [ht]
        exact ⟨rfl, rfl⟩
      refine (edit_handles (.files (fun other hother => ?_) fun other hother => ?_)).bind
        fun _ u _ _ hu => follows_pure ?_
      · have hne : other ≠ file := by
          rintro rfl
          rw [hold.1, hslot] at hother
          cases hother
        exact (get?_insert_of_ne _ other hne).trans hother
      · exact Table.get?_insert_ne_none hother
      · rw [hu]
        exact ⟨(Table.get?_insert _ _ _ _).trans (if_pos rfl), hold.2⟩

/-- A document that is live changes in place. -/
theorem putDocument_handles {known document : Document}
    (hlive : s.documents.get? file = some (.live known)) :
    Handles w (putDocument file document) s fun _ _ => True := by
  refine (edit_handles (.files (fun other hother => ?_) fun other hother => ?_)).mono
    fun _ _ _ => trivial
  · have hne : other ≠ file := by
      rintro rfl
      rw [hlive] at hother
      cases hother
    exact (get?_insert_of_ne _ other hne).trans hother
  · exact Table.get?_insert_ne_none hother

/-- A range is added to the document of its file, which may come with it. -/
theorem addRange_handles {range : ElementId} :
    Handles w (addRange w file range) s fun _ _ => True :=
  document_handles.bind fun _ _ _ _ ht => putDocument_handles ht.1

/-- A container is opened in the document of its file, which may come with it. -/
theorem beginContainer_handles {range : ElementId} :
    Handles w (beginContainer w file range) s fun _ _ => True :=
  document_handles.bind fun _ _ _ _ ht => putDocument_handles ht.1

/-- A container is closed in a document that is live, or nothing is edited. -/
theorem endContainer_handles : Handles w (endContainer w file) s fun _ _ => True := by
  refine document_handles.bind fun known t _ _ ht => ofExcept_handles fun _ _ => ?_
  exact putDocument_handles ht.1

theorem emitRanges_grows (known : Document) : Stays Graph.GrowsPlainly known.emitRanges := by
  unfold Document.emitRanges
  split
  · exact stays_pure
  · exact (Graph.contains_grows _ _).discard

theorem emitSymbols_grows (known : Document) (withSymbols : Bool) :
    Stays Graph.GrowsPlainly (known.emitSymbols withSymbols) := by
  unfold Document.emitSymbols
  split
  · exact (Graph.vertex_stays _).bind fun _ => (Graph.link_grows _ _ _).discard
  · exact stays_pure

/-- A document that ends adds what it contains and its symbols, and lists nothing. -/
theorem finish_grows (known : Document) (withSymbols : Bool) :
    Stays Graph.GrowsPlainly (known.finish withSymbols) := by
  have hemits := (emitRanges_grows known).bind fun _ => emitSymbols_grows known withSymbols
  unfold Document.finish
  dsimp only
  split
  · exact hemits
  · exact stays_throw.bind fun _ => hemits

/-- **A document that is there ends**, also when it cannot be finished or has ended before, and no
record changes. -/
theorem endDocument_ends (hthere : s.documents.get? file ≠ none) : Ensures (endDocument w file) s
    (fun _ t => Edited w s t ∧ t.records = s.records ∧ t.documents.get? file = some .cleared)
    fun _ t => Edited w s t ∧ t.records = s.records ∧ t.documents.get? file = some .cleared := by
  refine ensures_bind.mpr (ensures_get.mpr ?_)
  cases hslot : s.documents.get? file with
  | none => exact absurd hslot hthere
  | some slot =>
      cases slot with
      | cleared => exact ensures_throw.mpr ⟨.refl, rfl, hslot⟩
      | live known =>
          have hend : Edits w s
              { s with documents := s.documents.insert file .cleared, project := s.project } := by
            refine .files (fun other hother => ?_) fun other hother => ?_
            · rw [Table.get?_insert]
              split
              · rfl
              · exact hother
            · exact Table.get?_insert_ne_none hother
          have hended : (s.documents.insert file .cleared).get? file = some .cleared :=
            (Table.get?_insert _ _ _ _).trans (if_pos rfl)
          refine ensures_bind.mpr (ensures_modify.mpr (ensures_onPart.mpr
            ((finish_grows known w.documentSymbols _).mono (fun _ g hg => ?_) fun _ g hg => ?_)))
          · exact ⟨.tail (.single hend) (.writes hg), rfl, hended⟩
          · exact ⟨.tail (.single hend) (.writes hg), rfl, hended⟩

/-- The document of a file ends, and is ended from then on. -/
theorem endDocument_handles : Handles w (endDocument w file) s fun _ _ => True := by
  by_cases hthere : s.documents.get? file = none
  · refine follows_get ?_
    rw [hthere]
    exact follows_pure trivial
  · intro _
    exact (endDocument_ends hthere).mono (fun _ _ ht => ⟨ht.1, trivial⟩) fun _ _ ht => ht.1

/-! #### Collecting -/

/-- Watching a node is one edit. -/
theorem watch_handles : Handles w (watch node id) s fun _ t => t = s.watching node id :=
  edit_handles .watches

/-- A partition of an open record is opened, if there was none. -/
theorem ensurePartition_handles (hopen : s.IsOpen id) :
    Handles w (ensurePartition w id file) s fun _ t => t.IsOpen id := by
  refine record_handles.bind fun r t _ _ ht => ?_
  obtain ⟨rfl, hr⟩ := ht
  split
  · exact follows_pure hopen
  · rename_i hnone
    refine document_handles.bind fun d u htu _ hu => ?_
    obtain ⟨hlive, hrecords⟩ := hu
    have hru : u.records[id.index]? = some r := hrecords ▸ hr
    have hstate : r.state = .opened := by
      obtain ⟨r', hr', hstate⟩ := hopen
      cases hr.symm.trans hr'
      exact hstate
    have hempty : r.partitions.get? file = none := by
      simpa [Table.contains] using hnone
    -- The partition and the registration are one edit.
    intro _
    have hedit : Edits w u ((u.withPartition id file { document := d.vertex.id }).watching
        (w.program.root file) id) := by
      refine .opens hru hstate hempty fun hcleared => ?_
      cases hlive.symm.trans hcleared
    unfold changeRecord record watch
    refine ensures_bind.mpr (ensures_bind.mpr (ensures_discard.mpr
      (ensures_bind.mpr (ensures_get.mpr ?_))))
    rw [hru]
    exact ⟨.single hedit, Edited.isOpen (.single hedit) ⟨r, hru, hstate⟩⟩

/-- A partition of an open record is filled, if it has not ended. -/
theorem changePartition_handles (hopen : s.IsOpen id) {f : Partition → Partition} :
    Handles w (changePartition w id file f) s fun _ _ => True := by
  refine (ensurePartition_handles hopen).bind fun _ t _ _ ht => ?_
  refine record_handles.bind fun r u _ _ hu => ?_
  obtain ⟨rfl, hr⟩ := hu
  have hstate : r.state = .opened := by
    obtain ⟨r', hr', hstate⟩ := ht
    cases hr.symm.trans hr'
    exact hstate
  split
  · rename_i partition hlive
    refine (record_handles.mono fun _ _ hv => hv.1).discard.bind fun _ v _ _ hv => ?_
    subst hv
    exact (edit_handles (.fills hr hstate hlive)).mono fun _ _ _ => trivial
  · exact throw_handles

/-- An open record gets a result set link and a range in its partition. -/
theorem addOwnDefinition_handles (hopen : s.IsOpen id) {range : ElementId} {asReference : Bool} :
    Handles w (addOwnDefinition w id file range asReference) s fun _ _ => True := by
  refine resultSet_handles.bind fun hub t _ _ ht => ?_
  refine link_handles.bind fun _ u htu _ _ => ?_
  exact changePartition_handles (Edited.isOpen htu (ht ▸ hopen))

/-- An open record gets a reference in its partition. -/
theorem addOwnReference_handles (hopen : s.IsOpen id) {reference : Reference}
    {role : ReferenceRole} : Handles w (addOwnReference w id file reference role) s
      fun _ _ => True :=
  changePartition_handles hopen

/-- What an operation does once it knows that a record is open. -/
theorem whenOpen_handles {act : Record → Storing Unit}
    (h : ∀ r, s.records[id.index]? = some r → r.state = .opened →
      Handles w (act r) s fun _ _ => True) :
    Handles w (whenOpen id act) s fun _ _ => True := by
  refine record_handles.bind fun r t _ _ ht => ?_
  obtain ⟨rfl, hr⟩ := ht
  refine ofExcept_handles fun isOpen hopen => ?_
  cases isOpen with
  | false => exact follows_pure trivial
  | true => exact h r hr (Record.isOpen_eq_true.mp hopen)

/-- By induction on how far the reference is passed on: each record that collects it is open when it
does. -/
theorem addReferenceWithin_handles {reference : Reference} {role : ReferenceRole} (fuel : Nat) :
    ∀ (id : RecordId) (s : Store),
      Handles w (addReferenceWithin w file reference role fuel id) s fun _ _ => True := by
  induction fuel with
  | zero => exact fun _ _ => throw_handles
  | succ fuel ih =>
      intro id s
      refine whenOpen_handles fun r hr hopen => ?_
      split
      · exact ih _ s
      · exact .forM (fun _ => True) _ (fun base _ t _ => ih base t) trivial
      · exact .forM (fun _ => True) _ (fun element _ t _ => ih element t) trivial
      · exact addOwnReference_handles ⟨r, hr, hopen⟩

theorem addReference_handles {reference : Reference} {role : ReferenceRole} :
    Handles w (addReference w id file reference role) s fun _ _ => True :=
  follows_get (addReferenceWithin_handles _ id s)

/-- A definition edits the record, and those that get it as a reference. -/
theorem addDefinition_handles {range : ElementId} {asReference : Bool} :
    Handles w (addDefinition w id file range asReference) s fun _ _ => True := by
  refine whenOpen_handles fun r hr hopen => ?_
  have hown : s.IsOpen id := ⟨r, hr, hopen⟩
  split
  · exact addOwnDefinition_handles hown
  · exact addOwnDefinition_handles hown
  · refine resultSet_handles.bind fun hub t _ _ _ => link_handles.bind fun _ u _ _ _ => ?_
    exact addReference_handles
  · exact addOwnDefinition_handles hown
  · refine (addOwnDefinition_handles hown).bind fun _ t _ _ _ => ?_
    exact .forM (fun _ => True) _ (fun base _ u _ => addReference_handles) trivial
  · exact follows_pure trivial
  · exact follows_pure trivial

/-- The result set of an open record is linked to something. -/
theorem attach_handles {kind : LinkKind} {target : ElementId} :
    Handles w (attach id kind target) s fun _ _ => True :=
  whenOpen_handles fun _ _ _ => resultSet_handles.bind fun _ _ _ _ _ =>
    link_handles.mono fun _ _ _ => trivial

/-- A hover text adds a link and edits no record. -/
theorem addHover_handles {hover : ElementId} : Handles w (addHover id hover) s fun _ _ => True :=
  attach_handles

/-- A moniker adds a link and edits no record. -/
theorem addMoniker_handles {moniker : ElementId} :
    Handles w (addMoniker id moniker) s fun _ _ => True :=
  attach_handles

/-! #### New records -/

/-- A record is stored open, with its result set. -/
structure Admits (s : Store) (key : SymbolKey) (kind : RecordKind) (scope : Option NodeId)
    (hub : VertexRef) (t : Store) : Prop where
  graph : s.graph.GrowsPlainly t.graph
  store : t = { s.pushed { key, kind, scope, state := .opened, resultSet := some hub } with
    graph := t.graph }

/-- A record is stored, but the sink refused its result set. -/
structure Refuses (s : Store) (key : SymbolKey) (kind : RecordKind) (scope : Option NodeId)
    (t : Store) : Prop where
  graph  : s.graph.GrowsPlainly t.graph
  store  : t = { s.pushed { key, kind, scope } with graph := t.graph }
  faulty : ¬ s.graph.sink.IsReliable

/-- A record that was just stored is opened. -/
theorem begin_opens (key : SymbolKey) (kind : RecordKind) (scope : Option NodeId) (s : Store) :
    Ensures (onRecord ⟨s.records.size⟩ Ledger.begin) (s.pushed { key, kind, scope })
      (fun hub t => s.Admits key kind scope hub t) fun _ t => s.Refuses key kind scope t := by
  have hnew : (s.pushed { key, kind, scope }).records[s.records.size]?
      = some { key, kind, scope } := getElem?_pushed.mpr (.inr ⟨rfl, rfl⟩)
  have hlast (ledger : Ledger) :
      (s.records.push { key, kind, scope }).modify s.records.size (fun _ => ledger.record)
        = s.records.push ledger.record := by
    refine Array.ext_getElem? fun i => ?_
    rw [Array.getElem?_modify, Array.getElem?_push, Array.getElem?_push]
    by_cases hi : i = s.records.size
    · rw [if_pos hi.symm, if_pos hi, if_pos hi]
      rfl
    · rw [if_neg fun h => hi h.symm]
      rw [if_neg hi, if_neg hi]
  refine (ensures_onRecord hnew).mpr ((Ledger.begin_grows rfl).mono (fun hub ledger h => ?_)
    fun _ ledger h => ?_)
  · exact ⟨h.1, congrArg (fun records => { s.pushed { key, kind, scope } with
      graph := ledger.graph, records }) ((hlast ledger).trans (congrArg s.records.push h.2))⟩
  · exact ⟨h.1, congrArg (fun records => { s.pushed { key, kind, scope } with
      graph := ledger.graph, records }) ((hlast ledger).trans (congrArg s.records.push h.2.1)), h.2.2⟩

/-- A record that was just admitted is open. -/
theorem Admits.isOpen {key : SymbolKey} {kind : RecordKind} {scope : Option NodeId} {hub : VertexRef}
    (h : s.Admits key kind scope hub t) : t.IsOpen ⟨s.records.size⟩ := by
  rw [h.store]
  exact ⟨_, getElem?_pushed.mpr (.inr ⟨rfl, rfl⟩), rfl⟩

/-- An open record is tied to the records that it passes on to. -/
theorem tie_handles {hub : VertexRef} (hopen : s.IsOpen id) :
    Handles w (tie w id hub) s fun _ _ => True := by
  refine record_handles.bind fun r t _ _ ht => ?_
  obtain ⟨rfl, -⟩ := ht
  split
  · exact resultSet_handles.bind fun _ _ _ _ _ => link_handles.mono fun _ _ _ => trivial
  · refine referenceResult_handles.bind fun own u _ _ _ => ?_
    exact .forM (fun _ => True) _ (fun base _ v _ => addReference_handles) trivial
  · refine (Follows.forM (fun u : Store => u.IsOpen id) _ (fun element _ u hu => ?_) hopen).mono
      fun _ _ _ => trivial
    refine referenceResult_handles.bind fun result v huv _ _ => ?_
    have hv := Edited.isOpen huv hu
    exact (addOwnReference_handles hv).imp fun _ x hvx _ => Edited.isOpen hvx hv
  · exact follows_pure trivial

/-- **A new record is stored open, and then edits follow**; or the sink refused its result set. -/
theorem insert_admits (key : SymbolKey) (kind : RecordKind) (scope : Option NodeId) (s : Store) :
    Ensures (insert w { key, kind, scope }) s
      (fun id t => id = ⟨s.records.size⟩ ∧ ∃ hub u, s.Admits key kind scope hub u ∧ Edited w u t)
      fun _ t => (∃ hub u, s.Admits key kind scope hub u ∧ Edited w u t) ∨
        s.Refuses key kind scope t := by
  refine ensures_bind.mpr (ensures_get.mpr (ensures_bind.mpr (ensures_modify.mpr
    (ensures_bind.mpr (ensures_bind.mpr ((begin_opens key kind scope s).mono
      (fun hub u hu => ?_) fun _ _ hu => .inr hu))))))
  refine (tie_handles hu.isOpen trivial).mono (fun _ t ht => ?_) fun _ t ht => .inl ⟨hub, u, hu, ht⟩
  exact ensures_pure.mpr ⟨rfl, hub, u, hu, ht.1⟩

end Store

end SymbolGraph
