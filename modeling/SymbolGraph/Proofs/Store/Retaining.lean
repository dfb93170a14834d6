import SymbolGraph.Proofs.Action
import SymbolGraph.Store.LifeCycle

/-!
# Proofs — Store — what nearly every operation leaves alone

Only the store's dealings with the cache and the opening of a record change who is who: which symbol
has which record, and which result set is whose.  All other operations leave the cache alone, the
keys and result sets of records, and the result sets that were delivered, however they end.

* `hubsIn`: the result sets among elements.
* `Graph.Retains`, `Ledger.Retains`, `Store.Retains`: who is who stays as it was.
* `Store.addReference_retains`, `Store.addDefinition_retains` and the others: every operation but
  `Store.mark`, `Store.abandon`, `Store.insert` and what uses them retains.
-/

namespace SymbolGraph

open SymbolGraph.Action

/-- A result set, by its id. -/
def Element.hub? : Element → Option ElementId
  | .vertex id .resultSet => some id
  | _                     => none

/-- The result sets among elements. -/
def hubsIn (elements : List Element) : List ElementId := elements.filterMap Element.hub?

/-- An element arrives in a sink as a whole or not at all. -/
theorem Sink.emit_elements (e : Element) (sink : Sink) :
    Ensures (Sink.emit e) sink
      (fun _ later => later.elements = sink.elements ++ [e] ∨ later.elements = sink.elements)
      fun _ later => later.elements = sink.elements := by
  unfold Sink.emit
  refine ensures_bind.mpr (ensures_get.mpr ?_)
  cases sink with
  | memory faults calls kept =>
      dsimp only
      split
      · exact .inl (by simp [Sink.elements])
      · exact ensures_bind.mpr rfl
  | lines limit flushFault written =>
      cases limit with
      | none =>
          dsimp only
          rw [if_neg (by omega), if_neg (by omega)]
          exact .inr rfl
      | some room =>
          dsimp only
          by_cases hbody : room - written.size < (Text.utf8 e.line).length
          · rw [if_pos hbody]
            exact ensures_bind.mpr rfl
          · rw [if_neg hbody]
            by_cases hline : room - written.size = (Text.utf8 e.line).length
            · rw [if_pos hline]
              exact ensures_bind.mpr rfl
            · rw [if_neg hline]
              exact .inr rfl

namespace Graph

/-- No result set was delivered since. -/
structure Retains (g g' : Graph) : Prop where
  hubs : hubsIn g'.elements = hubsIn g.elements

instance : IsPreorder Graph Retains where
  refl _ := ⟨rfl⟩
  trans _ _ _ h h' := ⟨h'.hubs.trans h.hubs⟩

theorem freshId_retains : Stays Retains freshId :=
  (stays_modify fun _ => ⟨rfl⟩).bind fun _ => stays_get.bind fun _ => stays_pure

/-- What a delivery adds to the result sets is what the element is, if it arrives. -/
theorem deliver_hubs (e : Element) (g : Graph) :
    Ensures (deliver e) g
      (fun _ g' => hubsIn g'.elements = hubsIn g.elements ++ e.hub?.toList ∨ g.Retains g')
      fun _ g' => g.Retains g' := by
  have hemit := Sink.emit_elements e g.sink
  unfold Ensures deliver at *
  cases hrun : Sink.emit e g.sink with
  | ok a sink =>
      rw [hrun] at hemit
      rcases hemit with hmore | hsame
      · left
        cases hhub : e.hub? <;> simp [elements, hmore, hubsIn, hhub]
      · exact .inr ⟨by simp [elements, hsame]⟩
  | error fault sink =>
      rw [hrun] at hemit
      exact ⟨congrArg hubsIn hemit⟩

/-- An element that is no result set leaves the result sets as they are, delivered or refused. -/
theorem deliver_retains {e : Element} (h : e.hub? = none) : Stays Retains (deliver e) := by
  intro g
  refine (deliver_hubs e g).mono (fun _ g' hhubs => ?_) fun _ _ hg => hg
  rcases hhubs with hhubs | hg
  · exact ⟨by simpa [h] using hhubs⟩
  · exact hg

/-- A vertex other than a result set may be delivered. -/
theorem vertex_retains {v : Vertex} (h : v ≠ .resultSet) : Stays Retains (vertex v) := by
  have hhub (id : ElementId) : (Element.vertex id v).hub? = none := by
    cases v <;> first | rfl | exact absurd rfl h
  exact freshId_retains.bind fun _ => (deliver_retains (hhub _)).bind fun _ => stays_pure

/-- Edges are no result sets. -/
theorem edge_retains (e : Edge) : Stays Retains (edge e) :=
  freshId_retains.bind fun _ => (deliver_retains rfl).bind fun _ => stays_pure

/-- What is contained was delivered before. -/
theorem contains_retains (source : VertexRef) (targets : List ElementId) :
    Stays Retains (contains source targets) := by
  unfold contains
  split
  · exact edge_retains _
  · exact stays_throw

/-- What is listed was delivered before. -/
theorem item_retains (source : VertexRef) (targets : List ElementId) (document : ElementId)
    (property : ItemProperty) : Stays Retains (item source targets document property) := by
  unfold item
  split
  · exact edge_retains _
  · exact stays_throw

/-- A result set is delivered under its own id, if at all. -/
theorem vertex_hubs (g : Graph) :
    Ensures (vertex .resultSet) g
      (fun hub g' => hub.label = .resultSet ∧
        (hubsIn g'.elements = hubsIn g.elements ++ [hub.id] ∨ g.Retains g'))
      fun _ g' => g.Retains g' := by
  refine ensures_bind.mpr ((freshId_retains g).mono (fun id g₁ h₁ => ?_) fun _ _ h => h)
  refine ensures_bind.mpr ((deliver_hubs _ g₁).mono (fun _ g₂ h₂ => ⟨rfl, ?_⟩)
    fun _ _ h => trans_of Retains h₁ h)
  rcases h₂ with hmore | hsame
  · exact .inl (by rw [hmore, h₁.hubs]; rfl)
  · exact .inr (trans_of Retains h₁ hsame)

end Graph

/-! ### Records and their graph -/

/-- What tells a record from others: its key and its result set. -/
def Record.mark (r : Record) : SymbolKey × Option VertexRef := (r.key, r.resultSet)

namespace Ledger

/-- The key and the result set of the record stay, and no result set was delivered. -/
structure Retains (s t : Ledger) : Prop where
  mark  : t.record.mark = s.record.mark
  graph : s.graph.Retains t.graph

instance : IsPreorder Ledger Retains where
  refl s := ⟨rfl, refl_of Graph.Retains s.graph⟩
  trans _ _ _ h h' := ⟨h'.mark.trans h.mark, trans_of Graph.Retains h.graph h'.graph⟩

variable {α : Type}

/-- A record delivers as the graph does. -/
theorem emission_retains {act : Emission α} (h : Stays Graph.Retains act) :
    Stays Retains (liftM act : Writing α) :=
  h.onPart fun _ _ hg => ⟨rfl, hg⟩

/-- A record may change in all but what it is known by. -/
theorem change_retains (f : Record → Record) (h : ∀ r, (f r).mark = r.mark) :
    Stays Retains (change f) :=
  stays_modify fun s => ⟨h s.record, refl_of Graph.Retains s.graph⟩

theorem resultSet_retains : Stays Retains resultSet := stays_get.bind fun _ => stays_ofExcept

/-- A result is made when first needed: a vertex, an edge that leads to it, and a note in the
record. -/
theorem newResult_retains {v : Vertex} (hv : v ≠ .resultSet) (kind : LinkKind)
    {note : VertexRef → Record → Record} (hnote : ∀ result r, (note result r).mark = r.mark) :
    Stays Retains (newResult v kind note) :=
  resultSet_retains.bind fun _ => (emission_retains (Graph.vertex_retains hv)).bind fun _ =>
    (emission_retains (Graph.edge_retains _)).discard.bind fun _ =>
      (change_retains _ (hnote _)).bind fun _ => stays_pure

/-- A reference result is a vertex of its own, and the record stays who it is. -/
theorem referenceResult_retains : Stays Retains referenceResult := by
  refine stays_get.bind fun s => ?_
  split
  · exact stays_pure
  · exact newResult_retains (by simp) .references fun _ _ => rfl

/-- So is a definition result. -/
theorem definitionResult_retains : Stays Retains definitionResult := by
  refine stays_get.bind fun s => ?_
  split
  · exact stays_pure
  · exact newResult_retains (by simp) .definition fun _ _ => rfl

theorem item_retains (source : VertexRef) (targets : List ElementId) (document : ElementId)
    (property : ItemProperty) :
    Stays Retains (discard (Graph.item source targets document property) : Writing Unit) :=
  (emission_retains (Graph.item_retains source targets document property)).discard

/-- The references of a partition are listed, entry by entry. -/
theorem listReferences_retains (partition : Partition) :
    Stays Retains (listReferences partition) := by
  have hentry (result : VertexRef) (entry : List ElementId × ItemProperty) :
      Stays Retains (listEntry partition result entry) := by
    unfold listEntry
    split
    · exact stays_pure
    · exact item_retains _ _ _ _
  unfold listReferences
  split
  · exact referenceResult_retains.bind fun result => Stays.forM fun entry _ => hentry result entry
  · exact stays_pure

/-- What a partition collected is listed, and the record stays who it is. -/
theorem flush_retains (partition : Partition) : Stays Retains (flush partition) := by
  unfold flush
  dsimp only
  split
  · exact listReferences_retains partition
  · exact definitionResult_retains.bind fun _ => (item_retains _ _ _ _).bind fun _ =>
      listReferences_retains partition

/-- Clearing a partition is no change of who the record is. -/
theorem endPartition_retains (file : FileId) : Stays Retains (endPartition file) := by
  refine stays_get.bind fun s => ?_
  split
  · refine Stays.bind ?_ fun _ => flush_retains _
    exact change_retains _ fun _ => rfl
  · exact stays_pure

/-- Closing the record is none either. -/
theorem close_retains : Stays Retains close := by
  refine stays_get.bind fun s => ?_
  dsimp only
  split
  · exact stays_pure
  · exact (Stays.forM fun file _ => endPartition_retains file).bind fun _ =>
      change_retains _ fun _ => rfl

end Ledger

/-! ### The store -/

namespace Store

/-- Who is who stays: the cache, the keys and result sets of records, and the result sets that were
delivered. -/
structure Retains (s t : Store) : Prop where
  cache : t.cache = s.cache
  marks : ∀ i : Nat, t.records[i]?.map Record.mark = s.records[i]?.map Record.mark
  graph : s.graph.Retains t.graph

instance : IsPreorder Store Retains where
  refl s := ⟨rfl, fun _ => rfl, refl_of Graph.Retains s.graph⟩
  trans _ _ _ h h' := ⟨h'.cache.trans h.cache, fun i => (h'.marks i).trans (h.marks i),
    trans_of Graph.Retains h.graph h'.graph⟩

/-- Documents, watchers and the project may change as they like. -/
theorem retains_of_eq {s t : Store} (hcache : t.cache = s.cache) (hrecords : t.records = s.records)
    (hgraph : t.graph = s.graph) : s.Retains t :=
  ⟨hcache, fun _ => by rw [hrecords], hgraph ▸ refl_of Graph.Retains s.graph⟩

variable {α : Type} {w : Setting} {id : RecordId} {file : FileId}

/-- Records keep who they are while the graph delivers. -/
theorem emission_retains {act : Emission α} (h : Stays Graph.Retains act) :
    Stays Retains (liftM act : Storing α) :=
  h.onPart fun _ _ hg => ⟨rfl, fun _ => rfl, hg⟩

theorem link_retains (kind : LinkKind) (source target : ElementId) :
    Stays Retains (discard (Graph.link kind source target) : Storing Unit) :=
  (emission_retains (Graph.edge_retains _)).discard

/-! #### Records -/

theorem record_retains (id : RecordId) : Stays Retains (record id) := by
  refine stays_get.bind fun s => ?_
  split
  · exact stays_pure
  · exact stays_throw

/-- A record may change in all but what it is known by. -/
theorem changeRecord_retains (id : RecordId) (f : Record → Record) (h : ∀ r, (f r).mark = r.mark) :
    Stays Retains (changeRecord id f) := by
  refine (record_retains id).discard.bind fun _ => stays_modify fun s => ⟨rfl, fun i => ?_, ⟨rfl⟩⟩
  rw [Array.getElem?_modify]
  split
  · cases s.records[i]? <;> simp [h]
  · rfl

/-- The store with a ledger put back in the place of a record. -/
def putBack (s : Store) (id : RecordId) (ledger : Ledger) : Store :=
  { s with graph := ledger.graph, records := s.records.modify id.index fun _ => ledger.record }

/-- Writing a record that exists: however the writing ends, its ledger goes back to its place. -/
theorem ensures_onRecord {act : Ledger.Writing α} {s : Store} {r : Record}
    {post : α → Store → Prop} {fail : Fault → Store → Prop} (hr : s.records[id.index]? = some r) :
    Ensures (onRecord id act) s post fail ↔
      Ensures act ⟨r, s.graph⟩ (fun a ledger => post a (s.putBack id ledger))
        fun fault ledger => fail fault (s.putBack id ledger) := by
  unfold onRecord record
  rw [ensures_bind, ensures_bind, ensures_get, hr, ensures_pure, ensures_onPart]
  rfl

/-- Putting a record back replaces the one that was there. -/
theorem getElem?_putBack {s : Store} {ledger : Ledger} {i : Nat} :
    (s.putBack id ledger).records[i]?
      = if id.index = i then s.records[i]?.map fun _ => ledger.record else s.records[i]? :=
  Array.getElem?_modify

/-- Where there was a record, it is the one that was put back. -/
theorem getElem?_putBack_self {s : Store} {ledger : Ledger} {r : Record}
    (hr : s.records[id.index]? = some r) :
    (s.putBack id ledger).records[id.index]? = some ledger.record := by
  rw [getElem?_putBack, if_pos rfl, hr]
  rfl

/-- What is written in a record leaves all others alone. -/
theorem onRecord_retains {act : Ledger.Writing α} (h : Stays Ledger.Retains act) :
    Stays Retains (onRecord id act) := by
  intro s
  cases hr : s.records[id.index]? with
  | none =>
      unfold onRecord record
      rw [ensures_bind, ensures_bind, ensures_get, hr]
      exact ensures_throw.mpr (refl_of Retains s)
  | some r =>
      have hback (ledger : Ledger) (hledger : Ledger.Retains ⟨r, s.graph⟩ ledger) :
          s.Retains (s.putBack id ledger) := by
        refine ⟨rfl, fun i => ?_, hledger.graph⟩
        rw [getElem?_putBack]
        split
        · rename_i hi
          rw [← hi, hr]
          exact congrArg some hledger.mark
        · rfl
      exact (ensures_onRecord hr).mpr ((h ⟨r, s.graph⟩).mono (fun _ ledger => hback ledger)
        fun _ ledger => hback ledger)

theorem resultSet_retains : Stays Retains (resultSet id) :=
  (record_retains id).bind fun _ => stays_ofExcept

theorem hasInfo_retains (info : DefinitionInfo) : Stays Retains (hasInfo id info) :=
  (record_retains id).bind fun _ => stays_pure

/-- What is known of a record is not what it is known by. -/
theorem addInfo_retains (info : DefinitionInfo) : Stays Retains (addInfo id info) := by
  refine changeRecord_retains id _ fun r => ?_
  unfold Record.addInfo
  split <;> rfl

/-! #### Documents -/

/-- The document of a file is a vertex of its own. -/
theorem document_retains (file : FileId) : Stays Retains (document w file) := by
  refine stays_get.bind fun s => ?_
  split
  · exact stays_pure
  · exact stays_throw
  · refine (emission_retains (Graph.vertex_retains (by simp))).bind fun _ => ?_
    refine Stays.bind ?_ fun _ => stays_pure
    exact stays_modify fun _ => retains_of_eq rfl rfl rfl

/-- Documents are no records. -/
theorem putDocument_retains (document : Document) : Stays Retains (putDocument file document) :=
  stays_modify fun _ => retains_of_eq rfl rfl rfl

theorem addRange_retains (range : ElementId) : Stays Retains (addRange w file range) :=
  (document_retains file).bind fun _ => putDocument_retains _

theorem beginContainer_retains (range : ElementId) :
    Stays Retains (beginContainer w file range) :=
  (document_retains file).bind fun _ => putDocument_retains _

theorem endContainer_retains : Stays Retains (endContainer w file) :=
  (document_retains file).bind fun _ => stays_ofExcept.bind fun _ => putDocument_retains _

theorem emitRanges_retains (known : Document) : Stays Graph.Retains known.emitRanges := by
  unfold Document.emitRanges
  split
  · exact stays_pure
  · exact (Graph.contains_retains _ _).discard

theorem emitSymbols_retains (known : Document) (withSymbols : Bool) :
    Stays Graph.Retains (known.emitSymbols withSymbols) := by
  unfold Document.emitSymbols
  split
  · exact (Graph.vertex_retains (by simp)).bind fun _ => (Graph.edge_retains _).discard
  · exact stays_pure

/-- A document that ends delivers what it contains and its symbols. -/
theorem finish_retains (known : Document) (withSymbols : Bool) :
    Stays Graph.Retains (known.finish withSymbols) := by
  have hemits := (emitRanges_retains known).bind fun _ => emitSymbols_retains known withSymbols
  unfold Document.finish
  dsimp only
  split
  · exact hemits
  · exact stays_throw.bind fun _ => hemits

/-- Ending a document leaves the records alone. -/
theorem endDocument_retains (file : FileId) : Stays Retains (endDocument w file) := by
  refine stays_get.bind fun s => ?_
  split
  · exact stays_pure
  · exact stays_throw
  · refine Stays.bind ?_ fun _ => emission_retains (finish_retains _ _)
    exact stays_modify fun _ => retains_of_eq rfl rfl rfl

/-! #### Collecting -/

/-- Watchers are no records. -/
theorem watch_retains (node : NodeId) (id : RecordId) : Stays Retains (watch node id) :=
  stays_modify fun _ => retains_of_eq rfl rfl rfl

/-- A new partition changes nothing that the record is known by. -/
theorem ensurePartition_retains : Stays Retains (ensurePartition w id file) := by
  refine (record_retains id).bind fun known => ?_
  split
  · exact stays_pure
  · refine (document_retains file).bind fun _ => Stays.bind ?_ fun _ => watch_retains _ _
    exact changeRecord_retains id _ fun _ => rfl

/-- A partition may change as it likes. -/
theorem changePartition_retains (f : Partition → Partition) :
    Stays Retains (changePartition w id file f) := by
  refine ensurePartition_retains.bind fun _ => (record_retains id).bind fun known => ?_
  split
  · exact changeRecord_retains id _ fun _ => rfl
  · exact stays_throw

theorem addOwnDefinition_retains (range : ElementId) (asReference : Bool) :
    Stays Retains (addOwnDefinition w id file range asReference) :=
  resultSet_retains.bind fun _ => (link_retains _ _ _).bind fun _ => changePartition_retains _

theorem addOwnReference_retains (reference : Reference) (role : ReferenceRole) :
    Stays Retains (addOwnReference w id file reference role) :=
  changePartition_retains _

/-- Asking whether a record is open changes nothing. -/
theorem whenOpen_retains {act : Record → Storing Unit} (h : ∀ known, Stays Retains (act known)) :
    Stays Retains (whenOpen id act) := by
  refine (record_retains id).bind fun known => stays_ofExcept.bind fun opened => ?_
  split
  · exact h known
  · exact stays_pure

/-- By induction on how far the reference is passed on: whoever comes on the way only collects
it. -/
theorem addReferenceWithin_retains (reference : Reference) (role : ReferenceRole) (fuel : Nat) :
    ∀ id, Stays Retains (addReferenceWithin w file reference role fuel id) := by
  induction fuel with
  | zero => exact fun id => stays_throw
  | succ fuel ih =>
      intro id
      refine whenOpen_retains fun known => ?_
      split
      · exact ih _
      · exact Stays.forM fun base _ => ih base
      · exact Stays.forM fun element _ => ih element
      · exact addOwnReference_retains _ _

/-- A reference is collected by records, which stay who they are. -/
theorem addReference_retains (id : RecordId) (file : FileId) (reference : Reference)
    (role : ReferenceRole) : Stays Retains (addReference w id file reference role) :=
  stays_get.bind fun _ => addReferenceWithin_retains reference role _ id

/-- So is a definition, and the same range as a reference. -/
theorem addDefinition_retains (range : ElementId) (asReference : Bool) :
    Stays Retains (addDefinition w id file range asReference) := by
  refine whenOpen_retains fun known => ?_
  split
  · exact addOwnDefinition_retains _ _
  · exact addOwnDefinition_retains _ _
  · exact resultSet_retains.bind fun _ => (link_retains _ _ _).bind fun _ =>
      addReference_retains _ _ _ _
  · exact addOwnDefinition_retains _ _
  · exact (addOwnDefinition_retains _ _).bind fun _ => Stays.forM fun base _ =>
      addReference_retains base _ _ _
  · exact stays_pure
  · exact stays_pure

/-- What is said of a record is no part of who it is. -/
theorem attach_retains (kind : LinkKind) (target : ElementId) :
    Stays Retains (attach id kind target) :=
  whenOpen_retains fun _ => resultSet_retains.bind fun _ => link_retains _ _ _

theorem addHover_retains (hover : ElementId) : Stays Retains (addHover id hover) :=
  attach_retains .hover hover

theorem addMoniker_retains (moniker : ElementId) : Stays Retains (addMoniker id moniker) :=
  attach_retains .moniker moniker

/-! #### The end of the project -/

/-- A record that is closed stays who it was. -/
theorem closeIfOpen_retains : Stays Retains (closeIfOpen id) := by
  refine (record_retains id).bind fun known => ?_
  split
  · exact onRecord_retains Ledger.close_retains
  · exact stays_pure

/-- Also at the end of the project all records stay who they were. -/
theorem projectProcessed_retains : Stays Retains (projectProcessed w) := by
  have hwatchers : Stays Retains (modify fun s : Store => { s with watchers := ∅ } : Storing Unit) :=
    stays_modify fun _ => retains_of_eq rfl rfl rfl
  have hfinish : Stays (fun p q : Project.Ledger => p.graph.Retains q.graph) Project.finish := by
    intro ledger
    have hcontains := Graph.contains_retains ledger.project.vertex ledger.project.documents
      ledger.graph
    unfold Ensures Project.finish at *
    by_cases hnone : ledger.project.documents.isEmpty = true
    · rw [if_pos hnone]
      exact refl_of Graph.Retains ledger.graph
    · rw [if_neg hnone]
      cases hrun : Graph.contains ledger.project.vertex ledger.project.documents ledger.graph with
      | ok a g =>
          rw [hrun] at hcontains
          exact hcontains
      | error fault g =>
          rw [hrun] at hcontains
          exact hcontains
  refine hwatchers.bind fun _ => stays_get.bind fun s => ?_
  refine (Stays.forM fun index _ => closeIfOpen_retains).bind fun _ => stays_get.bind fun s => ?_
  refine (Stays.forM fun file _ => endDocument_retains file).bind fun _ => ?_
  exact hfinish.onPart fun _ _ hg => ⟨rfl, fun _ => rfl, hg⟩

end Store

end SymbolGraph
