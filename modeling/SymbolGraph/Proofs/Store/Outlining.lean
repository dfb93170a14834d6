import SymbolGraph.Proofs.Store.Retaining
import SymbolGraph.Proofs.Store.Shutting

/-!
# Proofs — Store — the symbols of a document

A document grows its symbols on a stack of open containers.  Only opening and closing a container
and ending the document have to do with it; whatever else a store is asked to do leaves the symbols
of all documents alone and leads no document to its symbols, however it ends.

* `Outline`: the open containers and the finished symbols of a document.
* `Outline.plant`: the outline with a forest grown at its innermost open container.
* `Outline.close_plant_begin`: a forest grown in a container of its own is one tree.
* `Store.Skirts`: no outline changes and no document is led to its symbols.
* `Store.addReference_skirts`, `Store.insert_skirts`, `Store.nodeProcessed_skirts` and the others:
  operations that skirt.
* `Store.beginContainer_outline`, `Store.endContainer_outline`, `Store.endDocument_outline`: those that
  do not.
-/

namespace SymbolGraph

open SymbolGraph.Action

/-! ### Outlines -/

/-- The open containers of a document, innermost first, and its finished symbols. -/
structure Outline where
  containers : List Container
  symbols    : List SymbolTree

namespace Outline

/-- Nothing is open and nothing is finished. -/
def empty : Outline := ⟨[], []⟩

/-- A forest is grown: inside the innermost open container, or at the top. -/
def plant (forest : List SymbolTree) : Outline → Outline
  | ⟨[], symbols⟩             => ⟨[], symbols ++ forest⟩
  | ⟨inner :: outer, symbols⟩ =>
      ⟨{ inner with children := inner.children ++ forest } :: outer, symbols⟩

/-- A container is opened. -/
def begin (range : ElementId) (outline : Outline) : Outline :=
  { outline with containers := { range, children := [] } :: outline.containers }

/-- The innermost container is closed. -/
def close : Outline → Outline
  | ⟨[], symbols⟩             => ⟨[], symbols⟩
  | ⟨inner :: outer, symbols⟩ => plant [.node inner.range inner.children] ⟨outer, symbols⟩

variable (outline : Outline) (forest more : List SymbolTree) (range : ElementId)

/-- Growing nothing changes nothing. -/
@[simp] theorem plant_nil : outline.plant [] = outline := by
  obtain ⟨containers, symbols⟩ := outline
  cases containers with
  | nil => exact congrArg (Outline.mk []) (List.append_nil _)
  | cons inner outer => simp only [plant, List.append_nil]

/-- Growing one forest and then another. -/
@[simp] theorem plant_plant : (outline.plant forest).plant more = outline.plant (forest ++ more) := by
  obtain ⟨containers, symbols⟩ := outline
  cases containers with
  | nil => simp only [plant, List.append_assoc]
  | cons inner outer => simp only [plant, List.append_assoc]

/-- **A forest grown in a container of its own is one tree.** -/
theorem close_plant_begin :
    ((outline.begin range).plant forest).close = outline.plant [.node range forest] := by
  simp only [begin, plant, close, List.nil_append]

end Outline

/-- The outline of a document. -/
def Document.outline (document : Document) : Outline := ⟨document.containers, document.symbols⟩

/-- The outline of a live document; one that has ended has none any more. -/
def Slot.outline : Slot Document → Outline
  | .live document => document.outline
  | .cleared       => .empty

/-- Closing the innermost container of a document closes that of its outline. -/
theorem Document.endContainer_outline {document document' : Document}
    (h : document.endContainer = .ok document') : document'.outline = document.outline.close := by
  unfold endContainer at h
  unfold outline
  split at h
  · cases h
  · rename_i heq
    cases h
    rw [heq]
    rfl
  · rename_i heq
    cases h
    rw [heq]
    rfl

/-- A document and its symbols, if an element leads from the one to the other. -/
def Element.symbolLink? : Element → Option (ElementId × ElementId)
  | .edge _ (.link .documentSymbol source target) => some (source, target)
  | _                                             => none

/-- The documents that are led to their symbols, each with these. -/
def symbolLinksIn (elements : List Element) : List (ElementId × ElementId) :=
  elements.filterMap Element.symbolLink?

/-- Links are added where elements are. -/
theorem symbolLinksIn_append (elements written : List Element) :
    symbolLinksIn (elements ++ written) = symbolLinksIn elements ++ symbolLinksIn written :=
  List.filterMap_append

namespace Graph

/-- No document was led to its symbols since. -/
structure Skirts (g g' : Graph) : Prop where
  links : symbolLinksIn g'.elements = symbolLinksIn g.elements

instance : IsPreorder Graph Skirts where
  refl _ := ⟨rfl⟩
  trans _ _ _ h h' := ⟨h'.links.trans h.links⟩

/-- Taking an id delivers nothing. -/
theorem freshId_skirts : Stays Skirts freshId :=
  (stays_modify fun _ => ⟨rfl⟩).bind fun _ => stays_get.bind fun _ => stays_pure

/-- An element that is no link to symbols leads no document to its symbols, delivered or refused. -/
theorem deliver_skirts {e : Element} (h : e.symbolLink? = none) : Stays Skirts (deliver e) := by
  intro g
  have hemit := Sink.emit_elements e g.sink
  unfold Ensures deliver at *
  cases hrun : Sink.emit e g.sink with
  | ok a sink =>
      rw [hrun] at hemit
      refine ⟨?_⟩
      rcases hemit with hmore | hsame
      · simp [elements, hmore, symbolLinksIn, h]
      · simp [elements, hsame]
  | error fault sink =>
      rw [hrun] at hemit
      exact ⟨congrArg symbolLinksIn hemit⟩

/-- A vertex is no link. -/
theorem vertex_skirts (v : Vertex) : Stays Skirts (vertex v) :=
  freshId_skirts.bind fun _ => (deliver_skirts rfl).bind fun _ => stays_pure

/-- Any edge but the one from a document to its symbols may be delivered. -/
theorem edge_skirts {e : Edge} (h : ∀ source target, e ≠ .link .documentSymbol source target) :
    Stays Skirts (edge e) := by
  have hnone (id : ElementId) : (Element.edge id e).symbolLink? = none := by
    unfold Element.symbolLink?
    split
    · rename_i heq
      cases heq
      exact absurd rfl (h _ _)
    · rfl
  exact freshId_skirts.bind fun _ => (deliver_skirts (hnone _)).bind fun _ => stays_pure

/-- A link of any other kind may be delivered. -/
theorem link_skirts {kind : LinkKind} (h : kind ≠ .documentSymbol) (source target : ElementId) :
    Stays Skirts (link kind source target) :=
  edge_skirts fun _ _ heq => h (by cases heq; rfl)

/-- What is contained is not led to. -/
theorem contains_skirts (source : VertexRef) (targets : List ElementId) :
    Stays Skirts (contains source targets) := by
  unfold contains Edge.containing
  cases source.label with
  | project => exact edge_skirts nofun
  | document => exact edge_skirts nofun
  | _ => exact stays_throw

/-- What is listed is not led to. -/
theorem item_skirts (source : VertexRef) (targets : List ElementId) (document : ElementId)
    (property : ItemProperty) : Stays Skirts (item source targets document property) := by
  unfold item Edge.listing
  cases source.label with
  | definitionResult => exact edge_skirts nofun
  | referenceResult => exact edge_skirts nofun
  | _ => exact stays_throw

theorem flush_skirts : Stays Skirts flush := by
  intro g
  obtain ⟨issued, emitted, sink⟩ := g
  unfold Ensures flush Sink.flush
  cases sink with
  | memory faults calls kept => exact ⟨rfl⟩
  | lines limit flushFault written =>
      cases flushFault with
      | none => exact ⟨rfl⟩
      | some reason => exact ⟨rfl⟩

end Graph

/-! ### Records and their graph -/

namespace Ledger

/-- Writing a record leads no document to its symbols. -/
def Skirts (s t : Ledger) : Prop := s.graph.Skirts t.graph

instance : IsPreorder Ledger Skirts where
  refl s := refl_of Graph.Skirts s.graph
  trans _ _ _ h h' := trans_of Graph.Skirts h h'

variable {α : Type}

/-- A record delivers as the graph does. -/
theorem emission_skirts {act : Emission α} (h : Stays Graph.Skirts act) :
    Stays Skirts (liftM act : Writing α) :=
  h.onPart fun _ _ hg => hg

/-- Changing the record delivers nothing. -/
theorem change_skirts (f : Record → Record) : Stays Skirts (change f) :=
  stays_modify fun s => refl_of Graph.Skirts s.graph

theorem resultSet_skirts : Stays Skirts resultSet := stays_get.bind fun _ => stays_ofExcept

/-- The result set, and what leads on to it, are no symbols of a document. -/
theorem emitResultSet_skirts : Stays Skirts emitResultSet :=
  (emission_skirts (Graph.vertex_skirts _)).bind fun _ => (change_skirts _).bind fun _ => stays_pure

theorem begin_skirts : Stays Skirts begin := by
  refine stays_get.bind fun s => ?_
  dsimp only
  split
  · exact stays_throw.bind fun _ => emitResultSet_skirts
  · exact emitResultSet_skirts

/-- A result is made when first needed. -/
theorem newResult_skirts (v : Vertex) {kind : LinkKind} (hkind : kind ≠ .documentSymbol)
    (note : VertexRef → Record → Record) :
    Stays Skirts (newResult v kind note) :=
  resultSet_skirts.bind fun _ => (emission_skirts (Graph.vertex_skirts v)).bind fun _ =>
    (emission_skirts (Graph.link_skirts hkind _ _)).discard.bind fun _ =>
      (change_skirts _).bind fun _ => stays_pure

/-- The reference result comes with a link of another kind. -/
theorem referenceResult_skirts : Stays Skirts referenceResult := by
  refine stays_get.bind fun s => ?_
  split
  · exact stays_pure
  · exact newResult_skirts .referenceResult (by simp) _

/-- So does the definition result. -/
theorem definitionResult_skirts : Stays Skirts definitionResult := by
  refine stays_get.bind fun s => ?_
  split
  · exact stays_pure
  · exact newResult_skirts .definitionResult (by simp) _

theorem item_skirts (source : VertexRef) (targets : List ElementId) (document : ElementId)
    (property : ItemProperty) :
    Stays Skirts (discard (Graph.item source targets document property) : Writing Unit) :=
  (emission_skirts (Graph.item_skirts source targets document property)).discard

/-- What a partition collected is listed, under any heading. -/
theorem listReferences_skirts (partition : Partition) :
    Stays Skirts (listReferences partition) := by
  have hentry (result : VertexRef) (entry : List ElementId × ItemProperty) :
      Stays Skirts (listEntry partition result entry) := by
    unfold listEntry
    split
    · exact stays_pure
    · exact item_skirts _ _ _ _
  unfold listReferences
  split
  · exact referenceResult_skirts.bind fun result => Stays.forM fun entry _ => hentry result entry
  · exact stays_pure

theorem flush_skirts (partition : Partition) : Stays Skirts (flush partition) := by
  unfold flush
  dsimp only
  split
  · exact listReferences_skirts partition
  · exact definitionResult_skirts.bind fun _ => (item_skirts _ _ _ _).bind fun _ =>
      listReferences_skirts partition

/-- The partition of a file is cleared and listed. -/
theorem endPartition_skirts (file : FileId) : Stays Skirts (endPartition file) := by
  refine stays_get.bind fun s => ?_
  split
  · exact (change_skirts _).bind fun _ => flush_skirts _
  · exact stays_pure

/-- Closing a record only lists. -/
theorem close_skirts : Stays Skirts close := by
  refine stays_get.bind fun s => ?_
  dsimp only
  split
  · exact stays_pure
  · exact (Stays.forM fun file _ => endPartition_skirts file).bind fun _ => change_skirts _

end Ledger

/-! ### What leaves the symbols of documents alone -/

namespace Store

/-- The outline of the document of a file; a file without a live document has none. -/
def outline (s : Store) (file : FileId) : Outline :=
  ((s.documents.get? file).map Slot.outline).getD .empty

/-- No outline changes, and no document is led to its symbols. -/
structure Skirts (s t : Store) : Prop where
  outline : t.outline = s.outline
  graph   : s.graph.Skirts t.graph

instance : IsPreorder Store Skirts where
  refl s := ⟨rfl, refl_of Graph.Skirts s.graph⟩
  trans _ _ _ h h' := ⟨h'.outline.trans h.outline, trans_of Graph.Skirts h.graph h'.graph⟩

variable {α : Type} {w : Setting} {s t : Store} {id : RecordId} {file : FileId} {node : NodeId}

/-- Records, the cache, watchers and the project may change as they like. -/
theorem skirts_of_eq (hdocuments : t.documents = s.documents) (hgraph : t.graph = s.graph) :
    s.Skirts t := by
  refine ⟨?_, hgraph ▸ refl_of Graph.Skirts s.graph⟩
  unfold outline
  rw [hdocuments]

/-- Where a document takes a place, its outline counts for that file and no other. -/
theorem outline_insert {graph : Graph} {project : Project} {slot : Slot Document} (other : FileId) :
    outline { s with graph, project, documents := s.documents.insert file slot } other
      = if other = file then slot.outline else s.outline other := by
  unfold outline
  rw [Table.get?_insert]
  split
  · rfl
  · rfl

/-- A document takes a place where there was the same outline. -/
theorem outline_insert_same {graph : Graph} {project : Project} {slot : Slot Document}
    (h : slot.outline = s.outline file) :
    outline { s with graph, project, documents := s.documents.insert file slot } = s.outline := by
  funext other
  rw [outline_insert]
  split
  · rename_i heq
    rw [heq, h]
  · rfl

/-- The outline of a live document is read off the document. -/
theorem outline_of_live {document : Document}
    (h : s.documents.get? file = some (.live document)) : s.outline file = document.outline := by
  unfold outline
  rw [h]
  rfl

/-- What the graph does to no outline, the store does not either. -/
theorem emission_skirts {act : Emission α} (h : Stays Graph.Skirts act) :
    Stays Skirts (liftM act : Storing α) :=
  h.onPart fun _ _ hg => ⟨rfl, hg⟩

/-- A link of another kind may be delivered. -/
theorem link_skirts {kind : LinkKind} (h : kind ≠ .documentSymbol) (source target : ElementId) :
    Stays Skirts (discard (Graph.link kind source target) : Storing Unit) :=
  (emission_skirts (Graph.link_skirts h source target)).discard

/-! #### Records -/

theorem record_skirts (id : RecordId) : Stays Skirts (record id) := by
  refine stays_get.bind fun s => ?_
  split
  · exact stays_pure
  · exact stays_throw

/-- A record may change as it likes. -/
theorem changeRecord_skirts (id : RecordId) (f : Record → Record) :
    Stays Skirts (changeRecord id f) :=
  (record_skirts id).discard.bind fun _ => stays_modify fun _ => skirts_of_eq rfl rfl

/-- What is written in a record leaves the documents alone. -/
theorem onRecord_skirts {act : Ledger.Writing α} (h : Stays Ledger.Skirts act) :
    Stays Skirts (onRecord id act) :=
  (record_skirts id).bind fun known s => ensures_onPart.mpr ((h ⟨known, s.graph⟩).mono
    (fun _ _ hl => ⟨rfl, hl⟩) fun _ _ hl => ⟨rfl, hl⟩)

theorem resultSet_skirts : Stays Skirts (resultSet id) :=
  (record_skirts id).bind fun _ => stays_ofExcept

theorem hasInfo_skirts (info : DefinitionInfo) : Stays Skirts (hasInfo id info) :=
  (record_skirts id).bind fun _ => stays_pure

theorem addInfo_skirts (info : DefinitionInfo) : Stays Skirts (addInfo id info) :=
  changeRecord_skirts id _

/-! #### The cache -/

theorem lookup_skirts (key : SymbolKey) : Stays Skirts (lookup key) := by
  refine stays_get.bind fun s => ?_
  split
  · exact stays_pure
  · exact stays_pure
  · exact stays_throw
  · exact stays_throw

/-- Slots of the cache may change as they like. -/
theorem mark_skirts (key : SymbolKey) (slot : CacheSlot) : Stays Skirts (mark key slot) :=
  stays_modify fun _ => skirts_of_eq rfl rfl

/-- Giving a key up only concerns the cache. -/
theorem abandon_skirts (key : SymbolKey) : Stays Skirts (abandon key) := by
  refine stays_modify fun s => ?_
  split
  · exact skirts_of_eq rfl rfl
  · exact refl_of Skirts s

/-! #### Documents -/

/-- **A document is there**, and it has the outline of its file. -/
theorem document_outline (s : Store) : Ensures (document w file) s
    (fun d t => s.Skirts t ∧ t.documents.get? file = some (.live d))
    fun _ t => s.Skirts t := by
  refine ensures_bind.mpr (ensures_get.mpr ?_)
  split
  · rename_i d hlive
    exact ensures_pure.mpr ⟨refl_of Skirts s, hlive⟩
  · exact ensures_throw.mpr (refl_of Skirts s)
  · rename_i hnone
    refine ensures_bind.mpr ((emission_skirts (Graph.vertex_skirts _) s).mono
      (fun vertex t hst => ?_) fun _ _ hst => hst)
    refine ensures_bind.mpr (ensures_modify.mpr (ensures_pure.mpr ⟨?_, ?_⟩))
    · refine ⟨(outline_insert_same ?_).trans hst.outline, hst.graph⟩
      rw [hst.outline]
      unfold outline
      rw [hnone]
      rfl
    · exact (Table.get?_insert _ _ _ _).trans (if_pos rfl)

/-- A new document has the empty outline that was there before. -/
theorem document_skirts (file : FileId) : Stays Skirts (document w file) :=
  fun s => (document_outline s).mono (fun _ _ h => h.1) fun _ _ h => h

/-- A document is changed. -/
theorem changeDocument_outline {f : Document → Except Fault Document} (s : Store) : Ensures (do
      putDocument file (← Action.ofExcept (f (← document w file)))) s
    (fun _ t => s.graph.Skirts t.graph ∧ ∃ d d', f d = .ok d' ∧ d.outline = s.outline file ∧
      ∀ other, t.outline other = if other = file then d'.outline else s.outline other)
    fun _ t => s.Skirts t := by
  refine ensures_bind.mpr ((document_outline s).mono (fun d t ht => ?_) fun _ _ hst => hst)
  obtain ⟨hst, hlive⟩ := ht
  cases hchange : f d with
  | error fault => exact hst
  | ok d' =>
      refine ensures_modify.mpr ⟨hst.graph, d, d', hchange, ?_, fun other => ?_⟩
      · rw [← outline_of_live hlive, hst.outline]
      · rw [outline_insert, hst.outline]
        rfl

/-- A range of a document is none of its symbols. -/
theorem addRange_skirts (range : ElementId) : Stays Skirts (addRange w file range) := by
  refine fun s => (changeDocument_outline (f := fun d => .ok (d.addRange range)) s).mono
    (fun _ t ht => ?_) fun _ _ hst => hst
  obtain ⟨hgraph, d, d', hd, hsame, hother⟩ := ht
  cases hd
  refine ⟨funext fun other => ?_, hgraph⟩
  rw [hother]
  split
  · rename_i heq
    exact heq ▸ hsame
  · rfl

/-! #### Collecting -/

/-- Watching a node only concerns the watchers. -/
theorem watch_skirts (node : NodeId) (id : RecordId) : Stays Skirts (watch node id) :=
  stays_modify fun _ => skirts_of_eq rfl rfl

/-- A partition needs the document of its file, which may be new, and no outline. -/
theorem ensurePartition_skirts : Stays Skirts (ensurePartition w id file) := by
  refine (record_skirts id).bind fun known => ?_
  split
  · exact stays_pure
  · exact (document_skirts file).bind fun _ => (changeRecord_skirts id _).bind fun _ =>
      watch_skirts _ _

/-- A partition may change as it likes. -/
theorem changePartition_skirts (f : Partition → Partition) :
    Stays Skirts (changePartition w id file f) := by
  refine ensurePartition_skirts.bind fun _ => (record_skirts id).bind fun known => ?_
  split
  · exact changeRecord_skirts id _
  · exact stays_throw

theorem addOwnDefinition_skirts (range : ElementId) (asReference : Bool) :
    Stays Skirts (addOwnDefinition w id file range asReference) :=
  resultSet_skirts.bind fun _ => (link_skirts (by simp) _ _).bind fun _ => changePartition_skirts _

theorem addOwnReference_skirts (reference : Reference) (role : ReferenceRole) :
    Stays Skirts (addOwnReference w id file reference role) :=
  changePartition_skirts _

/-- Asking whether a record is open delivers nothing. -/
theorem whenOpen_skirts {act : Record → Storing Unit} (h : ∀ known, Stays Skirts (act known)) :
    Stays Skirts (whenOpen id act) := by
  refine (record_skirts id).bind fun known => stays_ofExcept.bind fun opened => ?_
  split
  · exact h known
  · exact stays_pure

/-- By induction on how far the reference is passed on: whoever comes on the way only collects
it. -/
theorem addReferenceWithin_skirts (reference : Reference) (role : ReferenceRole) (fuel : Nat) :
    ∀ id, Stays Skirts (addReferenceWithin w file reference role fuel id) := by
  induction fuel with
  | zero => exact fun id => stays_throw
  | succ fuel ih =>
      intro id
      refine whenOpen_skirts fun known => ?_
      split
      · exact ih _
      · exact Stays.forM fun base _ => ih base
      · exact Stays.forM fun element _ => ih element
      · exact addOwnReference_skirts _ _

/-- A reference may be passed on to several records; all of them only collect it. -/
theorem addReference_skirts (id : RecordId) (file : FileId) (reference : Reference)
    (role : ReferenceRole) : Stays Skirts (addReference w id file reference role) :=
  stays_get.bind fun _ => addReferenceWithin_skirts reference role _ id

/-- A definition is collected, and may also be collected as a reference. -/
theorem addDefinition_skirts (range : ElementId) (asReference : Bool) :
    Stays Skirts (addDefinition w id file range asReference) := by
  refine whenOpen_skirts fun known => ?_
  split
  · exact addOwnDefinition_skirts _ _
  · exact addOwnDefinition_skirts _ _
  · exact resultSet_skirts.bind fun _ => (link_skirts (by simp) _ _).bind fun _ =>
      addReference_skirts _ _ _ _
  · exact addOwnDefinition_skirts _ _
  · exact (addOwnDefinition_skirts _ _).bind fun _ => Stays.forM fun base _ =>
      addReference_skirts base _ _ _
  · exact stays_pure
  · exact stays_pure

/-- Something is attached to the result set of a record that is open. -/
theorem attach_skirts {kind : LinkKind} (h : kind ≠ .documentSymbol) (target : ElementId) :
    Stays Skirts (attach id kind target) :=
  whenOpen_skirts fun _ => resultSet_skirts.bind fun _ => link_skirts h _ _

theorem addHover_skirts (hover : ElementId) : Stays Skirts (addHover id hover) :=
  attach_skirts (by simp) hover

theorem addMoniker_skirts (moniker : ElementId) : Stays Skirts (addMoniker id moniker) :=
  attach_skirts (by simp) moniker

/-- A record begins with its result set and the links to what it forwards to. -/
theorem begin_skirts (id : RecordId) : Stays Skirts (begin w id) := by
  refine (onRecord_skirts Ledger.begin_skirts).bind fun hub => (record_skirts id).bind fun known => ?_
  have hresult (id : RecordId) : Stays Skirts (onRecord id Ledger.referenceResult) :=
    onRecord_skirts Ledger.referenceResult_skirts
  split
  · exact resultSet_skirts.bind fun _ => link_skirts (by simp) _ _
  · exact (hresult id).bind fun _ => Stays.forM fun _ _ => addReference_skirts _ _ _ _
  · exact Stays.forM fun element _ => (hresult element).bind fun _ => addOwnReference_skirts _ _
  · exact stays_pure

/-- A new record touches no document but those it needs. -/
theorem insert_skirts (fresh : Record) : Stays Skirts (insert w fresh) :=
  stays_get.bind fun _ => Stays.bind (stays_modify fun _ => skirts_of_eq rfl rfl) fun _ =>
    (begin_skirts _).bind fun _ => stays_pure

/-! #### Leaving a node -/

/-- A record that is local to a node lists what it collected, and no outline changes. -/
theorem leave_skirts (node : NodeId) (id : RecordId) : Stays Skirts (leave w node id) := by
  refine (record_skirts id).bind fun known => ?_
  dsimp only
  split
  · exact stays_pure
  · split
    · split
      · exact stays_pure
      · exact (onRecord_skirts Ledger.close_skirts).bind fun _ => mark_skirts _ _
    · split
      · exact onRecord_skirts (Ledger.endPartition_skirts _)
      · exact stays_pure

/-- Leaving a node closes records and no container. -/
theorem nodeProcessed_skirts (node : NodeId) : Stays Skirts (nodeProcessed w node) := by
  refine stays_get.bind fun s => ?_
  split
  · exact stays_pure
  · exact Stays.bind (stays_modify fun _ => skirts_of_eq rfl rfl) fun _ =>
      Stays.forM fun id _ => leave_skirts node id

/-- A record that is closed already is left alone. -/
theorem closeIfOpen_skirts (id : RecordId) : Stays Skirts (closeIfOpen id) := by
  refine (record_skirts id).bind fun known => ?_
  split
  · exact onRecord_skirts Ledger.close_skirts
  · exact stays_pure

/-! ### Opening and closing a container -/

/-- **A container is opened** in the outline of a file. -/
theorem beginContainer_outline (range : ElementId) (s : Store) :
    Ensures (beginContainer w file range) s
      (fun _ t => s.graph.Skirts t.graph ∧ ∀ other, t.outline other =
        if other = file then (s.outline file).begin range else s.outline other)
      fun _ t => s.Skirts t := by
  refine (changeDocument_outline (f := fun d => .ok (d.beginContainer range)) s).mono
    (fun _ t ht => ?_) fun _ _ hst => hst
  obtain ⟨hgraph, d, d', hd, hsame, hother⟩ := ht
  cases hd
  exact ⟨hgraph, hsame ▸ hother⟩

/-- **A container is closed** in the outline of a file. -/
theorem endContainer_outline (s : Store) : Ensures (endContainer w file) s
    (fun _ t => s.graph.Skirts t.graph ∧ ∀ other, t.outline other =
      if other = file then (s.outline file).close else s.outline other)
    fun _ t => s.Skirts t := by
  refine (changeDocument_outline (f := Document.endContainer) s).mono (fun _ t ht => ?_)
    fun _ _ hst => hst
  obtain ⟨hgraph, d, d', hd, hsame, hother⟩ := ht
  rw [← hsame, ← Document.endContainer_outline hd]
  exact ⟨hgraph, hother⟩

/-- A forest is grown in the outline of a file, and no document is led to its symbols. -/
structure Plants (file : FileId) (forest : List SymbolTree) (s t : Store) : Prop where
  outline : ∀ other, t.outline other =
    if other = file then (s.outline file).plant forest else s.outline other
  graph   : s.graph.Skirts t.graph

/-- What skirts all outlines grows the empty forest. -/
theorem Skirts.plants (h : s.Skirts t) : s.Plants file [] t where
  outline other := by
    rw [h.outline, Outline.plant_nil]
    split
    · rename_i heq
      rw [heq]
    · rfl
  graph := h.graph

/-- One forest is grown after another. -/
theorem Plants.trans {u : Store} {forest more : List SymbolTree} (h : s.Plants file forest t)
    (h' : t.Plants file more u) : s.Plants file (forest ++ more) u where
  outline other := by
    rw [h'.outline, h.outline, h.outline, if_pos rfl, Outline.plant_plant]
    split
    · rfl
    · rfl
  graph := trans_of Graph.Skirts h.graph h'.graph

/-- **A forest grown between opening a container and closing it** is one tree. -/
theorem Plants.around {u v : Store} {forest : List SymbolTree} {range : ElementId}
    (hbegin : beginContainer w file range s = .ok () t) (h : t.Plants file forest u)
    (hend : endContainer w file u = .ok () v) : s.Plants file [.node range forest] v := by
  obtain ⟨hbegun, hopened⟩ := (beginContainer_outline range s).of_ok hbegin
  obtain ⟨hended, hclosed⟩ := (endContainer_outline u).of_ok hend
  refine ⟨fun other => ?_, trans_of Graph.Skirts (trans_of Graph.Skirts hbegun h.graph) hended⟩
  rw [hclosed, h.outline, h.outline, hopened, if_pos rfl, if_pos rfl, Outline.close_plant_begin]
  split
  · rfl
  · rename_i hother
    rw [hopened, if_neg hother]

/-! ### Ending a document -/

theorem emitRanges_skirts (document : Document) : Stays Graph.Skirts document.emitRanges := by
  unfold Document.emitRanges
  split
  · exact stays_pure
  · exact (Graph.contains_skirts _ _).discard

/-- A document without symbols is not led to any. -/
theorem finish_skirts {document : Document} (h : document.symbols = []) (withSymbols : Bool) :
    Stays Graph.Skirts (document.finish withSymbols) := by
  have hsymbols : Stays Graph.Skirts (document.emitSymbols withSymbols) := by
    unfold Document.emitSymbols
    rw [h]
    simp only [List.isEmpty_nil, Bool.not_true, Bool.and_false, Bool.false_eq_true, if_false]
    exact stays_pure
  have hemits := (emitRanges_skirts document).bind fun _ => hsymbols
  unfold Document.finish
  dsimp only
  split
  · exact hemits
  · exact stays_throw.bind fun _ => hemits

/-- A document that has no symbols, open or finished, ends without a word about them. -/
theorem endDocument_skirts (h : s.outline file = .empty) :
    Ensures (endDocument w file) s (fun _ t => s.Skirts t) fun _ t => s.Skirts t := by
  refine ensures_bind.mpr (ensures_get.mpr ?_)
  split
  · exact ensures_pure.mpr (refl_of Skirts s)
  · exact ensures_throw.mpr (refl_of Skirts s)
  · rename_i d hlive
    have hsymbols : d.symbols = [] :=
      congrArg Outline.symbols ((outline_of_live hlive).symm.trans h)
    have hended (g : Graph) (hg : s.graph.Skirts g) :
        s.Skirts { s with graph := g, documents := s.documents.insert file .cleared } :=
      ⟨outline_insert_same h.symm, hg⟩
    exact ensures_bind.mpr (ensures_modify.mpr (ensures_onPart.mpr
      ((finish_skirts hsymbols w.documentSymbols s.graph).mono (fun _ g => hended g)
        fun _ g => hended g)))

/-- What is said of a forest at the end of its document: nothing if it is empty, and otherwise one
result that is the forest. -/
def Presents (elements : List Element) (document : ElementId) (forest : List SymbolTree)
    (links : List (ElementId × ElementId)) : Prop :=
  forest = [] ∧ links = [] ∨ forest ≠ [] ∧ ∃ result,
    Element.vertex result (.documentSymbolResult forest) ∈ elements ∧ links = [(document, result)]

theorem Presents.mono {elements more : List Element} {document : ElementId} {forest : List SymbolTree}
    {links : List (ElementId × ElementId)} (h : Presents elements document forest links)
    (hmore : elements <+: more) : Presents more document forest links := by
  rcases h with hnone | ⟨hsome, result, hresult, hlinks⟩
  · exact .inl hnone
  · exact .inr ⟨hsome, result, hmore.subset hresult, hlinks⟩

/-- The symbols of a document are one result that is their forest, unless it has none. -/
theorem emitSymbols_presents {document : Document} {g : Graph} (hg : g.IsMemory) :
    Ensures (document.emitSymbols true) g
      (fun _ g' => ∃ links, symbolLinksIn g'.elements = symbolLinksIn g.elements ++ links ∧
        Presents g'.elements document.vertex.id document.symbols links) fun _ _ => True := by
  unfold Document.emitSymbols
  cases hforest : document.symbols with
  | nil => exact ensures_pure.mpr ⟨[], (List.append_nil _).symm, .inl ⟨rfl, rfl⟩⟩
  | cons tree trees =>
      refine ensures_bind.mpr ((Graph.vertex_delivers hg _).mono (fun v g₁ hg₁ => ?_)
        fun _ _ _ => trivial)
      refine ensures_discard.mpr ((Graph.edge_delivers hg₁.1.memory _).mono (fun e g₂ hg₂ => ?_)
        fun _ _ _ => trivial)
      have hd := hg₁.1.trans hg₂
      refine ⟨[(document.vertex.id, v.id)], ?_, .inr ⟨List.cons_ne_nil _ _, v.id, ?_, rfl⟩⟩
      · rw [hd.elements, symbolLinksIn_append]
        rfl
      · rw [hd.elements]
        simp

theorem emitRanges_memory {document : Document} {g : Graph} (hg : g.IsMemory) :
    Ensures document.emitRanges g (fun _ g' => g'.IsMemory) fun _ _ => True := by
  unfold Document.emitRanges
  split
  · exact ensures_pure.mpr hg
  · exact ensures_discard.mpr ((contains_delivers hg _ _).mono (fun _ _ hd => hd.memory)
      fun _ _ _ => trivial)

/-- A document that ends has no open container, and is led to its symbols. -/
theorem finish_presents {document : Document} {g : Graph} (hg : g.IsMemory) :
    Ensures (document.finish true) g
      (fun _ g' => document.containers = [] ∧ ∃ links, symbolLinksIn g'.elements
        = symbolLinksIn g.elements ++ links ∧
          Presents g'.elements document.vertex.id document.symbols links)
      fun _ _ => True := by
  unfold Document.finish
  dsimp only
  cases hcontainers : document.containers with
  | cons inner outer => exact ensures_throw.mpr trivial
  | nil =>
      simp only [List.isEmpty_nil, if_true, true_and]
      refine ensures_bind.mpr (((emitRanges_memory hg).and (emitRanges_skirts document g)).mono
        (fun _ g₁ hg₁ => ?_) fun _ _ _ => trivial)
      rw [← hg₁.2.links]
      exact emitSymbols_presents hg₁.1

/-- **A document ends** with all its containers closed, and shows its symbols. -/
theorem endDocument_outline (hw : w.documentSymbols = true) (hmemory : s.graph.IsMemory) :
    Ensures (endDocument w file) s
      (fun _ t => ∃ forest links, s.outline file = ⟨[], forest⟩ ∧
        (∀ other, t.outline other = if other = file then .empty else s.outline other) ∧
        symbolLinksIn t.elements = symbolLinksIn s.elements ++ links ∧
        (forest = [] ∧ links = [] ∨ ∃ d, s.documents.get? file = some (.live d) ∧
          Presents t.elements d.vertex.id forest links))
      fun _ _ => True := by
  refine ensures_bind.mpr (ensures_get.mpr ?_)
  split
  · rename_i hnone
    have hempty : s.outline file = .empty := by
      unfold outline
      rw [hnone]
      rfl
    refine ensures_pure.mpr ⟨[], [], hempty, fun other => ?_, (List.append_nil _).symm,
      .inl ⟨rfl, rfl⟩⟩
    split
    · rename_i heq
      rw [heq, hempty]
    · rfl
  · exact ensures_throw.mpr trivial
  · rename_i d hlive
    rw [hw]
    refine ensures_bind.mpr (ensures_modify.mpr (ensures_onPart.mpr ((finish_presents hmemory).mono
      (fun _ g hg => ?_) fun _ _ _ => trivial)))
    -- Finishing writes one result for the forest that the closed containers left.
    obtain ⟨hclosed, links, hlinks, hshows⟩ := hg
    refine ⟨d.symbols, links, ?_, fun other => outline_insert other, hlinks, .inr ⟨d, hlive, hshows⟩⟩
    rw [outline_of_live hlive]
    exact congrArg (Outline.mk · d.symbols) hclosed

/-- Where all outlines are empty, they stay so and no document is led to symbols. -/
def Abstains (s t : Store) : Prop := (∀ file, s.outline file = .empty) → s.Skirts t

instance : IsPreorder Store Abstains where
  refl s _ := refl_of Skirts s
  trans _ _ _ h h' hs :=
    trans_of Skirts (h hs) (h' fun file => (congrFun (h hs).outline file).trans (hs file))

/-- Without any outline to rely on, what skirts also abstains. -/
theorem Skirts.abstains {act : Storing α} (h : Stays Skirts act) : Stays Abstains act :=
  h.mono fun _ _ hst _ => hst

/-- **The end of the project** leads no document to symbols, if all outlines are empty by then. -/
theorem projectProcessed_abstains : Stays Abstains (projectProcessed w) := by
  have hfinish : Stays (fun p q : Project.Ledger => p.graph.Skirts q.graph) Project.finish := by
    intro ledger
    have hcontains := Graph.contains_skirts ledger.project.vertex ledger.project.documents
      ledger.graph
    unfold Ensures Project.finish at *
    by_cases hnone : ledger.project.documents.isEmpty = true
    · rw [if_pos hnone]
      exact refl_of Graph.Skirts ledger.graph
    · rw [if_neg hnone]
      cases hrun : Graph.contains ledger.project.vertex ledger.project.documents ledger.graph with
      | ok a g =>
          rw [hrun] at hcontains
          exact hcontains
      | error fault g =>
          rw [hrun] at hcontains
          exact hcontains
  have hwatchers : Stays Skirts (modify fun s : Store => { s with watchers := ∅ } : Storing Unit) :=
    stays_modify fun _ => skirts_of_eq rfl rfl
  have hend (file : FileId) : Stays Abstains (endDocument w file) :=
    stays_of_ready fun _ hs => endDocument_skirts (hs file)
  refine (Skirts.abstains hwatchers).bind fun _ => stays_get.bind fun s => ?_
  refine (Stays.forM fun index _ => Skirts.abstains (closeIfOpen_skirts _)).bind fun _ =>
    stays_get.bind fun s => (Stays.forM fun file _ => hend file).bind fun _ => ?_
  exact Skirts.abstains (hfinish.onPart fun _ _ hg => ⟨rfl, hg⟩)

end Store

end SymbolGraph
