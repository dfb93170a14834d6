import Mathlib.Logic.Relation
import SymbolGraph.Proofs.Store.Order

/-!
# Proofs — Store — what a run does to a store, step by step

Everything a run does to a store is one of a few small steps.  While symbols are resolved and
mentions are recorded, the store only *collects*; when the walk leaves a node, and at the end of the
project, it *closes*.  A step says what it changes and what was true before, so that every law of a
store is a matter of looking at each kind of step once.

* `Store.Collects`, `Store.Closes`: the two kinds of steps.
* `Store.Collects.orderly`, `Store.Closes.orderly`: a store stays in order.
* `Store.Collects.lasts`, `Store.Closes.lasts`: nothing is lost.
* `Store.Collects.spares`: collecting clears and closes nothing.
-/

namespace SymbolGraph

/-- What a document says at its end: what it contains, if it contains anything. -/
def Document.Says (document : Document) (written : List Element) : Prop :=
  document.ranges = [] ∧ written = [] ∨
    ∃ e, written = [.edge e (.contains document.vertex.id document.ranges)]

namespace Store

/-- One step of collecting. -/
inductive Collects (w : Setting) (s : Store) : Store → Prop
  /-- Something quiet is delivered. -/
  | delivers {graph : Graph} {written : List Element} : s.graph.Delivers written graph →
      (∀ e ∈ written, e.IsQuiet) → Collects w s { s with graph }
  /-- Something that led nowhere is led on. -/
  | links {graph : Graph} {e source target : ElementId} :
      s.graph.Delivers [.edge e (.link .next source target)] graph →
      source ∉ nextSourcesIn s.elements → source.value ≤ s.graph.issued →
      Collects w s { s with graph }
  /-- A range is led to a record, which takes note of its coordinates. -/
  | defines {graph : Graph} {id : RecordId} {info : DefinitionInfo} {e x : ElementId}
      {tag : RangeTag} {hub : VertexRef} :
      Element.vertex x (.range (w.program.span info) (some tag)) ∈ s.elements →
      s.Shelved info.file x → s.hub? id = some hub → x ∉ nextSourcesIn s.elements →
      s.graph.Delivers [.edge e (.link .next x hub.id)] graph →
      Collects w s { s with
        graph, records := s.records.modify id.index fun record => record.addInfo info }
  /-- A record collects something. -/
  | amends {id : RecordId} {f : Record → Record} :
      (∀ r, s.records[id.index]? = some r →
        r.Amends (f r) ∧ (f r).definitionInfos = r.definitionInfos) →
      Collects w s { s with records := s.records.modify id.index f }
  /-- A record is to be told of the end of a node. -/
  | watches {watchers : Table NodeId (List RecordId)} : Collects w s { s with watchers }
  /-- A document is made. -/
  | opens {graph : Graph} {file : FileId} {document : Document} {x : ElementId} :
      s.documents.get? file = none →
      s.graph.Delivers [.vertex x (w.program.documentVertex file)] graph →
      document.vertex.id = x → document.ranges = [] →
      Collects w s { s with
        graph, project := s.project.addDocument x
        documents := s.documents.insert file (.live document) }
  /-- A range is placed in a document. -/
  | shelves {file : FileId} {document : Document} {x : ElementId} :
      s.documents.get? file = some (.live document) → x ∉ s.placed → x.value ≤ s.graph.issued →
      Collects w s { s with documents := s.documents.insert file (.live (document.addRange x)) }
  /-- The symbols of a document change. -/
  | nests {file : FileId} {document document' : Document} :
      s.documents.get? file = some (.live document) → document'.vertex = document.vertex →
      document'.ranges = document.ranges →
      Collects w s { s with documents := s.documents.insert file (.live document') }

/-- One step of closing, when the walk leaves a node or, without a node, at the end of the
project. -/
inductive Closes (w : Setting) (leaving : Option NodeId) (s : Store) : Store → Prop
  /-- Those to be told change. -/
  | tells {watchers : Table NodeId (List RecordId)} : Closes w leaving s { s with watchers }
  /-- A record is closed; before the end of the project, only one that is local to the node. -/
  | closes {graph : Graph} {written : List Element} {id : RecordId} {r r' : Record} :
      s.records[id.index]? = some r → (∀ node, leaving = some node → r.scope = some node) →
      r.Ends (fun _ => False) r' → s.graph.Delivers written graph → (∀ e ∈ written, e.IsQuiet) →
      Closes w leaving s { s with graph, records := s.records.modify id.index fun _ => r' }
  /-- A record that is local to the node counts as cleared. -/
  | clears {i : Nat} {r : Record} : s.records[i]? = some r →
      (∀ node, leaving = some node → r.scope = some node) →
      Closes w leaving s { s with cache := s.cache.insert r.key .cleared }
  /-- A partition ends with its file. -/
  | ends {graph : Graph} {written : List Element} {id : RecordId} {r r' : Record} {node : NodeId} :
      leaving = some node → w.program.kind node = .sourceFile → s.records[id.index]? = some r →
      r.Ends (fun file => file = w.program.fileOf node) r' → (r'.state = .closed → r.state = .closed) →
      s.graph.Delivers written graph → (∀ e ∈ written, e.IsQuiet) →
      Closes w leaving s { s with graph, records := s.records.modify id.index fun _ => r' }
  /-- A document ends and says what it contains. -/
  | finishes {graph : Graph} {written : List Element} {file : FileId} {document : Document} :
      s.documents.get? file = some (.live document) →
      (∀ node, leaving = some node →
        w.program.kind node = .sourceFile ∧ file = w.program.fileOf node) →
      s.graph.Delivers written graph → document.Says written →
      Closes w leaving s { s with graph, documents := s.documents.insert file .cleared }
  /-- Something quiet is delivered. -/
  | delivers {graph : Graph} {written : List Element} : s.graph.Delivers written graph →
      (∀ e ∈ written, e.IsQuiet) → Closes w leaving s { s with graph }

variable {w : Setting} {s t : Store} {graph : Graph} {written : List Element}

/-! ### Delivery -/

/-- The ids that were delivered were issued. -/
theorem Counted.ids_delivers (h : s.Counted w) (hd : s.graph.Delivers written graph) :
    ∀ e ∈ graph.elements, e.id.value ≤ graph.issued := by
  intro e he
  rw [hd.elements] at he
  rcases List.mem_append.mp he with he | he
  · exact Nat.le_trans (h.ids e he) hd.issued
  · exact (hd.ids e he).2

/-- Delivering something that is no document and says nothing of what is contained. -/
theorem Counted.delivers (h : s.Counted w) (hd : s.graph.Delivers written graph)
    (hdocument : ∀ e ∈ written, e.document? = none)
    (hcontainment : ∀ e ∈ written, e.containment? = none)
    (htagged : ∀ e ∈ written, ∀ id span, e ≠ .vertex id (.range span none))
    (hleading : graph.Once (nextSourcesIn graph.elements)) : Counted w { s with graph } := by
  have hdocuments : documentsIn graph.elements = documentsIn s.elements := by
    rw [hd.elements, documentsIn_append, documentsIn, documentsIn,
      List.filterMap_eq_nil_iff.mpr hdocument, List.append_nil]
  have hcontainments : containmentsIn graph.elements = containmentsIn s.elements := by
    rw [hd.elements, containmentsIn_append, containmentsIn, containmentsIn,
      List.filterMap_eq_nil_iff.mpr hcontainment, List.append_nil]
  have hplaced : Store.placed { s with graph } = s.placed := by
    simp only [Store.placed, elements, hcontainments]
  have hcontaining : Store.containing { s with graph } = s.containing := by
    simp only [Store.containing, elements, hcontainments]
  refine ⟨hd.memory, h.ids_delivers hd, fun id span hmem => ?_, ?_, ?_, hleading, h.keys, ?_,
    fun file document hlive => (h.live file document hlive).mono (List.prefix_refl _) hd.keeps, ?_⟩
  · rw [elements, hd.elements] at hmem
    rcases List.mem_append.mp hmem with hmem | hmem
    · exact h.tagged id span hmem
    · exact htagged _ hmem id span rfl
  · rw [hplaced]
    exact h.placed.mono hd.issued
  · rw [hcontaining]
    exact h.containing.mono hd.issued
  · rw [elements, hdocuments]
    exact h.vertices
  · rw [elements, hdocuments]
    exact h.project

/-- What is quiet places nothing. -/
theorem placed_quiet (hd : s.graph.Delivers written graph) (hq : ∀ e ∈ written, e.IsQuiet) :
    Store.placed { s with graph } = s.placed := by
  simp only [Store.placed, elements, hd.elements, containmentsIn_quiet hq]

/-- Quiet elements add to none of the lists that are counted. -/
theorem Counted.quiet (h : s.Counted w) (hd : s.graph.Delivers written graph)
    (hq : ∀ e ∈ written, e.IsQuiet) : Counted w { s with graph } := by
  refine h.delivers hd (fun e he => (hq e he).document) (fun e he => (hq e he).containment)
    (fun e he => (hq e he).tagged) ?_
  rw [hd.elements, nextSourcesIn_quiet hq]
  exact h.leading.mono hd.issued

/-- A range leads on at most once. -/
theorem Counted.next (h : s.Counted w) {e source target : ElementId}
    (hd : s.graph.Delivers [.edge e (.link .next source target)] graph)
    (hnew : source ∉ nextSourcesIn s.elements) (hsource : source.value ≤ s.graph.issued) :
    Counted w { s with graph } := by
  refine h.delivers hd (by simp [Element.document?]) (by simp [Element.containment?])
    (by simp) ?_
  rw [hd.elements, nextSourcesIn_append]
  have honce := (h.leading.mono hd.issued).cons hnew (Nat.le_trans hsource hd.issued)
  exact honce.perm (List.perm_append_singleton _ _).symm

/-- The counts hang on the graph, the project and the documents alone. -/
theorem Counted.congr (h : s.Counted w) (hgraph : t.graph = s.graph)
    (hproject : t.project = s.project) (hdocuments : t.documents = s.documents) :
    t.Counted w := by
  obtain ⟨graph, project, records, cache, documents, watchers⟩ := t
  subst hgraph hproject hdocuments
  exact ⟨h.memory, h.ids, h.tagged, h.placed, h.containing, h.leading, h.keys, h.vertices, h.live,
    h.project⟩

/-! ### Documents -/

/-- A new document holds no range. -/
theorem placed_open {project : Project} {file : FileId} {document : Document} {v : Vertex}
    (hnone : s.documents.get? file = none)
    (hd : s.graph.Delivers [.vertex document.vertex.id v] graph) (hranges : document.ranges = []) :
    placed { s with graph, project, documents := s.documents.insert file (.live document) }
      = s.placed := by
  have hentries : (s.documents.insert file (.live document)).entries
      = s.documents.entries ++ [(file, .live document)] := Table.entries_insert_of_none hnone
  have hcontainments : containmentsIn graph.elements = containmentsIn s.elements := by
    rw [hd.elements, containmentsIn_append]
    exact List.append_nil _
  simp [placed, hcontainments, openRanges, hentries, Slot.ranges, hranges]

/-- A new document. -/
theorem Counted.open (h : s.Counted w) {file : FileId} {document : Document}
    (hnone : s.documents.get? file = none)
    (hd : s.graph.Delivers [.vertex document.vertex.id (w.program.documentVertex file)] graph)
    (hranges : document.ranges = []) :
    Counted w { s with
      graph, project := s.project.addDocument document.vertex.id
      documents := s.documents.insert file (.live document) } := by
  have hentries : (s.documents.insert file (.live document)).entries
      = s.documents.entries ++ [(file, .live document)] := Table.entries_insert_of_none hnone
  have hvertices : openVertices (s.documents.insert file (.live document))
      = openVertices s.documents ++ [document.vertex.id] := by
    simp [openVertices, hentries, Slot.vertices]
  have hkeys : (s.documents.insert file (.live document)).keys = s.documents.keys ++ [file] :=
    Table.keys_insert_of_none hnone
  have hdocuments : documentsIn graph.elements = documentsIn s.elements ++
      [(document.vertex.id, w.program.documentVertex file)] := by
    rw [hd.elements, documentsIn_append]
    rfl
  have hcontainments : containmentsIn graph.elements = containmentsIn s.elements := by
    rw [hd.elements, containmentsIn_append]
    exact List.append_nil _
  have hlength : (documentsIn s.elements).length = s.documents.keys.length := by
    have hlength := congrArg List.length h.vertices
    rwa [List.length_map, List.length_map] at hlength
  refine ⟨hd.memory, h.ids_delivers hd, fun id span hmem => ?_, ?_, ?_, ?_,
    Table.nodup_keys_insert h.keys, ?_, fun file' document' hlive => ?_, ?_⟩
  · rw [elements, hd.elements] at hmem
    rcases List.mem_append.mp hmem with hmem | hmem
    · exact h.tagged id span hmem
    · cases List.mem_singleton.mp hmem
  · rw [placed_open hnone hd hranges]
    exact h.placed.mono hd.issued
  · -- The new document comes last, under an id that nothing has used before.
    have hnew : document.vertex.id ∉ s.containing :=
      h.containing.not_mem hd (List.mem_singleton_self _)
    have honce := (h.containing.mono hd.issued).cons hnew (hd.ids _ (List.mem_singleton_self _)).2
    refine honce.perm (List.perm_iff_count.mpr fun x => ?_)
    simp only [Store.containing, elements, hcontainments, hvertices, Project.addDocument,
      List.count_cons, List.count_append, List.count_nil]
    omega
  · rw [elements, hd.elements, nextSourcesIn_append]
    exact (List.append_nil _).symm ▸ h.leading.mono hd.issued
  · rw [elements, hdocuments, hkeys, List.map_append, List.map_append, h.vertices]
    rfl
  · rw [Table.get?_insert] at hlive
    split at hlive
    · rename_i hfile
      cases hlive
      refine ⟨s.documents.keys.length, w.program.documentVertex file, ?_, ?_⟩
      · rw [hkeys, hfile, List.getElem?_concat_length]
      · rw [elements, hdocuments, ← hlength, List.getElem?_concat_length]
    · exact (h.live file' document' hlive).mono Table.keys_prefix_insert hd.keeps
  · rw [elements, hdocuments, List.map_append, ← h.project]
    rfl

/-- A live document is replaced by a slot; what it said meanwhile is what it contained. -/
theorem Counted.replace (h : s.Counted w) {file : FileId} {document : Document}
    {slot : Slot Document} (hlive : s.documents.get? file = some (.live document))
    (hd : s.graph.Delivers written graph) (hdocument : ∀ e ∈ written, e.document? = none)
    (hnext : ∀ e ∈ written, e.nextSource? = none)
    (htagged : ∀ e ∈ written, ∀ id span, e ≠ .vertex id (.range span none))
    (hvertex : ∀ document', slot = .live document' → document'.vertex = document.vertex)
    (hplaced : graph.Once (Store.placed
      { s with graph, documents := s.documents.insert file slot }))
    (hcontaining : graph.Once (Store.containing
      { s with graph, documents := s.documents.insert file slot })) :
    Counted w { s with graph, documents := s.documents.insert file slot } := by
  have hdocuments : documentsIn graph.elements = documentsIn s.elements := by
    rw [hd.elements, documentsIn_append, documentsIn, documentsIn,
      List.filterMap_eq_nil_iff.mpr hdocument, List.append_nil]
  have hkeys : (s.documents.insert file slot).keys = s.documents.keys :=
    Table.keys_insert_of_some hlive
  refine ⟨hd.memory, h.ids_delivers hd, fun id span hmem => ?_, hplaced, hcontaining, ?_, ?_, ?_,
    fun file' document' hlive' => ?_, ?_⟩
  · rw [elements, hd.elements] at hmem
    rcases List.mem_append.mp hmem with hmem | hmem
    · exact h.tagged id span hmem
    · exact htagged _ hmem id span rfl
  · rw [elements, hd.elements, nextSourcesIn_append, nextSourcesIn, nextSourcesIn,
      List.filterMap_eq_nil_iff.mpr hnext, List.append_nil]
    exact h.leading.mono hd.issued
  · rw [hkeys]
    exact h.keys
  · rw [elements, hdocuments, hkeys]
    exact h.vertices
  -- The slot that was replaced is live again only with the vertex it had.
  · rw [Table.get?_insert] at hlive'
    have hold : s.DocumentOf file' document'.vertex.id := by
      split at hlive'
      · rename_i hfile
        rw [hfile, hvertex document' (Option.some.inj hlive')]
        exact h.live file document hlive
      · exact h.live file' document' hlive'
    exact hold.mono Table.keys_prefix_insert hd.keeps
  · rw [elements, hdocuments]
    exact h.project

/-- Writing to the slot of a live document changes its ranges in their place. -/
theorem openRanges_insert (h : s.Counted w) {file : FileId} {document : Document}
    (hlive : s.documents.get? file = some (.live document)) (slot : Slot Document) :
    ∃ before after, openRanges s.documents = before ++ document.ranges ++ after ∧
      openRanges (s.documents.insert file slot) = before ++ slot.ranges ++ after :=
  Table.flatMap_insert (fun entry => entry.2.ranges) h.keys hlive slot

@[inherit_doc openRanges_insert]
theorem openVertices_insert (h : s.Counted w) {file : FileId} {document : Document}
    (hlive : s.documents.get? file = some (.live document)) (slot : Slot Document) :
    ∃ before after, openVertices s.documents = before ++ [document.vertex.id] ++ after ∧
      openVertices (s.documents.insert file slot) = before ++ slot.vertices ++ after :=
  Table.flatMap_insert (fun entry => entry.2.vertices) h.keys hlive slot

/-- Writing to the slot of a document under its own vertex leaves open what was open. -/
theorem openVertices_live (h : s.Counted w) {file : FileId} {document document' : Document}
    (hlive : s.documents.get? file = some (.live document))
    (hvertex : document'.vertex = document.vertex) :
    openVertices (s.documents.insert file (.live document')) = openVertices s.documents := by
  obtain ⟨before, after, hold, hnew⟩ := openVertices_insert h hlive (.live document')
  rw [hnew, hold, Slot.vertices, hvertex]

/-- A range is placed in a document. -/
theorem Counted.shelve (h : s.Counted w) {file : FileId} {document : Document} {x : ElementId}
    (hlive : s.documents.get? file = some (.live document)) (hnew : x ∉ s.placed)
    (hx : x.value ≤ s.graph.issued) :
    Counted w { s with documents := s.documents.insert file (.live (document.addRange x)) } := by
  refine h.replace hlive (.refl h.memory) (List.forall_mem_nil _) (List.forall_mem_nil _)
    (List.forall_mem_nil _) (fun _ heq => ?_) ?_ ?_
  · cases heq
    rfl
  · obtain ⟨before, after, hold, hinserted⟩ :=
      openRanges_insert h hlive (.live (document.addRange x))
    have hranges : (Slot.live (document.addRange x)).ranges = document.ranges ++ [x] := rfl
    refine (h.placed.cons hnew hx).perm (List.perm_iff_count.mpr fun y => ?_)
    simp only [Store.placed, elements, hold, hinserted, hranges, List.count_cons,
      List.count_append, List.count_nil]
    omega
  · have hvertex : (document.addRange x).vertex = document.vertex := rfl
    simp only [Store.containing, openVertices_live h hlive hvertex]
    exact h.containing

/-- Only the symbols of a document change. -/
theorem Counted.nest (h : s.Counted w) {file : FileId} {document document' : Document}
    (hlive : s.documents.get? file = some (.live document))
    (hvertex : document'.vertex = document.vertex) (hranges : document'.ranges = document.ranges) :
    Counted w { s with documents := s.documents.insert file (.live document') } := by
  refine h.replace hlive (.refl h.memory) (List.forall_mem_nil _) (List.forall_mem_nil _)
    (List.forall_mem_nil _) (fun _ heq => ?_) ?_ ?_
  · cases heq
    exact hvertex
  · obtain ⟨before, after, hold, hinserted⟩ := openRanges_insert h hlive (.live document')
    have hsame : openRanges (s.documents.insert file (.live document')) = openRanges s.documents := by
      rw [hinserted, hold, Slot.ranges, hranges]
    simp only [Store.placed, hsame]
    exact h.placed
  · simp only [Store.containing, openVertices_live h hlive hvertex]
    exact h.containing

/-- A document ends: what it held is now said to be contained in it. -/
theorem Counted.finish (h : s.Counted w) {file : FileId} {document : Document}
    (hlive : s.documents.get? file = some (.live document))
    (hd : s.graph.Delivers written graph) (hwrote : document.Says written) :
    Counted w { s with graph, documents := s.documents.insert file .cleared } := by
  obtain ⟨before, after, hold, hinserted⟩ := openRanges_insert h hlive .cleared
  obtain ⟨before', after', hold', hinserted'⟩ := openVertices_insert h hlive .cleared
  have hplaced := h.placed.mono hd.issued
  have hcontaining := h.containing.mono hd.issued
  simp only [Store.placed, hold] at hplaced
  simp only [Store.containing, hold'] at hcontaining
  rcases hwrote with ⟨hnil, rfl⟩ | ⟨e, rfl⟩
  · have helements : graph.elements = s.elements := by rw [hd.elements, List.append_nil]
    refine h.replace hlive hd (List.forall_mem_nil _) (List.forall_mem_nil _)
      (List.forall_mem_nil _) (fun _ heq => by cases heq) ?_ ?_
    · simp only [Store.placed, hinserted, Slot.ranges, elements, helements]
      rw [hnil] at hplaced
      exact hplaced
    · simp only [Store.containing, hinserted', Slot.vertices, elements, helements,
        List.append_nil]
      exact hcontaining.sublist (((List.Sublist.refl _).append
        ((List.sublist_append_left _ _).append (.refl _))).cons_cons _)
  · -- The ranges and the vertex move from the live documents to the edge.
    have hcontainments : containmentsIn graph.elements
        = containmentsIn s.elements ++ [(document.vertex.id, document.ranges)] := by
      rw [hd.elements, containmentsIn_append]
      rfl
    refine h.replace hlive hd (by simp [Element.document?]) (by simp [Element.nextSource?])
      (by simp) (fun _ heq => by cases heq) ?_ ?_
    · refine hplaced.perm (List.perm_iff_count.mpr fun x => ?_)
      simp only [Store.placed, hinserted, Slot.ranges, elements, hcontainments,
        List.flatMap_append, List.flatMap_singleton, List.count_append, List.count_nil]
      omega
    · refine hcontaining.perm (List.perm_iff_count.mpr fun x => ?_)
      simp only [Store.containing, hinserted', Slot.vertices, elements, hcontainments,
        List.map_append, List.map_cons, List.map_nil, List.count_cons, List.count_append,
        List.count_nil]
      omega

/-! ### Records -/

/-- The records of an array, place by place. -/
def Renews (change : Record → Record → Prop) (old new : Array Record) : Prop :=
  ∀ i : Nat, Option.Rel change old[i]? new[i]?

section Renews

variable {change : Record → Record → Prop} {old new : Array Record}

/-- Every old record has a new one in its place. -/
theorem Renews.forward (h : Renews change old new) {i : Nat} {r : Record}
    (hr : old[i]? = some r) : ∃ r', new[i]? = some r' ∧ change r r' := by
  have hi := h i
  rw [hr] at hi
  generalize new[i]? = found at hi
  cases hi with
  | some hchange => exact ⟨_, rfl, hchange⟩

/-- Every new record had an old one in its place. -/
theorem Renews.backward (h : Renews change old new) {i : Nat} {r' : Record}
    (hr' : new[i]? = some r') : ∃ r, old[i]? = some r ∧ change r r' := by
  have hi := h i
  rw [hr'] at hi
  generalize old[i]? = found at hi
  cases hi with
  | some hchange => exact ⟨_, rfl, hchange⟩

theorem Renews.refl (hrefl : ∀ r, change r r) (records : Array Record) :
    Renews change records records := by
  intro i
  cases records[i]? with
  | none => exact .none
  | some r => exact .some (hrefl r)

theorem renews_amends (records : Array Record) : Renews Record.Amends records records :=
  .refl Record.Amends.refl records

/-- One record is replaced, the others stay. -/
theorem Renews.modify (hrefl : ∀ r, change r r) {i : Nat} {f : Record → Record}
    (hf : ∀ r, old[i]? = some r → change r (f r)) : Renews change old (old.modify i f) := by
  intro j
  rw [Array.getElem?_modify]
  by_cases hij : i = j
  · subst hij
    rw [if_pos rfl]
    cases hr : old[i]? with
    | none => exact .none
    | some r => exact .some (hf r hr)
  · rw [if_neg hij]
    exact Renews.refl hrefl old j

/-- No record comes or goes. -/
theorem Renews.size (h : Renews change old new) : new.size = old.size := by
  have hnone (i : Nat) : old[i]? = none ↔ new[i]? = none := by
    have hi := h i
    generalize old[i]? = before at hi
    generalize new[i]? = after at hi
    cases hi with
    | none => exact Iff.rfl
    | some => exact ⟨nofun, nofun⟩
  simp only [Array.getElem?_eq_none_iff] at hnone
  exact Nat.le_antisymm ((hnone _).mp (Nat.le_refl _)) ((hnone _).mpr (Nat.le_refl _))

end Renews

/-! ### Keys -/

section Keyed

variable {change : Record → Record → Prop}

/-- Records keep their keys. -/
theorem Keyed.renew (h : s.Keyed) (hcache : t.cache = s.cache)
    (hrenews : Renews change s.records t.records)
    (hkey : ∀ r r', change r r' → r'.key = r.key) : t.Keyed where
  known i r' hr' := by
    obtain ⟨r, hr, hchange⟩ := hrenews.backward hr'
    rw [hcache, hkey r r' hchange]
    exact h.known i r hr
  live key id hid := by
    rw [hcache] at hid
    obtain ⟨r, hr, rfl⟩ := h.live key id hid
    obtain ⟨r', hr', hchange⟩ := hrenews.forward hr
    exact ⟨r', hr', hkey r r' hchange⟩
  single i j r₁' r₂' hr₁' hr₂' heq := by
    obtain ⟨r₁, hr₁, hchange₁⟩ := hrenews.backward hr₁'
    obtain ⟨r₂, hr₂, hchange₂⟩ := hrenews.backward hr₂'
    rw [hkey r₁ r₁' hchange₁, hkey r₂ r₂' hchange₂] at heq
    exact h.single i j r₁ r₂ hr₁ hr₂ heq

/-- The cache says something else of a symbol without a record. -/
theorem Keyed.recache (h : s.Keyed) {key : SymbolKey} {cache : Table SymbolKey CacheSlot}
    (hnew : ¬ s.Knows key) (hother : ∀ key', key' ≠ key → cache.get? key' = s.cache.get? key')
    (hlive : ∀ id, cache.get? key ≠ some (.live id)) : Keyed { s with cache } where
  known i r hr := by
    have hne : r.key ≠ key := by
      intro heq
      rcases h.known i r hr with hfound | hfound
      · exact hnew ⟨.live ⟨i⟩, heq ▸ hfound, nofun⟩
      · exact hnew ⟨.cleared, heq ▸ hfound, nofun⟩
    rw [show cache.get? r.key = s.cache.get? r.key from hother _ hne]
    exact h.known i r hr
  live key' id hid := by
    by_cases hkey : key' = key
    · exact absurd (hkey ▸ hid) (hlive id)
    · exact h.live key' id ((hother key' hkey).symm.trans hid)
  single := h.single

/-- A symbol counts as cleared. -/
theorem Keyed.clear (h : s.Keyed) (key : SymbolKey) :
    Keyed { s with cache := s.cache.insert key .cleared } where
  known j r' hr' := by
    rw [Table.get?_insert]
    split
    · exact .inr rfl
    · exact h.known j r' hr'
  live key' id hid := by
    rw [Table.get?_insert] at hid
    split at hid
    · cases hid
    · exact h.live key' id hid
  single := h.single

end Keyed

/-! ### What lasts -/

/-- What was contained is contained when more is delivered. -/
theorem contained_mono {earlier later : List Element} (h : earlier <+: later)
    {document x : ElementId} (hc : Contained earlier document x) : Contained later document x := by
  obtain ⟨e, targets, he, hx⟩ := hc
  exact ⟨e, targets, h.subset he, hx⟩

section Lasts

variable {change : Record → Record → Prop}

/-- Elements are delivered and records renewed. -/
theorem lasts_renew (helements : s.elements <+: t.elements) (hdocuments : t.documents = s.documents)
    (hcache : t.cache = s.cache) (hrenews : Renews change s.records t.records)
    (hchange : ∀ r r', change r r' → r.Endures r') : s.Lasts t where
  elements := helements
  records i r hr := by
    obtain ⟨r', hr', hc⟩ := hrenews.forward hr
    exact ⟨r', hr', hchange r r' hc⟩
  keys := hdocuments ▸ List.prefix_refl _
  ranges document x hx := by
    rcases hx with hx | hx
    · left
      unfold HasRange
      rw [hdocuments]
      exact hx
    · exact .inr (contained_mono helements hx)
  ended _ hc := hdocuments ▸ hc
  knows key hk := by
    unfold Knows
    rw [hcache]
    exact hk

/-- The cache changes what it says of one symbol. -/
theorem lasts_cache {key : SymbolKey} {cache : Table SymbolKey CacheSlot}
    (hother : ∀ key', key' ≠ key → cache.get? key' = s.cache.get? key')
    (hkey : s.Knows key → ∃ slot, cache.get? key = some slot ∧ slot ≠ .resolving) :
    s.Lasts { s with cache } where
  elements := List.prefix_refl _
  records _ r hr := ⟨r, hr, .refl r⟩
  keys := List.prefix_refl _
  ranges _ _ hx := hx
  ended _ hc := hc
  knows key' hk := by
    by_cases heq : key' = key
    · exact heq ▸ hkey (heq ▸ hk)
    · obtain ⟨slot, hslot, hne⟩ := hk
      exact ⟨slot, (hother key' heq).trans hslot, hne⟩

/-- A slot is written for a document that has not ended, whose ranges stay with it or are said to be
contained. -/
theorem lasts_documents {project : Project} {file : FileId} {slot : Slot Document}
    (hkeeps : s.elements <+: graph.elements) (hopen : s.documents.get? file ≠ some .cleared)
    (hslot : ∀ document, s.documents.get? file = some (.live document) → ∀ x ∈ document.ranges,
      (∃ document', slot = .live document' ∧ document'.vertex = document.vertex ∧
        x ∈ document'.ranges) ∨ Contained graph.elements document.vertex.id x) :
    s.Lasts { s with graph, project, documents := s.documents.insert file slot } where
  elements := hkeeps
  records _ r hr := ⟨r, hr, .refl r⟩
  keys := Table.keys_prefix_insert
  ranges document x hx := by
    rcases hx with ⟨file', known, hknown, rfl, hmem⟩ | hx
    · by_cases hfile : file' = file
      · subst hfile
        rcases hslot known hknown x hmem with ⟨document', rfl, hvertex, hmem'⟩ | hcontained
        · refine .inl ⟨file', document', ?_, congrArg VertexRef.id hvertex, hmem'⟩
          exact (Table.get?_insert _ _ _ _).trans (if_pos rfl)
        · exact .inr hcontained
      · refine .inl ⟨file', known, ?_, rfl, hmem⟩
        exact (Table.get?_insert _ _ _ _).trans ((if_neg hfile).trans hknown)
    · exact .inr (contained_mono hkeeps hx)
  ended file' hc := by
    have hne : file' ≠ file := fun heq => hopen (heq ▸ hc)
    exact (Table.get?_insert _ _ _ _).trans ((if_neg hne).trans hc)
  knows _ hk := hk

end Lasts

/-! ### Steps -/

/-- Other keys keep their values when one is put. -/
theorem get?_insert_of_ne {κ α : Type} [DecidableEq κ] {table : Table κ α} {key : κ} (value : α)
    (key' : κ) (hne : key' ≠ key) : (table.insert key value).get? key' = table.get? key' :=
  (table.get?_insert key key' value).trans (if_neg hne)

/-- Other keys keep their values when one is erased. -/
theorem get?_erase_of_ne {κ α : Type} [DecidableEq κ] {table : Table κ α} {key : κ}
    (key' : κ) (hne : key' ≠ key) : (table.erase key).get? key' = table.get? key' :=
  (table.get?_erase key key').trans (if_neg hne)

theorem not_knows_of_none {key : SymbolKey} (h : s.cache.get? key = none) : ¬ s.Knows key := by
  intro hk
  obtain ⟨slot, hslot, -⟩ := hk
  rw [h] at hslot
  cases hslot

theorem not_knows_of_resolving {key : SymbolKey} (h : s.cache.get? key = some .resolving) :
    ¬ s.Knows key := by
  intro hk
  obtain ⟨slot, hslot, hne⟩ := hk
  rw [h] at hslot
  exact hne (Option.some.inj hslot).symm

/-- **Nothing is lost by collecting.** -/
theorem Collects.lasts (h : Collects w s t) : s.Lasts t := by
  cases h with
  | delivers hd => exact lasts_renew hd.keeps rfl rfl (renews_amends _) fun _ _ hc => hc.toEndures
  | links hd => exact lasts_renew hd.keeps rfl rfl (renews_amends _) fun _ _ hc => hc.toEndures
  | defines _ _ _ _ hd =>
      exact lasts_renew hd.keeps rfl rfl
        (.modify Record.Amends.refl fun r _ => r.amends_addInfo _) fun _ _ hc => hc.toEndures
  | amends hf =>
      exact lasts_renew (List.prefix_refl _) rfl rfl
        (.modify Record.Amends.refl fun r hr => (hf r hr).1) fun _ _ hc => hc.toEndures
  | watches =>
      exact lasts_renew (List.prefix_refl _) rfl rfl (renews_amends _) fun _ _ hc => hc.toEndures
  | opens hnone hd =>
      refine lasts_documents hd.keeps (hnone ▸ nofun) fun document hlive => ?_
      rw [hnone] at hlive
      cases hlive
  | shelves hlive =>
      refine lasts_documents (List.prefix_refl _) (hlive ▸ nofun)
        fun document hlive' x hx => .inl ?_
      cases hlive.symm.trans hlive'
      exact ⟨_, rfl, rfl, List.mem_append_left _ hx⟩
  | nests hlive hvertex hranges =>
      refine lasts_documents (List.prefix_refl _) (hlive ▸ nofun)
        fun document hlive' x hx => .inl ?_
      cases hlive.symm.trans hlive'
      exact ⟨_, rfl, hvertex, hranges ▸ hx⟩

theorem renews_ends {files : FileId → Prop} {records : Array Record} {i : Nat} {r r' : Record}
    (hr : records[i]? = some r) (hends : r.Ends files r') :
    Renews (Record.Ends files) records (records.modify i fun _ => r') := by
  refine .modify (Record.Ends.refl files) fun r₀ hr₀ => ?_
  cases hr.symm.trans hr₀
  exact hends

/-- **Nothing is lost by closing.** -/
theorem Closes.lasts {leaving : Option NodeId} (h : Closes w leaving s t) : s.Lasts t := by
  cases h with
  | tells =>
      exact lasts_renew (List.prefix_refl _) rfl rfl (renews_amends _) fun _ _ hc => hc.toEndures
  | closes hr _ hends hd =>
      refine lasts_renew hd.keeps rfl rfl (renews_ends hr hends) fun _ _ hc => hc.toEndures
  | clears hr =>
      refine lasts_cache (get?_insert_of_ne _) fun _ => ⟨.cleared, ?_, nofun⟩
      exact (Table.get?_insert _ _ _ _).trans (if_pos rfl)
  | ends _ _ hr hends _ hd =>
      refine lasts_renew hd.keeps rfl rfl (renews_ends hr hends) fun _ _ hc => hc.toEndures
  | finishes hlive _ hd hwrote =>
      refine lasts_documents hd.keeps (hlive ▸ nofun) fun document hlive' x hx => .inr ?_
      obtain rfl := Slot.live.inj (Option.some.inj (hlive'.symm.trans hlive))
      rcases hwrote with ⟨hnil, -⟩ | ⟨e, rfl⟩
      · rw [hnil] at hx
        cases hx
      · refine ⟨e, document.ranges, ?_, hx⟩
        rw [hd.elements]
        exact List.mem_append_right _ (List.mem_singleton_self _)
  | delivers hd => exact lasts_renew hd.keeps rfl rfl (renews_amends _) fun _ _ hc => hc.toEndures

/-- Collecting leaves the counts right. -/
theorem Collects.counted (h : Collects w s t) (hs : s.Counted w) : t.Counted w := by
  cases h with
  | delivers hd hq => exact hs.quiet hd hq
  | links hd hnew hsource => exact hs.next hd hnew hsource
  | defines hx _ _ hnew hd => exact (hs.next hd hnew (hs.ids _ hx)).congr rfl rfl rfl
  | amends => exact hs.congr rfl rfl rfl
  | watches => exact hs.congr rfl rfl rfl
  | opens hnone hd hvertex hranges =>
      subst hvertex
      exact hs.open hnone hd hranges
  | shelves hlive hnew hx => exact hs.shelve hlive hnew hx
  | nests hlive hvertex hranges => exact hs.nest hlive hvertex hranges

/-- What happens to records while collecting. -/
theorem Collects.amending (h : Collects w s t) : Renews Record.Amends s.records t.records := by
  cases h with
  | defines => exact .modify Record.Amends.refl fun r _ => r.amends_addInfo _
  | amends hf => exact .modify Record.Amends.refl fun r hr => (hf r hr).1
  | _ => exact renews_amends _

/-- Collecting does not touch the cache. -/
theorem Collects.cache (h : Collects w s t) : t.cache = s.cache := by
  cases h with
  | _ => rfl

/-- Coordinates that are recorded now were recorded before, or they were just backed. -/
theorem Collects.noted (h : Collects w s t) {i : Nat} {r' : Record} (hr' : t.records[i]? = some r')
    {info : DefinitionInfo} (hinfo : info ∈ r'.definitionInfos) :
    (∃ r, s.records[i]? = some r ∧ info ∈ r.definitionInfos) ∨ t.Occurs w ⟨i⟩ info := by
  have hlasts := h.lasts
  have hold (hrenews : Renews Record.NotesNothing s.records t.records) :
      ∃ r, s.records[i]? = some r ∧ info ∈ r.definitionInfos := by
    obtain ⟨r, hr, hnotes⟩ := hrenews.backward hr'
    exact ⟨r, hr, hnotes info hinfo⟩
  cases h with
  | @defines graph id noted e x tag hub hx hshelved hhub hnew hd =>
      rw [Array.getElem?_modify] at hr'
      split at hr'
      · rename_i hid
        obtain ⟨r, hr, rfl⟩ := Option.map_eq_some_iff.mp hr'
        rcases Record.mem_addInfo hinfo with hinfo | rfl
        · exact .inl ⟨r, hr, hinfo⟩
        · obtain rfl : id = ⟨i⟩ := congrArg RecordId.mk hid
          refine .inr ⟨x, tag, hub, hlasts.elements.subset hx, hlasts.shelved hshelved,
            hlasts.hub? hhub, e, ?_⟩
          show _ ∈ graph.elements
          rw [hd.elements]
          exact List.mem_append_right _ (List.mem_singleton_self _)
      · exact .inl ⟨r', hr', hinfo⟩
  | amends hf =>
      refine .inl (hold (.modify Record.NotesNothing.refl fun r hr info hinfo => ?_))
      rwa [(hf r hr).2] at hinfo
  | _ => exact .inl (hold (.refl Record.NotesNothing.refl _))

/-- **Collecting keeps a store in order.** -/
theorem Collects.orderly (h : Collects w s t) (hs : s.Orderly w) : t.Orderly w where
  counted := h.counted hs.counted
  keyed := hs.keyed.renew h.cache h.amending fun _ _ hc => hc.key
  backed := hs.backed.lasts h.lasts fun _ _ hr' _ hinfo => h.noted hr' hinfo

/-- **Closing keeps a store in order.** -/
theorem Closes.orderly {leaving : Option NodeId} (h : Closes w leaving s t) (hs : s.Orderly w) :
    t.Orderly w := by
  have hlasts := h.lasts
  have hbacked (hrenews : Renews Record.NotesNothing s.records t.records) : t.Backed w := by
    refine hs.backed.lasts hlasts fun i r' hr' info hinfo => .inl ?_
    obtain ⟨r, hr, hnotes⟩ := hrenews.backward hr'
    exact ⟨r, hr, hnotes info hinfo⟩
  have hsame : Renews Record.NotesNothing s.records s.records := .refl Record.NotesNothing.refl _
  have hends {files : FileId → Prop} {i : Nat} {r r' : Record} (hr : s.records[i]? = some r)
      (he : r.Ends files r') :
      Renews Record.NotesNothing s.records (s.records.modify i fun _ => r') := by
    refine .modify Record.NotesNothing.refl fun r₀ hr₀ => ?_
    cases hr.symm.trans hr₀
    exact fun info hinfo => he.infos hinfo
  cases h with
  | tells => exact ⟨hs.counted.congr rfl rfl rfl, hs.keyed.renew rfl (renews_amends _)
      fun _ _ hc => hc.key, hbacked hsame⟩
  | closes hr _ he hd hq => exact ⟨(hs.counted.quiet hd hq).congr rfl rfl rfl,
      hs.keyed.renew rfl (renews_ends hr he) fun _ _ hc => hc.key, hbacked (hends hr he)⟩
  | clears => exact ⟨hs.counted.congr rfl rfl rfl, hs.keyed.clear _, hbacked hsame⟩
  | ends _ _ hr he _ hd hq => exact ⟨(hs.counted.quiet hd hq).congr rfl rfl rfl,
      hs.keyed.renew rfl (renews_ends hr he) fun _ _ hc => hc.key, hbacked (hends hr he)⟩
  | finishes hlive _ hd hwrote => exact ⟨hs.counted.finish hlive hd hwrote,
      hs.keyed.renew rfl (renews_amends _) fun _ _ hc => hc.key, hbacked hsame⟩
  | delivers hd hq => exact ⟨hs.counted.quiet hd hq, hs.keyed.renew rfl (renews_amends _)
      fun _ _ hc => hc.key, hbacked hsame⟩

/-! ### What collecting spares -/

/-- Some record has seen the end of a file. -/
def HasClearedPartition (s : Store) (file : FileId) : Prop :=
  ∃ (i : Nat) (r : Record), s.records[i]? = some r ∧ r.partitions.get? file = some .cleared

/-- Nothing was cleared. -/
structure Spares (s t : Store) : Prop where
  documents  : ∀ file, t.documents.get? file = some .cleared →
    s.documents.get? file = some .cleared
  partitions : ∀ file, t.HasClearedPartition file → s.HasClearedPartition file
  cache      : ∀ key, t.cache.get? key = some .cleared → s.cache.get? key = some .cleared

theorem Spares.refl (s : Store) : s.Spares s := ⟨fun _ h => h, fun _ h => h, fun _ h => h⟩

theorem Spares.trans {u : Store} (h : s.Spares t) (h' : t.Spares u) : s.Spares u :=
  ⟨fun file hc => h.documents file (h'.documents file hc),
    fun file hc => h.partitions file (h'.partitions file hc),
    fun key hc => h.cache key (h'.cache key hc)⟩

/-- Collecting clears nothing. -/
theorem Collects.spares (h : Collects w s t) : s.Spares t where
  documents file hcleared := by
    have hinsert {file' : FileId} {document : Document}
        (hc : (s.documents.insert file' (.live document)).get? file = some .cleared) :
        s.documents.get? file = some .cleared := by
      rw [Table.get?_insert] at hc
      split at hc
      · cases hc
      · exact hc
    cases h with
    | opens => exact hinsert hcleared
    | shelves => exact hinsert hcleared
    | nests => exact hinsert hcleared
    | _ => exact hcleared
  partitions file hcleared := by
    obtain ⟨i, r', hr', hc⟩ := hcleared
    obtain ⟨r, hr, hamends⟩ := h.amending.backward hr'
    exact ⟨i, r, hr, hamends.cleared file hc⟩
  cache key hcleared := h.cache ▸ hcleared

/-! ### Any number of steps -/

/-- Any number of steps of collecting. -/
abbrev Gains (w : Setting) : Store → Store → Prop := Relation.ReflTransGen (Collects w)

namespace Gains

theorem orderly (h : Gains w s t) (hs : s.Orderly w) : t.Orderly w := by
  induction h with
  | refl => exact hs
  | tail _ hstep ih => exact hstep.orderly ih

theorem lasts (h : Gains w s t) : s.Lasts t := by
  induction h with
  | refl => exact .refl s
  | tail _ hstep ih => exact ih.trans hstep.lasts

theorem spares (h : Gains w s t) : s.Spares t := by
  induction h with
  | refl => exact .refl s
  | tail _ hstep ih => exact ih.trans hstep.spares

theorem cache (h : Gains w s t) : t.cache = s.cache := by
  induction h with
  | refl => rfl
  | tail _ hstep ih => exact hstep.cache.trans ih

end Gains

end Store

end SymbolGraph
