import Mathlib.Data.List.Flatten
import SymbolGraph.Proofs.Run.Walked

/-!
# Proofs — Run — containment partitions the graph

At the end of a run every range stands in one document and every document in the project, each of
them once.  While the run lasts, a range that has been placed is held by a live document or listed by
a `contains` edge, and the two lists together never repeat; at the end no document is live, so the
edges are all there is.

* `containedFrom`: what `contains` edges that leave certain vertices list, edge by edge.
* `Run.Partitioned`: how the elements at the end of a run are contained.
* `Run.Ended.partitioned`: every run that ended well is like that.
-/

namespace SymbolGraph

/-- What the `contains` edges that leave certain vertices list, edge by edge. -/
def containedFrom (elements : List Element) (sources : List ElementId) : List ElementId :=
  ((containmentsIn elements).filter fun containment => containment.1 ∈ sources).flatMap Prod.snd

/-- The documents among elements. -/
def documentIds (elements : List Element) : List ElementId := (documentsIn elements).map Prod.fst

theorem mem_documentIds {elements : List Element} {x : ElementId} :
    x ∈ documentIds elements ↔ Delivered elements .document x := by
  unfold documentIds
  simp only [List.mem_map, Prod.exists, mem_documentsIn]
  constructor
  · rintro ⟨id, v, ⟨hlabel, hmem⟩, rfl⟩
    exact ⟨v, hlabel, hmem⟩
  · rintro ⟨v, hlabel, hmem⟩
    exact ⟨x, v, ⟨hlabel, hmem⟩, rfl⟩

theorem documentIds_sublist (elements : List Element) :
    (documentIds elements).Sublist (elements.map Element.id) := by
  induction elements with
  | nil => exact .slnil
  | cons e elements ih =>
      cases hdocument : e.document? with
      | none =>
          rw [documentIds, documentsIn, List.filterMap_cons_none hdocument]
          exact ih.cons _
      | some document =>
          have hid : document.1 = e.id := by
            rw [Element.document?.eq_def] at hdocument
            split at hdocument
            · exact (congrArg Prod.fst (Option.some.inj hdocument)).symm
            · cases hdocument
          rw [documentIds, documentsIn, List.filterMap_cons_some hdocument, List.map_cons, hid]
          exact ih.cons_cons _

/-- What contains nothing new lists what it did. -/
theorem containedFrom_concat_of_not_mem {elements : List Element} {e source : ElementId}
    {targets sources : List ElementId} (h : source ∉ sources) :
    containedFrom (elements ++ [.edge e (.contains source targets)]) sources
      = containedFrom elements sources := by
  rw [containedFrom, containmentsIn_append, List.filter_append]
  have hnone : (containmentsIn [.edge e (.contains source targets)]).filter
      (fun containment => containment.1 ∈ sources) = [] := by
    simp [containmentsIn, Element.containment?, h]
  rw [hnone, List.append_nil]
  rfl

/-- What contained nothing lists what its first edge says. -/
theorem containedFrom_concat_self {elements : List Element} {e source : ElementId}
    {targets : List ElementId} (h : source ∉ (containmentsIn elements).map Prod.fst) :
    containedFrom (elements ++ [.edge e (.contains source targets)]) [source] = targets := by
  rw [containedFrom, containmentsIn_append, List.filter_append]
  have hnone : (containmentsIn elements).filter (fun containment => containment.1 ∈ [source])
      = [] := by
    refine List.filter_eq_nil_iff.mpr fun containment hmem hsource => h ?_
    rw [← List.mem_singleton.mp (of_decide_eq_true hsource)]
    exact List.mem_map_of_mem hmem
  rw [hnone]
  simp [containmentsIn, Element.containment?]

namespace Store

variable {s t : Store}

/-- The elements once the project has said what it contains, if there are documents. -/
def Concluded (s : Store) (elements : List Element) : Prop :=
  documentIds s.elements = [] ∧ elements = s.elements ∨
    ∃ e, elements = s.elements ++
      [.edge e (.contains s.project.vertex.id (documentIds s.elements))]

theorem Concludes.concluded {w : Setting} (hs : s.Counted w) (h : s.Concludes t) :
    t.documents = s.documents ∧ t.project.vertex = s.project.vertex ∧ s.Concluded t.elements := by
  have hdocuments : s.project.documents = documentIds s.elements := hs.project
  rcases h with ⟨hnone, rfl⟩ | ⟨e, graph, hd, rfl⟩
  · exact ⟨rfl, rfl, .inl ⟨hdocuments ▸ hnone, rfl⟩⟩
  · exact ⟨rfl, rfl, .inr ⟨e, hdocuments ▸ hd.elements⟩⟩

namespace Concluded

variable {w : Setting} {elements : List Element}

theorem documentsIn_eq (h : s.Concluded elements) : documentsIn elements = documentsIn s.elements := by
  rcases h with ⟨-, rfl⟩ | ⟨e, rfl⟩
  · rfl
  · rw [documentsIn_append]
    exact List.append_nil _

/-- Ranges have tags. -/
theorem tagged (hs : s.Counted w) (h : s.Concluded elements) {x : ElementId} {span : LineRange}
    {tag : Option RangeTag} (hx : Element.vertex x (.range span tag) ∈ elements) :
    ∃ known, Tagged elements x known := by
  cases tag with
  | some known => exact ⟨known, span, hx⟩
  | none =>
      refine absurd ?_ (hs.tagged x span)
      rcases h with ⟨-, rfl⟩ | ⟨e, rfl⟩
      · exact hx
      · rcases List.mem_append.mp hx with hx | hx
        · exact hx
        · exact nomatch List.mem_singleton.mp hx

/-- Before the end, the project contains nothing and no source is repeated. -/
theorem nodup_before (hs : s.Counted w) :
    (s.project.vertex.id :: (containmentsIn s.elements).map Prod.fst).Nodup :=
  hs.containing.nodup.sublist ((List.sublist_append_left _ _).cons_cons _)

theorem nodup_sources (hs : s.Counted w) (h : s.Concluded elements) :
    ((containmentsIn elements).map Prod.fst).Nodup := by
  have hbefore := nodup_before hs
  rcases h with ⟨-, rfl⟩ | ⟨e, rfl⟩
  · exact hbefore.of_cons
  · rw [containmentsIn_append, List.map_append]
    exact (List.perm_append_comm.nodup_iff).mp hbefore

/-- What the documents list is not repeated. -/
theorem nodup_containedFrom (hs : s.Counted w) (h : s.Concluded elements)
    {sources : List ElementId} (hproject : s.project.vertex.id ∉ sources) :
    (containedFrom elements sources).Nodup := by
  have hplaced : ((containmentsIn s.elements).flatMap Prod.snd).Nodup :=
    hs.placed.nodup.sublist (List.sublist_append_left _ _)
  have hbefore : (containedFrom s.elements sources).Nodup :=
    hplaced.sublist (List.filter_sublist.flatMap _)
  rcases h with ⟨-, rfl⟩ | ⟨e, rfl⟩
  · exact hbefore
  · rw [containedFrom_concat_of_not_mem hproject]
    exact hbefore

/-- The project lists the documents. -/
theorem containedFrom_project (hs : s.Counted w) (h : s.Concluded elements)
    (hsome : documentIds s.elements ≠ []) :
    containedFrom elements [s.project.vertex.id] = documentIds s.elements := by
  rcases h with ⟨hnone, -⟩ | ⟨e, rfl⟩
  · exact absurd hnone hsome
  · exact containedFrom_concat_self (List.nodup_cons.mp (nodup_before hs)).1

end Concluded

end Store

namespace Run

/-- How the elements at the end of a run are contained. -/
structure Partitioned (w : Setting) (s : Session) : Prop where
  /-- Every range is listed once by what leaves the documents. -/
  ranges    : ∀ x span tag, Element.vertex x (.range span tag) ∈ s.graph.elements →
    (containedFrom s.graph.elements (documentIds s.graph.elements)).count x = 1
  /-- Every document is listed once by what leaves the project. -/
  documents : Delivered s.graph.elements .project s.store.project.vertex.id ∧
    ∀ x uri languageId, Element.vertex x (.document uri languageId) ∈ s.graph.elements →
      (containedFrom s.graph.elements [s.store.project.vertex.id]).count x = 1
  /-- Nothing has two `contains` edges. -/
  sources   : ((containmentsIn s.graph.elements).map Prod.fst).Nodup
  /-- There is one document for each file that was touched, in the order of the first touch. -/
  files     : s.store.documents.keys.Nodup ∧ (documentsIn s.graph.elements).map Prod.snd
    = s.store.documents.keys.map w.program.documentVertex
  /-- A file is touched where the walk passes its root. -/
  touched   : ∀ file ∈ walkedFiles w.program, ∀ node,
    w.program.Under (w.program.root file) node → w.program.kind node = .sourceFile →
      w.program.fileOf node ∈ s.store.documents.keys
  /-- If there is a document, the last element says what the project contains. -/
  last      : documentsIn s.graph.elements ≠ [] → ∃ e, s.graph.elements.getLast? = some
    (.edge e (.contains s.store.project.vertex.id (documentIds s.graph.elements)))

section Ended

variable {faults : Nat → Option SinkFault} {w : Setting} {s : Session} {u : Store}

/-- A range is listed by a document. -/
theorem mem_containedFrom (h : s.store.Settled faults) {x : ElementId} {tag : RangeTag}
    (hx : Tagged s.graph.elements x tag) :
    x ∈ containedFrom s.graph.elements (documentIds s.graph.elements) := by
  obtain ⟨a, d, -, ⟨e, targets, he, hmem⟩, -⟩ := h.exists_owner hx
  refine List.mem_flatMap.mpr ⟨(d, targets), List.mem_filter.mpr ⟨?_, decide_eq_true ?_⟩, hmem⟩
  · exact mem_containmentsIn.mpr ⟨e, he⟩
  · refine mem_documentIds.mpr ?_
    -- What contains a range is not the project, because the project contains documents.
    rcases h.sound.graph.refersTo he with ⟨-, hdocuments⟩ | ⟨hdocument, -⟩
    · exact nomatch h.sound.graph.label_unique hx.delivered (hdocuments x hmem)
    · exact hdocument

/-- **Containment partitions the graph.** -/
theorem Ended.partitioned (h : Ended w faults s) : Partitioned w s := by
  obtain ⟨t, u, hwalked⟩ := h.walked
  have hsettled := h.settled
  have hcounted := (hwalked.shrinks.orderly hwalked.ready.store).counted
  obtain ⟨htables, hproject, hconcluded⟩ := hwalked.concludes.concluded hcounted
  have hends : u.Concluded s.graph.elements := hconcluded
  have hdocuments : documentsIn s.graph.elements = documentsIn u.elements := hends.documentsIn_eq
  have hids : documentIds s.graph.elements = documentIds u.elements := by
    rw [documentIds, hdocuments]
    rfl
  refine ⟨fun x span tag hx => ?_, ⟨hsettled.sound.project.2, fun x uri languageId hx => ?_⟩,
    hends.nodup_sources hcounted, ⟨?_, ?_⟩, fun file hfile node hunder hkind => ?_,
    fun hsome => ?_⟩
  · obtain ⟨known, htagged⟩ := hends.tagged hcounted hx
    refine List.count_eq_one_of_mem (hends.nodup_containedFrom hcounted fun hmem => ?_)
      (mem_containedFrom hsettled htagged)
    -- The project is no document.
    rw [← hproject] at hmem
    exact nomatch hsettled.sound.graph.label_unique hsettled.sound.project.2
      (mem_documentIds.mp hmem)
  · have hmem : x ∈ documentIds s.graph.elements := mem_documentIds.mpr ⟨_, rfl, hx⟩
    rw [hids] at hmem
    rw [hproject, hends.containedFrom_project hcounted (List.ne_nil_of_mem hmem)]
    refine List.count_eq_one_of_mem ?_ hmem
    rw [← hids]
    exact hsettled.sound.graph.nodup_ids.sublist (documentIds_sublist _)
  · rw [htables]
    exact hcounted.keys
  · rw [htables, hdocuments]
    exact hcounted.vertices
  · rw [htables]
    exact hwalked.shrinks.lasts.keys.subset ((hwalked.seen file hfile node hunder).document hkind)
  · rcases hends with ⟨hnone, -⟩ | ⟨e, helements⟩
    · rw [← hids, documentIds, List.map_eq_nil_iff] at hnone
      exact absurd hnone hsome
    · refine ⟨e, ?_⟩
      rw [hproject, hids, show s.graph.elements = _ from helements]
      exact List.getLast?_concat

end Ended

/-- The mention of the overriding method is listed once, and the last element is about the
project. -/
theorem overriding_partitioned : ∃ s, Ended overriding (fun _ => none) s ∧
    (containedFrom s.graph.elements (documentIds s.graph.elements)).count ⟨18⟩ = 1 ∧
    ∃ e, s.graph.elements.getLast? = some
      (.edge e (.contains s.store.project.vertex.id (documentIds s.graph.elements))) := by
  obtain ⟨s, hs, -, -, -, ⟨span, hmention⟩, -⟩ := overriding_ended
  obtain ⟨hranges, -, -, -, -, hlast⟩ := hs.partitioned
  have hlisted := hranges ⟨18⟩ span _ hmention
  refine ⟨s, hs, hlisted, hlast fun hnone => ?_⟩
  rw [documentIds, hnone] at hlisted
  simp [containedFrom] at hlisted

end Run

end SymbolGraph
