import SymbolGraph.Proofs.Run.Containment
import SymbolGraph.Proofs.Run.Identities

/-!
# Proofs — Run — the summary of a run

The three numbers of a summary come from three places: the graph counts what it emits, the documents
are the files that were touched, and the symbols are the records that were stored.  At the end of a
run each of them is the number of elements of its sort.  For the records that is one result set each:
all of them were begun, no two share a result set, and no result set is without a record.

* `Store.summary`: what a store would be summed up as.
* `Store.length_documentsIn`, `Store.length_hubsIn`: documents and result sets, counted.
* `Run.index_reckons`: the summary of a run counts its graph.
-/

namespace SymbolGraph

open SymbolGraph.Action

variable {faults : Nat → Option SinkFault} {w : Setting}

theorem Element.hub?_eq_some {e : Element} {hub : ElementId} :
    e.hub? = some hub ↔ e = .vertex hub .resultSet := by
  constructor
  · intro h
    cases e with
    | edge id edge => cases h
    | vertex id v =>
        cases v with
        | resultSet =>
            cases h
            rfl
        | _ => cases h
  · rintro rfl
    rfl

/-- Flushing delivers nothing. -/
theorem Graph.flush_retains : Stays Graph.Retains Graph.flush := by
  intro g
  unfold Ensures Graph.flush Sink.flush
  obtain ⟨issued, emitted, sink⟩ := g
  cases sink with
  | memory faults calls kept => exact ⟨rfl⟩
  | lines limit flushFault written => cases flushFault <;> exact ⟨rfl⟩

namespace Store

variable {s : Store}

/-- What a store is summed up as. -/
def summary (s : Store) : Summary :=
  { documents := s.documents.size, symbols := s.records.size, elements := s.graph.emitted }

/-! ### Documents -/

/-- The files with a document are as many as the documents. -/
theorem length_documentsIn (h : s.Counted w) :
    (documentsIn s.elements).length = s.documents.size := by
  calc (documentsIn s.elements).length
      = ((documentsIn s.elements).map Prod.snd).length := by simp
    _ = (s.documents.keys.map w.program.documentVertex).length := by rw [h.vertices]
    _ = s.documents.size := by simp [Table.keys, Table.size]

/-! ### Result sets -/

theorem nodup_hubsIn (h : s.Sound faults) : (hubsIn s.elements).Nodup := by
  have hnodup : s.elements.Nodup := .of_map _ h.graph.nodup_ids
  refine hnodup.filterMap fun e e' hub he he' => ?_
  rw [Element.hub?_eq_some.mp he, Element.hub?_eq_some.mp he']

theorem mem_hubsIn {elements : List Element} {hub : ElementId} :
    hub ∈ hubsIn elements ↔ Delivered elements .resultSet hub := by
  constructor
  · intro hmem
    obtain ⟨e, he, hhub⟩ := List.mem_filterMap.mp hmem
    exact ⟨.resultSet, rfl, Element.hub?_eq_some.mp hhub ▸ he⟩
  · rintro ⟨v, hlabel, hmem⟩
    refine List.mem_filterMap.mpr ⟨_, hmem, ?_⟩
    cases v with
    | resultSet => rfl
    | _ => cases hlabel

/-- Every record has a result set of its own, and there are no others. -/
theorem length_hubsIn (h : s.Settled faults) (hidentified : s.Identified) :
    (hubsIn s.elements).length = s.records.size := by
  have hget (i : Fin s.records.size) : s.records[i.val]? = some s.records[i] := by simp
  choose hub hhub using fun i : Fin s.records.size =>
    h.finished.begun i.val s.records[i] (hget i)
  have hinjective : Function.Injective fun i => (hub i).id := by
    intro i j heq
    exact Fin.ext (h.sound.hubs _ _ _ _ _ _ (hget i) (hget j) (hhub i) (hhub j) heq)
  have hperm : (hubsIn s.elements).Perm
      ((List.finRange s.records.size).map fun i => (hub i).id) := by
    refine (List.perm_ext_iff_of_nodup (nodup_hubsIn h.sound)
      ((List.nodup_finRange _).map hinjective)).mpr fun id => ?_
    constructor
    · intro hmem
      obtain ⟨i, r, hr, hset⟩ := hidentified.hubs id hmem
      obtain ⟨hi, rfl⟩ := Array.getElem?_eq_some_iff.mp hr
      refine List.mem_map.mpr ⟨⟨i, hi⟩, List.mem_finRange _, ?_⟩
      exact congrArg VertexRef.id (Option.some.inj ((hhub ⟨i, hi⟩).symm.trans hset))
    · intro hmem
      obtain ⟨i, -, rfl⟩ := List.mem_map.mp hmem
      exact mem_hubsIn.mpr ((h.sound.records _ _ (hget i)).resultSet _ (hhub i))
  simpa using hperm.length_eq

end Store

namespace Run

variable {s : Session}

/-! ### The end of a run -/

theorem walkAll_tracks : Stays (Session.Tracking ∅) (walkAll w) := by
  refine (Stays.forM fun file _ => Session.visitFile_tracks file).bind fun _ => ?_
  refine Stays.bind (Session.Retains.tracks
    (Session.store_retains Store.projectProcessed_retains)) fun _ => ?_
  exact (Session.Retains.tracks (Session.emit_retains Graph.flush_retains)).bind fun _ =>
    stays_get.bind fun _ => stays_pure

/-- The summary is that of the store at the end. -/
theorem walkAll_summary : Ensures (walkAll w) s (fun summary t => summary = t.store.summary)
    fun _ _ => True := by
  refine ensures_bind.mpr ((ensures_true _ _).mono (fun _ t _ => ?_) fun _ _ h => h)
  refine ensures_bind.mpr ((ensures_true _ _).mono (fun _ u _ => ?_) fun _ _ h => h)
  refine ensures_bind.mpr ((ensures_true _ _).mono (fun _ v _ => ?_) fun _ _ h => h)
  exact ensures_bind.mpr (ensures_get.mpr (ensures_pure.mpr rfl))

/-- A run with a summary has ended well. -/
theorem index_ended {summary : Summary} {g : Graph}
    (h : index w (.memory faults 0 #[]) = (.ok summary, g)) :
    ∃ s, Ended w faults s ∧ s.store.Identified ∧ summary = s.store.summary ∧ g = s.graph := by
  unfold index at h
  cases hstart : start w (Graph.ofSink (.memory faults 0 #[])) with
  | error fault graph => simp [hstart] at h
  | ok first graph =>
      cases hwalk : walkAll w first with
      | error fault s => simp [hstart, hwalk] at h
      | ok counted s =>
          simp only [hstart, hwalk, Prod.mk.injEq, Except.ok.injEq] at h
          obtain ⟨rfl, rfl⟩ := h
          have hfirst : first.store.Identified := start_identified.of_ok hstart
          have htracks := (Session.ensures_of_tracking walkAll_tracks hfirst).of_ok hwalk
          refine ⟨s, ?_, htracks.identified, walkAll_summary.of_ok hwalk, rfl⟩
          simp [Ended, last?, hstart, hwalk]

/-- The files with a document are as many as the documents, also when the project has said what it
contains. -/
theorem Ended.length_documentsIn (h : Ended w faults s) :
    (documentsIn s.store.elements).length = s.store.documents.size := by
  obtain ⟨t, u, hwalked⟩ := h.walked
  have hcounted := (hwalked.shrinks.orderly hwalked.ready.store).counted
  obtain ⟨hdocuments, -, hconcluded⟩ := hwalked.concludes.concluded hcounted
  rw [hconcluded.documentsIn_eq, hdocuments]
  exact Store.length_documentsIn hcounted

/-- **A summary counts the graph.**  When a run over a memory ends well, whatever it was asked for,
its summary gives the number of elements that were kept, of documents among them, and of result
sets. -/
theorem index_reckons {summary : Summary} {g : Graph}
    (h : index w (.memory faults 0 #[]) = (.ok summary, g)) :
    summary.elements = g.elements.length ∧
    summary.documents = (documentsIn g.elements).length ∧
    summary.symbols = (hubsIn g.elements).length := by
  obtain ⟨s, hended, hidentified, rfl, rfl⟩ := index_ended h
  have hsettled := hended.settled
  exact ⟨hsettled.sound.graph.emitted, hended.length_documentsIn.symm,
    (Store.length_hubsIn hsettled hidentified).symm⟩

/-- Two symbols that are declared in one place count as one, and have one result set. -/
theorem declaredTwice_reckoned : ∃ g,
    index declaredTwice .inMemory = (.ok { documents := 1, symbols := 1, elements := 17 }, g) ∧
    g.elements.length = 17 ∧ (documentsIn g.elements).length = 1 ∧
    (hubsIn g.elements).length = 1 := by
  have hrun : (index declaredTwice .inMemory).1.toOption
      = some { documents := 1, symbols := 1, elements := 17 } := by
    decide +kernel
  rcases hindex : index declaredTwice .inMemory with ⟨_ | summary, g⟩
  · simp [hindex, Except.toOption] at hrun
  · obtain rfl : summary = _ := by simpa [hindex, Except.toOption] using hrun
    obtain ⟨helements, hdocuments, hsymbols⟩ := index_reckons hindex
    exact ⟨g, rfl, helements.symm, hdocuments.symm, hsymbols.symm⟩

end Run

end SymbolGraph
