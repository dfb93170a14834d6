import SymbolGraph.Proofs.Session.Walking
import SymbolGraph.Run

/-!
# Proofs — Run — any calls, any faults

A run can be driven call by call, and a caller may go on after a call that failed.  Whatever the
calls are and whichever elements the sink refuses, the graph can be read from its beginning: ids
increase, and every edge refers to vertices that came before it and have the label they should.

* `Run.start_ensures`: a run starts in order, with nothing on its books.
* `Session.Call`, `Session.after`: calls, one after the other.
* `Run.graphAfter_readable`: what calls leave can be read.
-/

namespace SymbolGraph

open SymbolGraph.Action

variable {faults : Nat → Option SinkFault} {s t : Session} {w : Setting}

/-! ### Starting -/

namespace Store

variable {s : Store}

/-- The books of a store without records and facts balance. -/
theorem Balanced.of_none (hrecords : s.records = #[]) (hnone : ∀ fact, ¬ s.Holds fact) :
    s.Balanced := by
  have hkind : ∀ a, s.kind? a = none := fun a => by simp [kind?, hrecords]
  have hhub : ∀ a, s.hub? a = none := fun a => hub?_eq_none (hkind a)
  have hneeds : ∀ a, ¬ s.Needs a := fun a => by simp [Needs, hkind]
  refine ⟨fun a kind h => ?_, fun range tag h => (hnone _ h).elim, fun a d range tag kind h => ?_,
    fun source _ _ h => (hnone _ h).elim, fun a v h => ?_, fun i role d x => ?_, fun i d x => ?_,
    fun i x => ?_, fun a h => (hneeds a h).elim, fun a => ⟨fun h => ?_, fun h => ?_⟩⟩
  · rw [hkind] at h
    cases h
  · exact (hnone _ h.1).elim
  · rw [hhub] at h
    cases h
  · refine iff_of_false (hnone _) ?_
    rintro ⟨a, kind, tag, hfiled, -⟩
    exact hnone _ hfiled.1
  · refine iff_of_false (hnone _) ?_
    rintro ⟨kind, tag, hfiled, -⟩
    exact hnone _ hfiled.1
  · refine iff_of_false (fun ⟨d, h⟩ => hnone _ h) ?_
    simp [Answers, hkind]
  · simp [citing?, hrecords] at h
  · simp [defining?, hrecords] at h

end Store

/-- A graph without elements. -/
theorem Graph.sound_empty : (Graph.ofSink (.memory faults 0 #[])).Sound faults :=
  ⟨⟨#[], rfl⟩, rfl, fun _ _ _ h => by simp [Graph.elements, Graph.ofSink, Sink.elements] at h, rfl⟩

/-- A store that only has a project is sound, and its books balance. -/
theorem Store.fresh {g : Graph} (project : Project) {n : ElementId} {info : MetaData}
    {kind : String} (hg : g.Sound faults) (helements : g.elements =
      [.vertex n (.metaData info), .vertex project.vertex.id (.project kind)])
    (hlabel : project.vertex.label = .project) (hlisted : project.documents = []) :
    Store.Sound faults { graph := g, project } ∧ Store.Lasting { graph := g, project } ∧
      Store.Balanced { graph := g, project } := by
  have hrecord : ∀ (i : Nat) (r : Record), (#[] : Array Record)[i]? ≠ some r := by simp
  have hdistinct : ∀ handle, Store.Distinct handle #[] :=
    fun _ i _ r _ _ _ hr => (hrecord i r hr).elim
  -- All that is said of records and documents is said of none.
  refine ⟨⟨hg, ⟨hlabel, .project kind, rfl, ?_⟩, ?_, fun _ _ h => ?_,
    fun i r hr => (hrecord i r hr).elim, hdistinct _, hdistinct _, hdistinct _,
    fun i r hr => (hrecord i r hr).elim, fun i r hr => (hrecord i r hr).elim, fun _ _ h => ?_,
    fun source target h => ?_⟩, fun i r hr => (hrecord i r hr).elim, .of_none rfl fun fact h => ?_⟩
  · show _ ∈ g.elements
    rw [helements]
    exact List.mem_cons_of_mem _ List.mem_cons_self
  · show ∀ id ∈ project.documents, _
    rw [hlisted]
    exact nofun
  · cases h
  · cases h
  · obtain ⟨e, hmem⟩ := h
    simp [helements] at hmem
  · cases fact with
    | tagged range tag =>
        obtain ⟨span, hmem⟩ := h
        simp [helements] at hmem
    | next source target =>
        obtain ⟨e, hmem⟩ := h
        simp [helements] at hmem
    | contained document range =>
        rcases h with ⟨file, known, hknown, -⟩ | ⟨e, targets, hmem, -⟩
        · cases hknown
        · simp [helements] at hmem
    | cited record property document x =>
        obtain ⟨r, hr, -⟩ := h
        exact hrecord _ r hr
    | defined record document x =>
        obtain ⟨r, hr, -⟩ := h
        exact hrecord _ r hr

/-- A run starts in order, with nothing on its books. -/
theorem Run.start_ensures :
    Ensures (Run.start w) (Graph.ofSink (.memory faults 0 #[]))
      (fun s _ => s.Sound faults ∧ s.InOrder) fun _ g => g.Sound faults := by
  unfold Run.start Store.start Graph.metaData
  refine ensures_bind.mpr (ensures_bind.mpr (ensures_discard.mpr (Ensures.mono
    (Graph.vertex_ensures Graph.sound_empty _) ?_ fun _ _ h => h.1)))
  rintro info g ⟨⟨hg, helements, -⟩, -⟩
  refine ensures_bind.mpr (Ensures.mono (Graph.vertex_ensures hg _) ?_ fun _ _ h => h.1)
  rintro project g' ⟨⟨hg', helements', -⟩, hlabel⟩
  rw [helements] at helements'
  obtain ⟨hsound, hlasting, hbalanced⟩ :=
    Store.fresh { vertex := project } hg' helements' hlabel rfl
  exact ⟨⟨hsound, nofun⟩, hlasting, hbalanced⟩

/-! ### Calls -/

namespace Session

/-- A call to a running session. -/
inductive Call where
  | resolve (symbol : SymbolRef) (location : Option NodeId)
  | visitFile (file : FileId)
  | nodeProcessed (node : NodeId)
  | endDocument (file : FileId)
  | projectProcessed

/-- What a call does. -/
def Call.act (w : Setting) : Call → Running Unit
  | .resolve symbol location => discard (Session.resolve w symbol location)
  | .visitFile file          => Session.visitFile w file
  | .nodeProcessed node      => Store.nodeProcessed w node
  | .endDocument file        => Store.endDocument w file
  | .projectProcessed        => Store.projectProcessed w

/-- The session that an action leaves, however it ends. -/
def left (act : Running Unit) (s : Session) : Session :=
  match act s with
  | .ok _ t    => t
  | .error _ t => t

/-- The session after calls, each of them made however those before it ended. -/
def after (w : Setting) (s : Session) (calls : List Call) : Session :=
  calls.foldl (fun s call => left (call.act w) s) s

theorem left_sound {act : Running Unit}
    (h : Ensures act s (fun _ t => s.Leads faults t) fun _ t => s.Leads faults t) :
    (left act s).Sound faults := by
  unfold left
  split
  · rename_i hact
    exact (h.of_ok hact).sound
  · rename_i hact
    exact (h.of_error hact).sound

/-- A call leaves a sound session sound. -/
theorem Call.left_sound (hs : s.Sound faults) (call : Call) :
    (left (call.act w) s).Sound faults := by
  have hwalks : ∀ {act : Running Unit}, Walks faults act s → (left act s).Sound faults :=
    fun h => Session.left_sound (Ensures.mono h (fun _ _ hkeeps => hkeeps.leads) fun _ _ h => h)
  cases call with
  | resolve symbol location => exact hwalks (resolve_runs hs symbol location).walks.discard
  | visitFile file => exact hwalks (visitFile_walks hs)
  | nodeProcessed node => exact hwalks (nodeProcessed_walks hs)
  | endDocument file => exact hwalks (endDocument_walks hs)
  | projectProcessed =>
      exact Session.left_sound (Ensures.mono (projectProcessed_ends hs) (fun _ _ h => h.1)
        fun _ _ h => h)

theorem after_sound (hs : s.Sound faults) (calls : List Call) : (s.after w calls).Sound faults := by
  induction calls generalizing s with
  | nil => exact hs
  | cons call calls ih => exact ih (call.left_sound hs)

end Session

namespace Run

/-- The graph that calls leave, from the start of a run over a memory with faults.  A run that
cannot start takes no calls. -/
def graphAfter (w : Setting) (faults : Nat → Option SinkFault) (calls : List Session.Call) :
    Graph :=
  match start w (Graph.ofSink (.memory faults 0 #[])) with
  | .error _ graph => graph
  | .ok session _  => (session.after w calls).graph

theorem graphAfter_sound (calls : List Session.Call) :
    (graphAfter w faults calls).Sound faults := by
  have hstart : Ensures (start w) (Graph.ofSink (.memory faults 0 #[]))
      (fun s _ => s.Sound faults ∧ s.InOrder) fun _ g => g.Sound faults := start_ensures
  unfold graphAfter
  split
  · rename_i hact
    exact hstart.of_error hact
  · rename_i hact
    exact (Session.after_sound (hstart.of_ok hact).1 calls).store.graph

/-- **What calls leave can be read from its beginning**, whichever elements the sink refused: ids
increase, counting from one if none was refused, and an edge refers to vertices before it. -/
theorem graphAfter_readable (w : Setting) (faults : Nat → Option SinkFault)
    (calls : List Session.Call) :
    ((graphAfter w faults calls).elements.map Element.id).Pairwise (fun a b => a.value < b.value) ∧
    (∀ made kept, (graphAfter w faults calls).sink = .memory faults made kept →
      (∀ n < made, faults n = none) →
        ∀ (k : Nat) (e : Element), (graphAfter w faults calls).elements[k]? = some e →
          e.id = ⟨k + 1⟩) ∧
    ∀ (k : Nat) (id : ElementId) (e : Edge),
      (graphAfter w faults calls).elements[k]? = some (.edge id e) →
        e.RefersTo ((graphAfter w faults calls).elements.take k) := by
  have hg : (graphAfter w faults calls).Sound faults := graphAfter_sound calls
  refine ⟨?_, ?_, hg.edges⟩
  · rw [hg.ids]
    exact Graph.deliveredIds_pairwise _
  · intro made kept hsink hnone k e he
    obtain ⟨kept', hsink'⟩ := hg.memory
    cases hsink.symm.trans hsink'
    have hid := congrArg (fun ids => ids[k]?) (hg.ids.trans (Graph.deliveredIds_of_none hnone))
    simp only [List.getElem?_map, he, Option.map_some] at hid
    obtain ⟨n, hn, hid⟩ := Option.map_eq_some_iff.mp hid.symm
    obtain ⟨hlt, hget⟩ := List.getElem?_eq_some_iff.mp hn
    rw [List.getElem_range] at hget
    rw [← hid, hget]

end Run

end SymbolGraph
