import SymbolGraph.Proofs.Run.Ending
import SymbolGraph.Proofs.Session.Moving

/-!
# Proofs — Run — a run from its start to its end

A run starts with a session that is ready, walks its files, and closes what is left.  At its end it
has seen to every node of every file that it walked, and the last thing it says is which documents
the project contains.

* `Run.start_fresh`: a run starts ready, without documents, records or anything in its cache.
* `Run.visitFiles_proceeds`: walking files sees to all of their nodes.
* `Run.Ended.walked`: what lies behind a run that ended well.
* `Run.index_fault`: where a run may fail.
-/

namespace SymbolGraph

/-- A store that only has a project is in order. -/
theorem Store.orderly_fresh {w : Setting} {graph : Graph} {vertex : VertexRef}
    (hmemory : graph.IsMemory) (hquiet : ∀ e ∈ graph.elements, e.IsQuiet)
    (hids : ∀ e ∈ graph.elements, e.id.value ≤ graph.issued)
    (hproject : vertex.id.value ≤ graph.issued) :
    Store.Orderly w { graph, project := { vertex } } := by
  have hdocuments : documentsIn graph.elements = [] := @documentsIn_quiet [] _ hquiet
  have hcontainments : containmentsIn graph.elements = [] := @containmentsIn_quiet [] _ hquiet
  have hnext : nextSourcesIn graph.elements = [] := @nextSourcesIn_quiet [] _ hquiet
  have hplaced : Store.placed { graph, project := { vertex } } = [] := by
    rw [Store.placed, Store.elements, hcontainments]
    rfl
  have hcontaining : Store.containing { graph, project := { vertex } } = [vertex.id] := by
    rw [Store.containing, Store.elements, hcontainments]
    rfl
  have hrecord {i : Nat} {r : Record} (hr : (#[] : Array Record)[i]? = some r) : False := by
    rw [Array.getElem?_empty] at hr
    cases hr
  refine ⟨⟨hmemory, hids, fun id span he => (hquiet _ he).tagged id span rfl, ?_, ?_, ?_,
    List.nodup_nil, ?_, fun _ _ heq => (by cases heq), ?_⟩,
    ⟨fun _ _ hr => (hrecord hr).elim, fun _ _ heq => (by cases heq),
    fun _ _ _ _ hr => (hrecord hr).elim⟩, fun _ _ hr => (hrecord hr).elim⟩
  · rw [hplaced]
    exact ⟨List.nodup_nil, List.forall_mem_nil _⟩
  · rw [hcontaining]
    exact ⟨List.nodup_singleton _, fun x hx => List.mem_singleton.mp hx ▸ hproject⟩
  · rw [Store.elements, hnext]
    exact ⟨List.nodup_nil, List.forall_mem_nil _⟩
  · rw [Store.elements, hdocuments]
    rfl
  · rw [Store.elements, hdocuments]
    rfl

namespace Run

open SymbolGraph.Action SymbolGraph.Discipline

variable {faults : Nat → Option SinkFault} {w : Setting} {s : Session}

theorem mem_sourceFiles_of_walked {file : FileId} (hmem : file ∈ walkedFiles w.program) :
    file ∈ w.program.sourceFiles :=
  (List.mem_filter.mp hmem).1

theorem nodup_walkedFiles (p : Program) : (walkedFiles p).Nodup := by
  refine List.Nodup.filter _ (List.nodup_range.map fun i j heq => ?_)
  exact congrArg FileId.index heq

/-- A session with nothing in its store. -/
structure Fresh (w : Setting) (s : Session) : Prop where
  ready     : s.Ready w
  documents : s.store.documents = ∅
  records   : s.store.records = #[]
  cache     : s.store.cache = ∅

/-- **A run starts fresh.** -/
theorem start_fresh : Ensures (start w) (Graph.ofSink (.memory faults 0 #[]))
    (fun s _ => Fresh w s) fun fault _ => fault.IsOwn := by
  have hmemory : (Graph.ofSink (.memory faults 0 #[])).IsMemory := ⟨faults, 0, #[], rfl⟩
  refine ensures_bind.mpr (ensures_bind.mpr (ensures_discard.mpr (Ensures.mono
    (Graph.vertex_delivers hmemory _) (fun info g hg => ?_) fun _ _ hfault => hfault.isOwn)))
  refine ensures_bind.mpr (Ensures.mono (Graph.vertex_delivers hg.1.memory _)
    (fun project g' hg' => ?_) fun _ _ hfault => hfault.isOwn)
  have hd := hg.1.trans hg'.1
  have hquiet : ∀ e ∈ g'.elements, e.IsQuiet := by
    intro e he
    rw [hd.elements] at he
    rcases List.mem_append.mp he with he | he
    · cases he
    · rcases List.mem_append.mp he with he | he
      · rw [List.mem_singleton.mp he]
        exact Element.isQuiet_vertex nofun nofun
      · rw [List.mem_singleton.mp he]
        exact Element.isQuiet_vertex nofun nofun
  have hids : ∀ e ∈ g'.elements, e.id.value ≤ g'.issued := by
    intro e he
    rw [hd.elements] at he
    rcases List.mem_append.mp he with he | he
    · cases he
    · exact (hd.ids e he).2
  have hproject : project.id.value ≤ g'.issued := (hg'.1.ids _ (List.mem_singleton_self _)).2
  have horderly := Store.orderly_fresh (w := w) hd.memory hquiet hids hproject
  exact ensures_pure.mpr ⟨⟨horderly, nofun⟩, rfl, rfl, rfl⟩

/-- **Walking files sees to all of their nodes.** -/
theorem visitFiles_proceeds (files : List FileId) : Session.Proceeds w (fun _ => True)
    (fun _ => True) (files.forM (Session.visitFile w)) s fun _ t => ∀ file ∈ files,
      ∀ below, w.program.Under (w.program.root file) below → Session.Seen w below t :=
  .forM_all (fun _ _ _ htravels hseen below hunder => (hseen below hunder).lasts htravels.lasts)
    files fun _ _ _ => Session.visitWithin_proceeds _ _ (fun _ _ => trivial)
      fun _ _ => ⟨trivial, fun _ _ => trivial⟩

/-- The session once files were walked, from the start of a run over a memory, if nothing went
wrong until then. -/
def reached? (w : Setting) (faults : Nat → Option SinkFault) (files : List FileId) :
    Option Session :=
  match start w (Graph.ofSink (.memory faults 0 #[])) with
  | .error _ _  => none
  | .ok first _ =>
      match files.forM (Session.visitFile w) first with
      | .error _ _ => none
      | .ok _ s    => some s

/-- A run over a memory walked files and came to this session. -/
def Reached (w : Setting) (faults : Nat → Option SinkFault) (files : List FileId) (s : Session) :
    Prop :=
  reached? w faults files = some s

theorem Reached.exists_start {files : List FileId} (h : Reached w faults files s) :
    ∃ first graph, start w (Graph.ofSink (.memory faults 0 #[])) = .ok first graph ∧
      files.forM (Session.visitFile w) first = .ok () s := by
  unfold Reached reached? at h
  split at h
  · cases h
  · rename_i first graph hstart
    split at h
    · cases h
    · rename_i hwalk
      cases h
      exact ⟨first, graph, hstart, hwalk⟩

/-- What lies behind a run that ended well: a session that has seen to all nodes, and a store in
which everything is closed before the project says what it contains. -/
structure Walked (w : Setting) (t : Session) (u s : Store) : Prop where
  ready     : t.Ready w
  seen      : ∀ file ∈ walkedFiles w.program, ∀ below,
    w.program.Under (w.program.root file) below → Session.Seen w below t
  shrinks   : t.store.Shrinks w none u
  concludes : u.Concludes s

/-- Once the files are walked, what is left fails only with a fault of its own. -/
theorem finishAll_ensures {m : Session} (hm : m.Ready w) : Ensures (finishAll w) m
    (fun _ t => ∃ u, m.store.Shrinks w none u ∧ u.Concludes t.store)
    fun fault _ => fault.IsOwn := by
  refine ensures_bind.mpr (ensures_onPart.mpr (Ensures.mono
    (Store.projectProcessed_ensures hm.store) (fun _ store hstore => ?_)
    fun _ _ hfault => hfault))
  obtain ⟨u, hshrinks, hconcludes⟩ := hstore
  have hmemory : store.graph.IsMemory := by
    rcases hconcludes with ⟨-, rfl⟩ | ⟨e, graph, hd, rfl⟩
    · exact (hshrinks.orderly hm.store).counted.memory
    · exact hd.memory
  refine ensures_bind.mpr ((flush_ensures hmemory).mono (fun _ t ht => ?_)
    fun _ _ hfalse => hfalse.elim)
  subst ht
  exact ensures_bind.mpr (ensures_get.mpr (ensures_pure.mpr ⟨u, hshrinks, hconcludes⟩))

theorem walkAll_walks (hs : s.Ready w) : Ensures (walkAll w) s
    (fun _ t => ∃ m u, Walked w m u t.store) fun fault _ => fault.IsOwn ∨
      ∃ t, (walkedFiles w.program).forM (Session.visitFile w) s = .error fault t := by
  refine ensures_bind.mpr ?_
  have hwalk := visitFiles_proceeds (walkedFiles w.program) hs
  unfold Ensures at hwalk ⊢
  cases hrun : (walkedFiles w.program).forM (Session.visitFile w) s with
  | error fault t => exact .inr ⟨t, rfl⟩
  | ok a m =>
      rw [hrun] at hwalk
      have hm := hwalk.1.ready hs
      refine (finishAll_ensures hm).mono (fun _ t ht => ?_) fun _ _ hfault => .inl hfault
      obtain ⟨u, hshrinks, hconcludes⟩ := ht
      exact ⟨m, u, hm, hwalk.2, hshrinks, hconcludes⟩

/-- **A run fails with a fault of its own**, or while it walks its files. -/
theorem index_fault {fault : Fault} (h : (index w (.memory faults 0 #[])).1 = .error fault) :
    fault.IsOwn ∨ ∃ first graph t,
      start w (Graph.ofSink (.memory faults 0 #[])) = .ok first graph ∧
      (walkedFiles w.program).forM (Session.visitFile w) first = .error fault t := by
  unfold index at h
  cases hstart : start w (Graph.ofSink (.memory faults 0 #[])) with
  | error fault' graph =>
      rw [hstart] at h
      obtain rfl : fault' = fault := Except.error.inj h
      exact .inl (start_fresh.of_error hstart)
  | ok first graph =>
      rw [hstart] at h
      dsimp only at h
      cases hwalk : walkAll w first with
      | ok summary s =>
          rw [hwalk] at h
          cases h
      | error fault' s =>
          rw [hwalk] at h
          obtain rfl : fault' = fault := Except.error.inj h
          refine ((walkAll_walks (start_fresh.of_ok hstart).ready).of_error hwalk).imp_right
            fun hfiles => ?_
          obtain ⟨t, hfiles⟩ := hfiles
          exact ⟨first, graph, t, rfl, hfiles⟩

/-- **A run that ended well has seen to all nodes of the files it walked.** -/
theorem Ended.walked (h : Ended w faults s) : ∃ t u, Walked w t u s.store := by
  unfold Ended last? at h
  split at h
  · cases h
  · rename_i first graph hstart
    split at h
    · cases h
    · rename_i summary s' hwalk
      cases h
      exact (walkAll_walks (start_fresh.of_ok hstart).ready).of_ok hwalk

/-! ### Small runs -/

/-- The program of a list of steps under options that ask for nothing but ranges. -/
def plain (steps : List Program.Step) : Setting :=
  .ofOptions ((Program.ofSteps steps).toOption.getD .empty)
    { projectRoot := ⟨"/p"⟩, hover := false, monikers := false, documentSymbols := false }

theorem plain_built {steps : List Program.Step} (h : (Program.ofSteps steps).isOk = true) :
    ∃ steps', Program.ofSteps steps' = .ok (plain steps).program := by
  refine ⟨steps, ?_⟩
  show _ = Except.ok ((Program.ofSteps steps).toOption.getD .empty)
  cases hsteps : Program.ofSteps steps with
  | ok p => rfl
  | error fault =>
      rw [hsteps] at h
      cases h

end Run

end SymbolGraph
