import SymbolGraph.Proofs.Store.Editing

/-!
# Proofs — Store — departures

When the walk leaves a node, or the project ends, records are drained and closed, over any sink and
however the operation ends.  Only a record local to the node is closed when the walk leaves it, and
only if the file is no declaration file; its key is cleared at once.  A record that is closed is not
touched again.

* `Store.Departs`: one step; `Store.Departed`: any number.
* `Store.leave_departs`: a record is told that the walk has left a node.
* `Store.projectProcessed_departs`: the project ends.
-/

namespace SymbolGraph.Store

open SymbolGraph.Action SymbolGraph.Discipline

variable {α : Type} {w : Setting} {leaving : Option NodeId} {s t u : Store} {id : RecordId}
  {file : FileId} {node : NodeId}

/-- One step of closing, when the walk leaves a node or when the project ends. -/
inductive Departs (w : Setting) (leaving : Option NodeId) (s : Store) : Store → Prop
  /-- Nobody is told twice. -/
  | tells {watchers : Table NodeId (List RecordId)} : Departs w leaving s { s with watchers }
  /-- Partitions of a record that is not closed are cleared and listed. -/
  | drains {id : RecordId} {r : Record} {ledger : Ledger} : s.records[id.index]? = some r →
      r.state ≠ .closed → Ledger.Drains ⟨r, s.graph⟩ ledger →
      Departs w leaving s (s.putBack id ledger)
  /-- A record local to the node is closed, and its key is cleared. -/
  | retires {id : RecordId} {r : Record} {node : NodeId} : leaving = some node →
      s.records[id.index]? = some r → r.state ≠ .closed → r.scope = some node →
      w.program.isDeclarationFile (w.program.fileOf node) = false →
      Departs w leaving s { s with records := s.records.modify id.index Record.shut
                                   cache := s.cache.insert r.key .cleared }
  /-- At the end of the project any record is closed. -/
  | closes {id : RecordId} {r : Record} : leaving = none → s.records[id.index]? = some r →
      r.state ≠ .closed →
      Departs w leaving s { s with records := s.records.modify id.index Record.shut }
  /-- At the end of the project documents end, and the project says what it contains. -/
  | edits {t : Store} : leaving = none → Edits w s t → Departs w leaving s t

/-- Any number of closing steps. -/
abbrev Departed (w : Setting) (leaving : Option NodeId) : Store → Store → Prop :=
  Relation.ReflTransGen (Departs w leaving)

instance : IsPreorder Store (Departed w leaving) where
  refl _ := .refl
  trans _ _ _ := Relation.ReflTransGen.trans

theorem departed_of_edited (h : Edited w s t) : Departed w none s t := by
  induction h with
  | refl => exact .refl
  | tail _ hstep ih => exact ih.tail (.edits rfl hstep)

/-- Draining and shutting a record, put back at once. -/
theorem putBack_shut {ledger : Ledger} :
    { s.putBack id ledger with records := (s.putBack id ledger).records.modify id.index Record.shut }
      = s.putBack id { ledger with record := ledger.record.shut } := by
  have hrecords : (s.records.modify id.index fun _ => ledger.record).modify id.index Record.shut
      = s.records.modify id.index fun _ => ledger.record.shut := by
    refine Array.ext_getElem? fun i => ?_
    simp only [Array.getElem?_modify]
    by_cases hi : id.index = i
    · rw [if_pos hi, if_pos hi, if_pos hi, Option.map_map]
      rfl
    · rw [if_neg hi, if_neg hi, if_neg hi]
  exact congrArg (fun records => { s with graph := ledger.graph, records }) hrecords

/-! ### The walk leaves a node -/

/-- A record that is not closed is drained, and then shut. -/
theorem close_departs {r : Record} (hr : s.records[id.index]? = some r)
    (hstate : r.state ≠ .closed) : Ensures (onRecord id Ledger.close) s
      (fun _ t => ∃ drained, Ledger.Drains ⟨r, s.graph⟩ drained ∧
        t = s.putBack id { drained with record := drained.record.shut })
      fun _ t => Departed w leaving s t := by
  refine (ensures_onRecord hr).mpr ((Ledger.close_drains hstate).mono (fun _ l hl => ?_)
    fun _ l hl => .single (.drains hr hstate hl))
  obtain ⟨drained, hdrains, rfl⟩ := hl
  exact ⟨drained, hdrains, rfl⟩

/-- A record has no open partition for the file of a node that the walk has left, unless it is local
to the node and the file is a declaration file. -/
def Lingers (w : Setting) (node : NodeId) (s : Store) (id : RecordId) : Prop :=
  ∀ r, s.records[id.index]? = some r → r.OpenFor (w.program.fileOf node) →
    r.scope = some node ∧ w.program.isDeclarationFile (w.program.fileOf node) = true

theorem lingers_of {r : Record} (hr : s.records[id.index]? = some r)
    (h : r.OpenFor (w.program.fileOf node) →
      r.scope = some node ∧ w.program.isDeclarationFile (w.program.fileOf node) = true) :
    s.Lingers w node id := by
  intro r' hr' hopen
  cases hr.symm.trans hr'
  exact h hopen

/-- A closed record has no partitions. -/
def Vacant (s : Store) : Prop :=
  ∀ (i : Nat) (r : Record), s.records[i]? = some r → r.state = .closed → r.partitions = ∅

theorem not_openFor_of_empty {r : Record} (h : r.partitions = ∅) : ¬ r.OpenFor file := by
  rintro ⟨partition, hpartition⟩
  rw [h] at hpartition
  cases hpartition

/-- **A record is told that the walk has left a node.** -/
theorem leave_departs (hvacant : s.Vacant) : Ensures (leave w node id) s
    (fun _ t => Departed w (some node) s t ∧ t.watchers = s.watchers ∧
      (w.program.kind node = .sourceFile → t.Lingers w node id))
    fun _ t => Departed w (some node) s t := by
  unfold leave record
  refine ensures_bind.mpr (ensures_bind.mpr (ensures_get.mpr ?_))
  cases hr : s.records[id.index]? with
  | none => exact ensures_throw.mpr .refl
  | some r =>
      refine ensures_pure.mpr ?_
      dsimp only
      -- A closed record ignores the call. An open one is closed by its scope's node; at any other
      -- root of a file its partition of that file is listed.
      by_cases hclosed : r.state = .closed
      · rw [if_pos hclosed]
        exact ensures_pure.mpr ⟨.refl, rfl, fun _ => lingers_of hr fun hopen =>
          absurd hopen (not_openFor_of_empty (hvacant _ r hr hclosed))⟩
      · rw [if_neg hclosed]
        by_cases hscope : r.scope = some node
        · rw [if_pos hscope]
          cases hdeclares : w.program.isDeclarationFile (w.program.fileOf node) with
          | true => exact ensures_pure.mpr ⟨.refl, rfl, fun _ => lingers_of hr fun _ => ⟨hscope, hdeclares⟩⟩
          | false =>
              refine ensures_bind.mpr ((close_departs hr hclosed).mono (fun _ u hu => ?_)
                fun _ _ hu => hu)
              obtain ⟨drained, hdrains, rfl⟩ := hu
              obtain ⟨_, _, _, hrecord⟩ := hdrains.record
              -- Draining keeps key and scope, so the drained record still is local to the node.
              have hkey : drained.record.key = r.key := by rw [hrecord]
              have hlocal : drained.record.scope = some node := by
                rw [hrecord]
                exact hscope
              have hretires := Departs.retires rfl (getElem?_putBack_self hr)
                (hdrains.not_closed hclosed) hlocal hdeclares
              refine ensures_modify.mpr ⟨.tail (.single (.drains hr hclosed hdrains)) ?_, rfl,
                fun _ => lingers_of (getElem?_putBack_self hr) fun hopen => ?_⟩
              · rw [hkey] at hretires
                rw [← putBack_shut]
                exact hretires
              · exact absurd hopen (not_openFor_of_empty rfl)
        · rw [if_neg hscope]
          by_cases hroot : w.program.kind node = .sourceFile
          · rw [if_pos hroot]
            refine (ensures_onRecord hr).mpr ((Ledger.endPartition_drains _ _).mono
              (fun _ l hl => ?_) fun _ l hl => .single (.drains hr hclosed hl))
            exact ⟨.single (.drains hr hclosed hl.1), rfl, fun _ =>
              lingers_of (getElem?_putBack_self hr) fun hopen => absurd hopen hl.2⟩
          · rw [if_neg hroot]
            exact ensures_pure.mpr ⟨.refl, rfl, fun h => absurd h hroot⟩

/-! ### The project ends -/

theorem closeIfOpen_departs : Stays (Departed w none) (closeIfOpen id) := by
  intro s
  unfold closeIfOpen record
  refine ensures_bind.mpr (ensures_bind.mpr (ensures_get.mpr ?_))
  cases hr : s.records[id.index]? with
  | none => exact ensures_throw.mpr .refl
  | some r =>
      refine ensures_pure.mpr ?_
      split
      · rename_i hopen
        have hnot : r.state ≠ .closed := by
          rw [hopen]
          nofun
        refine (close_departs hr hnot).mono (fun _ t ht => ?_) fun _ _ h => h
        obtain ⟨drained, hdrains, rfl⟩ := ht
        rw [← putBack_shut]
        exact .tail (.single (.drains hr hnot hdrains))
          (.closes rfl (getElem?_putBack_self hr) (hdrains.not_closed hnot))
      · exact .refl

/-- The project says what it contains. -/
theorem finish_edits : Stays (Edited w) (Action.onPart
    (fun s => { project := s.project, graph := s.graph : Project.Ledger })
    (fun ledger s => { s with project := ledger.project, graph := ledger.graph })
    Project.finish : Storing Unit) := by
  have hfinish : Stays (fun p q : Project.Ledger => p.graph.GrowsPlainly q.graph)
      Project.finish := by
    intro ledger
    have hcontains := Graph.contains_grows ledger.project.vertex ledger.project.documents ledger.graph
    unfold Ensures Project.finish at *
    by_cases hnone : ledger.project.documents.isEmpty = true
    · rw [if_pos hnone]
      exact refl_of Graph.GrowsPlainly ledger.graph
    · rw [if_neg hnone]
      cases hrun : Graph.contains ledger.project.vertex ledger.project.documents ledger.graph with
      | ok a g =>
          rw [hrun] at hcontains
          exact hcontains
      | error fault g =>
          rw [hrun] at hcontains
          exact hcontains
  refine hfinish.onPart fun s ledger hgrows => ?_
  have hfiles : Edits w s { s with project := ledger.project, documents := s.documents } :=
    .files (fun _ h => h) fun _ h => h
  exact .tail (.single hfiles) (.writes hgrows)

/-- **The project ends.** -/
theorem projectProcessed_departs : Stays (Departed w none) (projectProcessed w) := by
  have hedits {α : Type} {act : Storing α} (h : Stays (Edited w) act) :
      Stays (Departed w none) act := h.mono fun _ _ => departed_of_edited
  have hforgets : Stays (Departed w none)
      (modify fun s : Store => { s with watchers := ∅ } : Storing Unit) :=
    stays_modify fun _ => .single .tells
  refine hforgets.bind fun _ => stays_get.bind fun s => ?_
  refine (Stays.forM fun index _ => closeIfOpen_departs).bind fun _ => stays_get.bind fun s => ?_
  refine (Stays.forM fun file _ => hedits (stays_of_handles fun _ => endDocument_handles)).bind
    fun _ => hedits finish_edits

end SymbolGraph.Store
