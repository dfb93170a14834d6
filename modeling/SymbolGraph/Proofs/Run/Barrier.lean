import SymbolGraph.Proofs.Run.Finality

/-!
# Proofs — Run — the end of the project as a barrier

The end of the project closes record after record and ends document after document.  What a closing
writes goes to the graph and to the record itself, and the end of a document touches no record, so
the rounds that are over stay over.  Nothing is asked of the store at the beginning: operations that
failed may have left it in any state.

* `Store.AtRest`: nothing is open and nothing is left to be said.
* `Store.projectProcessed_atRest`: the end of the project, if it ends well, leaves a store at rest.
* `Store.AtRest.projectProcessed`: a store at rest stays as it is.
* `Store.projectProcessed_barrier`: both together.
-/

namespace SymbolGraph.Store

open SymbolGraph.Action

variable {w : Setting} {s t : Store} {id : RecordId} {file : FileId}

/-- Nothing is open, nobody waits for the walk, and the project has said what it contains. -/
structure AtRest (s : Store) : Prop where
  records   : ∀ (i : Nat) (r : Record), s.records[i]? = some r → r.state ≠ .opened
  documents : s.openDocuments = []
  watchers  : s.watchers = ∅
  project   : s.project.documents = []

/-! ### Coming to rest -/

theorem close_closed (l : Ledger) :
    Ensures Ledger.close l (fun _ l' => l'.record.state = .closed) fun _ _ => True := by
  by_cases hclosed : l.record.state = .closed
  · simp [Ledger.close, Ensures, get_bind_run, pure_run, hclosed]
  · refine (Ledger.close_drains hclosed).mono (fun _ l' hl' => ?_) fun _ _ _ => trivial
    obtain ⟨_, _, hshut⟩ := hl'
    simp [hshut, Record.shut]

/-- A record that is open afterwards was open before, and is another one. -/
theorem closeIfOpen_ensures : Ensures (closeIfOpen id) s (fun _ t => t.watchers = s.watchers ∧
    ∀ (i : Nat) (r : Record), t.records[i]? = some r → r.state = .opened →
      i ≠ id.index ∧ s.records[i]? = some r) fun _ _ => True := by
  refine ensures_record fun known hknown => ?_
  by_cases hopen : known.state = .opened
  · rw [if_pos hopen]
    refine (ensures_onRecord hknown).mpr ((close_closed _).mono (fun _ l hclosed => ?_)
      fun _ _ _ => trivial)
    refine ⟨rfl, fun i r hr hstate => ?_⟩
    by_cases hself : id.index = i
    · subst hself
      cases (getElem?_putBack_self hknown).symm.trans hr
      simp [hclosed] at hstate
    · simp only [getElem?_putBack, hself, if_false] at hr
      exact ⟨Ne.symm hself, hr⟩
  · rw [if_neg hopen]
    refine ensures_pure.mpr ⟨rfl, fun i r hr hstate => ⟨?_, hr⟩⟩
    rintro rfl
    cases hknown.symm.trans hr
    exact hopen hstate

/-- One round for each record, and none is open any more. -/
theorem closeAll_ensures : Ensures
    ((List.range s.records.size).forM fun index => closeIfOpen ⟨index⟩) s
    (fun _ t => t.watchers = s.watchers ∧
      ∀ (i : Nat) (r : Record), t.records[i]? = some r → r.state ≠ .opened) fun _ _ => True := by
  -- A record that is open after some rounds is one whose round is yet to come.
  refine (Ensures.forM (fun rest (t : Store) => t.watchers = s.watchers ∧ ∀ (i : Nat) (r : Record),
    t.records[i]? = some r → r.state = .opened → i ∈ rest) (fun index rest t ht => ?_)
    ⟨rfl, fun i r hr _ => ?_⟩).mono (fun _ t ht => ?_) fun _ _ h => h
  · refine closeIfOpen_ensures.mono (fun _ u hu => ?_) fun _ _ h => h
    refine ⟨hu.1.trans ht.1, fun i r hr hstate => ?_⟩
    obtain ⟨hne, hold⟩ := hu.2 i r hr hstate
    exact (List.mem_cons.mp (ht.2 i r hold hstate)).resolve_left hne
  · exact List.mem_range.mpr (Array.getElem?_eq_some_iff.mp hr).1
  · exact ⟨ht.1, fun i r hr hstate => by simpa using ht.2 i r hr hstate⟩

theorem mem_openDocuments :
    file ∈ s.openDocuments ↔ ∃ document, (file, Slot.live document) ∈ s.documents.entries := by
  constructor
  · intro h
    obtain ⟨⟨file, slot⟩, hentry, rfl⟩ := List.mem_map.mp h
    obtain ⟨hmem, hlive⟩ := List.mem_filter.mp hentry
    cases slot with
    | live document => exact ⟨document, hmem⟩
    | cleared => cases hlive
  · rintro ⟨document, hmem⟩
    exact List.mem_map.mpr ⟨_, List.mem_filter.mpr ⟨hmem, rfl⟩, rfl⟩

/-- A document that has not ended afterwards had not ended before, and is another one. -/
theorem endDocument_ensures : Ensures (endDocument w file) s
    (fun _ t => t.watchers = s.watchers ∧ t.records = s.records ∧
      ∀ other ∈ t.openDocuments, other ≠ file ∧ other ∈ s.openDocuments) fun _ _ => True := by
  refine ensures_bind.mpr (ensures_get.mpr ?_)
  cases hslot : s.documents.get? file with
  | none =>
      refine ensures_pure.mpr ⟨rfl, rfl, fun other hother => ⟨?_, hother⟩⟩
      rintro rfl
      obtain ⟨document, hmem⟩ := mem_openDocuments.mp hother
      exact Table.not_mem_keys_iff.mpr hslot (List.mem_map_of_mem hmem)
  | some slot =>
      cases slot with
      | cleared => exact ensures_throw.mpr trivial
      | live document =>
          refine ensures_bind.mpr (ensures_modify.mpr (ensures_onPart.mpr ?_))
          refine (ensures_true _ _).mono (fun _ g _ => ⟨rfl, rfl, fun other hother => ?_⟩)
            fun _ _ h => h
          obtain ⟨known, hmem⟩ := mem_openDocuments.mp hother
          -- All entries of the file are written over.
          simp only [Table.insert, Table.contains, hslot, Option.isSome_some, if_true] at hmem
          obtain ⟨entry, hentry, heq⟩ := List.mem_map.mp hmem
          by_cases hfile : entry.1 = file
          · simp [hfile] at heq
          · simp only [hfile, if_false] at heq
            subst heq
            exact ⟨hfile, mem_openDocuments.mpr ⟨known, hentry⟩⟩

theorem endAll_ensures : Ensures (s.openDocuments.forM (endDocument w)) s
    (fun _ t => t.watchers = s.watchers ∧ t.records = s.records ∧ t.openDocuments = [])
    fun _ _ => True := by
  refine (Ensures.forM (fun rest (t : Store) => t.watchers = s.watchers ∧ t.records = s.records ∧
    ∀ other ∈ t.openDocuments, other ∈ rest) (fun file rest t ht => ?_)
    ⟨rfl, rfl, fun _ h => h⟩).mono (fun _ t ht => ?_) fun _ _ h => h
  · refine endDocument_ensures.mono (fun _ u hu => ?_) fun _ _ h => h
    refine ⟨hu.1.trans ht.1, hu.2.1.trans ht.2.1, fun other hother => ?_⟩
    obtain ⟨hne, hold⟩ := hu.2.2 other hother
    exact (List.mem_cons.mp (ht.2.2 other hold)).resolve_left hne
  · exact ⟨ht.1, ht.2.1, List.eq_nil_iff_forall_not_mem.mpr fun other hother =>
      List.not_mem_nil (ht.2.2 other hother)⟩

/-- The project has nothing more to say when it has said what it contains. -/
theorem finish_silent (l : Project.Ledger) :
    Ensures Project.finish l (fun _ l' => l'.project.documents = []) fun _ _ => True := by
  by_cases hempty : l.project.documents.isEmpty = true
  · simp only [Ensures, Project.finish, hempty, if_true]
    exact List.isEmpty_iff.mp hempty
  · simp only [Ensures, Project.finish, hempty]
    cases Graph.contains l.project.vertex l.project.documents l.graph with
    | ok e graph => rfl
    | error fault graph => trivial

/-- **The end of the project leaves a store at rest**, whatever it was before. -/
theorem projectProcessed_atRest :
    Ensures (projectProcessed w) s (fun _ t => t.AtRest) fun _ _ => True := by
  refine ensures_bind.mpr (ensures_modify.mpr (ensures_bind.mpr (ensures_get.mpr
    (ensures_bind.mpr (closeAll_ensures.mono (fun _ t ht => ?_) fun _ _ h => h)))))
  refine ensures_bind.mpr (ensures_get.mpr (ensures_bind.mpr
    (endAll_ensures.mono (fun _ u hu => ?_) fun _ _ h => h)))
  refine ensures_onPart.mpr ((finish_silent _).mono (fun _ l hl => ?_) fun _ _ h => h)
  exact ⟨fun i r hr => ht.2 i r (hu.2.1 ▸ hr), hu.2.2, hu.1.trans ht.1, hl⟩

/-! ### Staying at rest -/

theorem AtRest.closeIfOpen (h : s.AtRest) (hid : id.index < s.records.size) :
    closeIfOpen id s = .ok () s := by
  have hr : s.records[id.index]? = some s.records[id.index] := Array.getElem?_eq_getElem hid
  have hstate := h.records _ _ hr
  have hrecord : record id s = .ok s.records[id.index] s := by
    simp [record, get_bind_run, pure_run, hr]
  simp [Store.closeIfOpen, bind_run_ok hrecord, pure_run, hstate]

/-- **A store at rest stays as it is** when the project ends again. -/
theorem AtRest.projectProcessed (h : s.AtRest) : projectProcessed w s = .ok () s := by
  have hwatchers : { s with watchers := ∅ } = s := by rw [← h.watchers]
  have hrecords (indices : List Nat) (hin : ∀ index ∈ indices, index < s.records.size) :
      (indices.forM fun index => Store.closeIfOpen ⟨index⟩) s = .ok () s := by
    induction indices with
    | nil => rfl
    | cons index indices ih =>
        have hfirst : Store.closeIfOpen ⟨index⟩ s = .ok () s :=
          h.closeIfOpen (hin index List.mem_cons_self)
        have hrest := ih fun other hother => hin other (List.mem_cons_of_mem _ hother)
        simpa [bind_run_ok hfirst] using hrest
  have hall := hrecords (List.range s.records.size) fun index => List.mem_range.mp
  rw [Store.projectProcessed, modify_bind_run, hwatchers, get_bind_run, bind_run_ok hall,
    get_bind_run, h.documents]
  have hfinish : Project.finish ⟨s.project, s.graph⟩ = .ok () ⟨s.project, s.graph⟩ := by
    simp [Project.finish, h.project]
  simp [bind_run_ok (pure_run _ _), Action.onPart, hfinish]

/-- **The end of the project is a barrier.**  Wherever it starts from, if it ends well then no record
is open, no document is, and nobody is to be told where the walk is; and the same once more ends well
and changes nothing, so nothing is emitted either. -/
theorem projectProcessed_barrier (h : projectProcessed w s = .ok () t) :
    (∀ (i : Nat) (r : Record), t.records[i]? = some r → r.state ≠ .opened) ∧
    (∀ file document, t.documents.get? file ≠ some (.live document)) ∧
    t.watchers = ∅ ∧ projectProcessed w t = .ok () t := by
  have hrest : t.AtRest := projectProcessed_atRest.of_ok h
  refine ⟨hrest.records, fun file document hlive => ?_, hrest.watchers, hrest.projectProcessed⟩
  have hopen := mem_openDocuments.mpr ⟨document, Table.mem_entries_of_get? hlive⟩
  simp [hrest.documents] at hopen

/-- A local record is closed before the end, and another is open with a definition in each file; the
second file has ended, and a range that comes too late for it is refused. -/
def halfWay : List Operation :=
  [.insert ⟨"local"⟩ .standard (some ⟨0⟩), .watch ⟨0⟩ ⟨0⟩, .nodeProcessed ⟨0⟩,
    .insert ⟨"global"⟩ .standard none, .watch ⟨1⟩ ⟨1⟩, .addDefinition ⟨1⟩ ⟨0⟩ ⟨100⟩ true,
    .addDefinition ⟨1⟩ ⟨1⟩ ⟨101⟩ true, .endDocument ⟨1⟩, .addRange ⟨1⟩ ⟨102⟩]

/-- The end of the project has something to do there, and only once. -/
theorem halfWay_barrier : ∃ s t, s.Reachable twoFiles ∧
    s.records.toList.map Record.state = [.closed, .opened] ∧ s.openDocuments = [⟨0⟩] ∧
    s.watchers.keys = [⟨1⟩, ⟨0⟩] ∧ projectProcessed twoFiles s = .ok () t ∧
    s.graph.elements.length < t.graph.elements.length ∧
    (∀ (i : Nat) (r : Record), t.records[i]? = some r → r.state ≠ .opened) ∧
    projectProcessed twoFiles t = .ok () t := by
  have hstart : ((outcome? (start twoFiles.projectRoot) (Graph.ofSink .inMemory)).map fun first =>
      after twoFiles halfWay { graph := first.2, project := first.1 }).any (fun s =>
        s.records.toList.map Record.state = [.closed, .opened] ∧ s.openDocuments = [⟨0⟩] ∧
        s.watchers.keys = [⟨1⟩, ⟨0⟩] ∧ (ending? (projectProcessed twoFiles) s).any fun t =>
          s.graph.elements.length < t.graph.elements.length) = true := by
    decide +kernel
  obtain ⟨s, hs, hfacts⟩ := (Option.any_eq_true _ _).mp hstart
  obtain ⟨hstates, hdocuments, hwatchers, hend⟩ := of_decide_eq_true hfacts
  obtain ⟨t, ht, hmore⟩ := (Option.any_eq_true _ _).mp hend
  obtain ⟨first, hfirst, rfl⟩ := Option.map_eq_some_iff.mp hs
  obtain ⟨⟨⟩, hok⟩ := ending?_eq_some.mp ht
  have hreachable : Reachable twoFiles
      (after twoFiles halfWay { graph := first.2, project := first.1 }) :=
    ⟨_, first.1, first.2, halfWay, outcome?_eq_some.mp hfirst, rfl⟩
  have hbarrier := projectProcessed_barrier hok
  exact ⟨_, t, hreachable, hstates, hdocuments, hwatchers, hok, of_decide_eq_true hmore, hbarrier.1,
    hbarrier.2.2.2⟩

end SymbolGraph.Store
