import SymbolGraph.Proofs.Store.Watching

/-!
# Proofs — Store — a closed record is left in peace

A result belongs to one record, because it is given with an id that nobody had before.  A listing
leaves a result of the record that is drained, and a closed record is never drained.  So once a
record is closed nothing is listed for it, even where it is given a reference result later because
others refer to it.

* `Store.Gives`: a result by its record and id.
* `Store.Sealed`: results are told apart by their ids, and closed records have no partitions.
* `Store.Honours`: closed records stay closed, and listings leave results of records that were not.
* `Store.Upholds`: what was closed is honoured, and results are still told apart.
* `Store.Edited.upholds`, `Store.Departed.upholds`, `Store.insert_upholds`: every operation upholds.
-/

namespace SymbolGraph

open SymbolGraph.Action

/-- What happens to a record that may be closed: it stays what it is, and keeps its results. -/
structure Record.Honours (r r' : Record) : Prop where
  key     : r'.key = r.key
  kind    : r'.kind = r.kind
  closed  : r.state = .closed → r'.state = .closed
  results : ∀ id, r.HasResult id → r'.HasResult id

theorem Record.Honours.refl (r : Record) : r.Honours r := ⟨rfl, rfl, id, fun _ h => h⟩

namespace Store

variable {w : Setting} {leaving : Option NodeId} {s t u : Store} {id : RecordId}

/-- A record has a result of this id. -/
def Gives (s : Store) (i : Nat) (id : ElementId) : Prop :=
  ∃ r, s.records[i]? = some r ∧ r.HasResult id

/-- A record is closed. -/
def IsClosed (s : Store) (i : Nat) : Prop :=
  ∃ r, s.records[i]? = some r ∧ r.state = .closed

/-- Results have ids that were issued, no two records share one, and closed records have no
partitions. -/
structure Sealed (s : Store) : Prop where
  issued : ∀ i id, s.Gives i id → id.value ≤ s.graph.issued
  unique : ∀ i j id, s.Gives i id → s.Gives j id → i = j
  vacant   : s.Vacant

/-- Records stay what they are and closed where they were, and what is listed since is listed by
records that were not closed. -/
structure Honours (s t : Store) : Prop where
  records  : ∀ (i : Nat) (r : Record), s.records[i]? = some r →
    ∃ r', t.records[i]? = some r' ∧ r.Honours r'
  elements : ∃ written, t.graph.elements = s.graph.elements ++ written ∧
    ∀ e ∈ written, ∀ source, e.lister? = some source → ∃ i, t.Gives i source ∧ ¬ s.IsClosed i

theorem Honours.isClosed (h : s.Honours t) {i : Nat} (hi : s.IsClosed i) : t.IsClosed i := by
  obtain ⟨r, hr, hclosed⟩ := hi
  obtain ⟨r', hr', hhonours⟩ := h.records i r hr
  exact ⟨r', hr', hhonours.closed hclosed⟩

theorem Honours.gives (h : s.Honours t) {i : Nat} {id : ElementId} (hi : s.Gives i id) :
    t.Gives i id := by
  obtain ⟨r, hr, hresult⟩ := hi
  obtain ⟨r', hr', hhonours⟩ := h.records i r hr
  exact ⟨r', hr', hhonours.results id hresult⟩

instance : IsPreorder Store Honours where
  refl s := ⟨fun _ r hr => ⟨r, hr, .refl r⟩, [], (List.append_nil _).symm, nofun⟩
  trans s t u h h' := by
    refine ⟨fun i r hr => ?_, ?_⟩
    · obtain ⟨r', hr', hfirst⟩ := h.records i r hr
      obtain ⟨r'', hr'', hsecond⟩ := h'.records i r' hr'
      exact ⟨r'', hr'', hsecond.key.trans hfirst.key, hsecond.kind.trans hfirst.kind,
        fun hclosed => hsecond.closed (hfirst.closed hclosed),
        fun id hid => hsecond.results id (hfirst.results id hid)⟩
    · obtain ⟨written, helements, hlisted⟩ := h.elements
      obtain ⟨more, helements', hlisted'⟩ := h'.elements
      refine ⟨written ++ more, by rw [helements', helements, List.append_assoc], ?_⟩
      intro e he source hsource
      rcases List.mem_append.mp he with he | he
      · obtain ⟨i, hgives, hopen⟩ := hlisted e he source hsource
        exact ⟨i, h'.gives hgives, hopen⟩
      · obtain ⟨i, hgives, hopen⟩ := hlisted' e he source hsource
        exact ⟨i, hgives, fun hclosed => hopen (h.isClosed hclosed)⟩

/-- What is open for later listings: what a step must say of its elements. -/
theorem honours_of (hrecords : Renews Record.Honours s.records t.records)
    (hgraph : s.graph.Grows (fun source => ∃ i, t.Gives i source ∧ ¬ s.IsClosed i) t.graph) :
    s.Honours t :=
  ⟨fun _ _ hr => hrecords.forward hr, hgraph.elements⟩

/-! ### Steps -/

/-- A store that only has a project has nothing that could be mistaken. -/
theorem sealed_fresh {graph : Graph} {project : Project} : Sealed { graph, project } := by
  have hnone {i : Nat} {r : Record} (hr : (#[] : Array Record)[i]? = some r) : False := by
    simp at hr
  exact ⟨fun _ _ ⟨_, hr, _⟩ => (hnone hr).elim, fun _ _ _ ⟨_, hr, _⟩ => (hnone hr).elim,
    fun _ _ hr => (hnone hr).elim⟩

/-- The results of one record are added to, with new ids. -/
theorem Sealed.putBack (hs : s.Sealed) {r : Record} {ledger : Ledger}
    (hr : s.records[id.index]? = some r) (h : Ledger.Enriches ⟨r, s.graph⟩ ledger)
    (hissued : s.graph.issued ≤ ledger.graph.issued) (hvacant : (s.putBack id ledger).Vacant) :
    (s.putBack id ledger).Sealed := by
  -- A result after the step was there before, or belongs to this record and is new.
  have hsplit (i : Nat) (result : ElementId) (hgives : (s.putBack id ledger).Gives i result) :
      s.Gives i result ∨ i = id.index ∧ s.graph.issued < result.value ∧
        result.value ≤ ledger.graph.issued := by
    obtain ⟨r', hr', hresult⟩ := hgives
    rw [getElem?_putBack] at hr'
    split at hr'
    · rename_i hi
      obtain ⟨_, -, rfl⟩ := Option.map_eq_some_iff.mp hr'
      rcases h.fresh result hresult with hold | hnew
      · exact .inl ⟨r, hi ▸ hr, hold⟩
      · exact .inr ⟨hi.symm, hnew⟩
    · exact .inl ⟨r', hr', hresult⟩
  refine ⟨fun i result hgives => ?_, fun i j result hi hj => ?_, hvacant⟩
  · rcases hsplit i result hgives with hold | hnew
    · exact Nat.le_trans (hs.issued i result hold) hissued
    · exact hnew.2.2
  · rcases hsplit i result hi with hiold | hinew
    · rcases hsplit j result hj with hjold | hjnew
      · exact hs.unique i j result hiold hjold
      · exact absurd (hs.issued i result hiold) (Nat.not_le_of_lt hjnew.2.1)
    · rcases hsplit j result hj with hjold | hjnew
      · exact absurd (hs.issued j result hjold) (Nat.not_le_of_lt hinew.2.1)
      · exact hinew.1.trans hjnew.1.symm

/-- Nobody is given a result. -/
theorem Sealed.renew (hs : s.Sealed)
    (hrecords : ∀ (i : Nat) (r' : Record), t.records[i]? = some r' → ∀ id, r'.HasResult id →
      s.Gives i id)
    (hissued : s.graph.issued ≤ t.graph.issued) (hvacant : t.Vacant) : t.Sealed where
  issued i id := fun ⟨r', hr', hresult⟩ =>
    Nat.le_trans (hs.issued i id (hrecords i r' hr' id hresult)) hissued
  unique i j id := fun ⟨r, hr, hresult⟩ ⟨r', hr', hresult'⟩ =>
    hs.unique i j id (hrecords i r hr id hresult) (hrecords j r' hr' id hresult')
  vacant := hvacant

/-- The results of records are what they were. -/
theorem gives_of_modify {i : RecordId} {change : Record → Record}
    (hchange : ∀ r id, (change r).HasResult id → r.HasResult id) (j : Nat) (r' : Record)
    (hr' : (s.records.modify i.index change)[j]? = some r') (id : ElementId)
    (hresult : r'.HasResult id) : s.Gives j id := by
  rw [Array.getElem?_modify] at hr'
  split at hr'
  · obtain ⟨r, hr, rfl⟩ := Option.map_eq_some_iff.mp hr'
    exact ⟨r, hr, hchange r id hresult⟩
  · exact ⟨r', hr', hresult⟩

theorem hasResult_addInfo {r : Record} {info : DefinitionInfo} {id : ElementId} :
    (r.addInfo info).HasResult id ↔ r.HasResult id := by
  unfold Record.addInfo
  split <;> exact Iff.rfl

theorem Edits.honours (h : Edits w s t) : s.Honours t := by
  have hsame : s.graph.Grows (fun source => ∃ i, t.Gives i source ∧ ¬ s.IsClosed i) s.graph :=
    refl_of _ _
  cases h with
  | writes hgraph => exact honours_of (.refl Record.Honours.refl _) hgraph.grows
  | notes =>
      refine honours_of (.modify Record.Honours.refl fun r _ => ?_) hsame
      have hrevises := r.revises_addInfo
      exact ⟨(hrevises _).key, (hrevises _).kind, fun hclosed => (hrevises _).state.trans hclosed,
        fun id hid => hasResult_addInfo.mpr hid⟩
  | grants hr hgrants =>
      obtain ⟨_, _, hrecord⟩ := hgrants.record
      refine honours_of (renews_putBack hr Record.Honours.refl ⟨?_, ?_, fun hclosed => ?_,
        hgrants.kept⟩) hgrants.graph.grows
      · rw [hrecord]
      · rw [hrecord]
      · rw [hrecord]
        exact hclosed
  | opens =>
      exact honours_of (.modify Record.Honours.refl fun _ _ => ⟨rfl, rfl, id, fun _ h => h⟩) hsame
  | fills =>
      exact honours_of (.modify Record.Honours.refl fun _ _ => ⟨rfl, rfl, id, fun _ h => h⟩) hsame
  | watches => exact honours_of (.refl Record.Honours.refl _) hsame
  | files => exact honours_of (.refl Record.Honours.refl _) hsame

theorem Edits.sealed (h : Edits w s t) (hs : s.Sealed) : t.Sealed := by
  have hvacant := h.vacant hs.vacant
  have hsame (i : Nat) (r' : Record) (hr' : s.records[i]? = some r') (id : ElementId)
      (hresult : r'.HasResult id) : s.Gives i id := ⟨r', hr', hresult⟩
  cases h with
  | writes hgraph => exact hs.renew hsame hgraph.issued hvacant
  | notes =>
      exact hs.renew (gives_of_modify fun _ _ => hasResult_addInfo.mp) (Nat.le_refl _) hvacant
  | grants hr hgrants => exact hs.putBack hr hgrants.toEnriches hgrants.graph.issued hvacant
  | opens => exact hs.renew (gives_of_modify fun _ _ h => h) (Nat.le_refl _) hvacant
  | fills => exact hs.renew (gives_of_modify fun _ _ h => h) (Nat.le_refl _) hvacant
  | watches => exact hs.renew hsame (Nat.le_refl _) hvacant
  | files => exact hs.renew hsame (Nat.le_refl _) hvacant

theorem Departs.honours (h : Departs w leaving s t) : s.Honours t := by
  have hsame : s.graph.Grows (fun source => ∃ i, t.Gives i source ∧ ¬ s.IsClosed i) s.graph :=
    refl_of _ _
  cases h with
  | tells => exact honours_of (.refl Record.Honours.refl _) hsame
  | drains hr hnot hdrains =>
      obtain ⟨_, _, _, hrecord⟩ := hdrains.record
      refine honours_of (renews_putBack hr Record.Honours.refl ⟨?_, ?_, fun hclosed =>
        absurd hclosed hnot, hdrains.kept⟩) (hdrains.graph.mono fun source hsource => ?_)
      · rw [hrecord]
      · rw [hrecord]
      · refine ⟨_, ⟨_, getElem?_putBack_self hr, hsource⟩, fun hclosed => ?_⟩
        obtain ⟨r', hr', hclosed⟩ := hclosed
        cases hr.symm.trans hr'
        exact hnot hclosed
  | retires =>
      exact honours_of (.modify Record.Honours.refl fun _ _ => ⟨rfl, rfl, fun _ => rfl,
        fun _ h => h⟩) hsame
  | closes =>
      exact honours_of (.modify Record.Honours.refl fun _ _ => ⟨rfl, rfl, fun _ => rfl,
        fun _ h => h⟩) hsame
  | edits _ hedits => exact hedits.honours

theorem Departs.sealed (h : Departs w leaving s t) (hs : s.Sealed) : t.Sealed := by
  have hvacant := h.vacant hs.vacant
  cases h with
  | tells => exact hs.renew (fun _ r' hr' _ hresult => ⟨r', hr', hresult⟩) (Nat.le_refl _) hvacant
  | drains hr _ hdrains => exact hs.putBack hr hdrains.toEnriches hdrains.graph.issued hvacant
  | retires => exact hs.renew (gives_of_modify fun _ _ h => h) (Nat.le_refl _) hvacant
  | closes => exact hs.renew (gives_of_modify fun _ _ h => h) (Nat.le_refl _) hvacant
  | edits _ hedits => exact hedits.sealed hs

/-! ### Operations -/

/-- What an operation leads to honours what was closed, if results were told apart. -/
def Upholds (s t : Store) : Prop := s.Sealed → s.Honours t ∧ t.Sealed

instance : IsPreorder Store Upholds where
  refl s hs := ⟨refl_of Honours s, hs⟩
  trans _ _ _ h h' hs := by
    obtain ⟨hhonours, ht⟩ := h hs
    obtain ⟨hhonours', hu⟩ := h' ht
    exact ⟨trans_of Honours hhonours hhonours', hu⟩

theorem Edited.upholds (h : Edited w s t) : s.Upholds t := by
  induction h with
  | refl => exact refl_of Upholds s
  | tail _ hstep ih => exact trans_of Upholds ih fun hs => ⟨hstep.honours, hstep.sealed hs⟩

theorem Departed.upholds (h : Departed w leaving s t) : s.Upholds t := by
  induction h with
  | refl => exact refl_of Upholds s
  | tail _ hstep ih => exact trans_of Upholds ih fun hs => ⟨hstep.honours, hstep.sealed hs⟩

/-- A new record has no results. -/
theorem pushed_upholds {fresh : Record} {graph : Graph} (hgraph : s.graph.GrowsPlainly graph)
    (hresult : ∀ id, ¬ fresh.HasResult id) (hnone : fresh.partitions = ∅) :
    s.Upholds { s.pushed fresh with graph } := by
  intro hs
  have hold (i : Nat) (r' : Record) (hr' : (s.pushed fresh).records[i]? = some r') (id : ElementId)
      (hid : r'.HasResult id) : s.Gives i id := by
    rcases getElem?_pushed.mp hr' with hr' | ⟨-, rfl⟩
    · exact ⟨r', hr', hid⟩
    · exact absurd hid (hresult id)
  refine ⟨⟨fun i r hr => ⟨r, getElem?_pushed.mpr (.inl hr), .refl r⟩, ?_⟩,
    hs.renew hold hgraph.issued fun i r hr hclosed => ?_⟩
  · obtain ⟨written, helements, hplain⟩ := hgraph.elements
    exact ⟨written, helements, fun e he source hsource => (hplain e he source hsource).elim⟩
  · rcases getElem?_pushed.mp hr with hr | ⟨-, rfl⟩
    · exact hs.vacant i r hr hclosed
    · exact hnone

/-- A new record honours those before it. -/
theorem Admits.upholds {key : SymbolKey} {kind : RecordKind} {scope : Option NodeId}
    {hub : VertexRef} (h : s.Admits key kind scope hub t) : s.Upholds t := by
  rw [h.store]
  exact pushed_upholds h.graph (by simp [Record.HasResult]) rfl

/-- So does one whose result set the sink refused. -/
theorem Refuses.upholds {key : SymbolKey} {kind : RecordKind} {scope : Option NodeId}
    (h : s.Refuses key kind scope t) : s.Upholds t := by
  rw [h.store]
  exact pushed_upholds h.graph (by simp [Record.HasResult]) rfl

theorem insert_upholds (key : SymbolKey) (kind : RecordKind) (scope : Option NodeId) :
    Stays Upholds (insert w { key, kind, scope }) := by
  intro s
  refine (insert_admits key kind scope s).mono (fun _ t ht => ?_) fun _ t ht => ?_
  · obtain ⟨-, hub, u, hu, hut⟩ := ht
    exact trans_of Upholds hu.upholds hut.upholds
  · rcases ht with ⟨hub, u, hu, hut⟩ | hrefused
    · exact trans_of Upholds hu.upholds hut.upholds
    · exact hrefused.upholds

/-- The walk leaves a node. -/
theorem nodeProcessed_upholds (node : NodeId) : Stays Upholds (nodeProcessed w node) := by
  refine stays_of_ready fun s hs => ?_
  refine ensures_bind.mpr (ensures_get.mpr ?_)
  have hself : s.Upholds s := refl_of Upholds s
  cases s.watchers.get? node with
  | none => exact ensures_pure.mpr (hself hs)
  | some told =>
      refine ensures_bind.mpr (ensures_modify.mpr ?_)
      have hforgets : Departed w (some node) s { s with watchers := s.watchers.erase node } :=
        .single .tells
      have hvacant : ({ s with watchers := s.watchers.erase node } : Store).Vacant := hs.vacant
      exact (leaves_depart hvacant told).mono (fun _ t ht => Departed.upholds (hforgets.trans ht.1) hs)
        fun _ t ht => Departed.upholds (hforgets.trans ht) hs

/-- The cache has no part in it. -/
theorem upholds_cache {cache : Table SymbolKey CacheSlot} : s.Upholds { s with cache } := fun hs =>
  ⟨⟨fun _ r hr => ⟨r, hr, .refl r⟩, [], (List.append_nil _).symm, nofun⟩, hs.issued, hs.unique,
    hs.vacant⟩

end Store

end SymbolGraph
