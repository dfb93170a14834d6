import SymbolGraph.Proofs.Run.Walked
import SymbolGraph.Proofs.Session.Turning

/-!
# Proofs — Run — the life cycle of a record

Throughout a run over a sink that takes everything, until the project ends, the cache and the records
agree: the key of a record denotes it, and the record is open and has a result set; or the key is
cleared, and the record is closed, has no partitions and was local to a node that the walk has left.
That holds between any two operations, also while a record is being made that needs others.

* `Store.Coherent`: the cache and the records agree.
* `Store.Coherent.renew`, `Store.Departs.coherent`: what the steps make of a record.
* `Run.coherent_throughout`: they agree throughout a run.
-/

namespace SymbolGraph

/-- A record keeps its key, its scope, its state and its result set, and its partitions once it is
closed. -/
structure Record.Persists (r r' : Record) : Prop where
  key        : r'.key = r.key
  scope      : r'.scope = r.scope
  state      : r'.state = r.state
  resultSet  : r'.resultSet = r.resultSet
  partitions : r.state = .closed → r'.partitions = r.partitions

theorem Record.Revises.persists {r r' : Record} (h : r.Revises r') : r.Persists r' where
  key := h.key
  scope := h.scope
  state := h.state
  resultSet := h.resultSet
  partitions hclosed := h.partitions (by rw [hclosed]; nofun)

namespace Store

variable {w : Setting} {s t : Store} {left more : NodeId → Prop} {key : SymbolKey} {node : NodeId}

/-- A record that is live: its key denotes it, and it is open and has a result set. -/
structure IsLive (s : Store) (id : RecordId) (r : Record) : Prop where
  slot      : s.cache.get? r.key = some (.live id)
  state     : r.state = .opened
  resultSet : r.resultSet ≠ none

/-- A record that was retired: its key is cleared, and it is closed and empty.  It was local to a
node of no declaration file that the walk has left. -/
structure IsRetired (w : Setting) (left : NodeId → Prop) (s : Store) (r : Record) : Prop where
  slot       : s.cache.get? r.key = some .cleared
  state      : r.state = .closed
  partitions : r.partitions = ∅
  scope      : ∃ node, r.scope = some node ∧ left node ∧
    w.program.isDeclarationFile (w.program.fileOf node) = false

/-- Every record is live or was retired, and the cache denotes only records that there are. -/
structure Coherent (w : Setting) (left : NodeId → Prop) (s : Store) : Prop where
  record  : ∀ i r, s.records[i]? = some r → s.IsLive ⟨i⟩ r ∨ s.IsRetired w left r
  live    : ∀ key id, s.cache.get? key = some (.live id) →
    ∃ r, s.records[id.index]? = some r ∧ r.key = key
  cleared : ∀ key, s.cache.get? key = some .cleared →
    ∃ (i : Nat) (r : Record), s.records[i]? = some r ∧ r.key = key

theorem IsRetired.mono {r : Record} (h : s.IsRetired w left r) (himp : ∀ node, left node → more node) :
    s.IsRetired w more r := by
  obtain ⟨node, hscope, hleft, hdeclares⟩ := h.scope
  exact ⟨h.slot, h.state, h.partitions, node, hscope, himp node hleft, hdeclares⟩

theorem Coherent.mono (h : s.Coherent w left) (himp : ∀ node, left node → more node) :
    s.Coherent w more :=
  ⟨fun i r hr => (h.record i r hr).imp_right fun hretired => hretired.mono himp, h.live, h.cleared⟩

/-! ### Records change -/

theorem IsLive.persists {id : RecordId} {r r' : Record} (h : s.IsLive id r)
    (hcache : t.cache = s.cache) (hpersists : r.Persists r') : t.IsLive id r' where
  slot := by
    rw [hcache, hpersists.key]
    exact h.slot
  state := hpersists.state.trans h.state
  resultSet := by
    rw [hpersists.resultSet]
    exact h.resultSet

theorem IsRetired.persists {r r' : Record} (h : s.IsRetired w left r) (hcache : t.cache = s.cache)
    (hpersists : r.Persists r') : t.IsRetired w left r' where
  slot := by
    rw [hcache, hpersists.key]
    exact h.slot
  state := hpersists.state.trans h.state
  partitions := (hpersists.partitions h.state).trans h.partitions
  scope := by
    rw [hpersists.scope]
    exact h.scope

/-- The cache stays, and every record keeps what counts. -/
theorem Coherent.renew (h : s.Coherent w left) (hcache : t.cache = s.cache)
    (hrenews : Renews Record.Persists s.records t.records) : t.Coherent w left := by
  refine ⟨fun i r' hr' => ?_, fun key id hslot => ?_, fun key hslot => ?_⟩
  · obtain ⟨r, hr, hpersists⟩ := hrenews.backward hr'
    exact (h.record i r hr).imp (fun hlive => hlive.persists hcache hpersists)
      fun hretired => hretired.persists hcache hpersists
  · obtain ⟨r, hr, hkey⟩ := h.live key id (hcache ▸ hslot)
    obtain ⟨r', hr', hpersists⟩ := hrenews.forward hr
    exact ⟨r', hr', hpersists.key.trans hkey⟩
  · obtain ⟨i, r, hr, hkey⟩ := h.cleared key (hcache ▸ hslot)
    obtain ⟨r', hr', hpersists⟩ := hrenews.forward hr
    exact ⟨i, r', hr', hpersists.key.trans hkey⟩

theorem Edited.coherent (h : Edited w s t) (hs : s.Coherent w left) : t.Coherent w left :=
  hs.renew h.cache (h.revises.mono fun _ _ hrevises => hrevises.persists)

/-- A record whose slot is the same is live or retired as before. -/
theorem Coherent.record_of_slot (h : s.Coherent w left) {i : Nat} {r : Record}
    (hr : s.records[i]? = some r) (hsame : t.cache.get? r.key = s.cache.get? r.key) :
    t.IsLive ⟨i⟩ r ∨ t.IsRetired w left r := by
  refine (h.record i r hr).imp (fun hlive => ?_) fun hretired => ?_
  · exact ⟨hsame.trans hlive.slot, hlive.state, hlive.resultSet⟩
  · exact ⟨hsame.trans hretired.slot, hretired.state, hretired.partitions, hretired.scope⟩

/-! ### Reservations -/

/-- A key that has no record yet. -/
def Undecided (s : Store) (key : SymbolKey) : Prop :=
  s.cache.get? key = none ∨ s.cache.get? key = some .resolving

theorem Coherent.key_ne (h : s.Coherent w left) (hkey : s.Undecided key) {i : Nat} {r : Record}
    (hr : s.records[i]? = some r) : r.key ≠ key := by
  intro heq
  have hslot : s.cache.get? key ≠ none ∧ s.cache.get? key ≠ some .resolving := by
    rcases h.record i r hr with hlive | hretired
    · rw [← heq, hlive.slot]
      exact ⟨nofun, nofun⟩
    · rw [← heq, hretired.slot]
      exact ⟨nofun, nofun⟩
  exact hkey.elim hslot.1 hslot.2

/-- The slot of a key that has no record yet changes, and still denotes nothing. -/
theorem Coherent.recache (h : s.Coherent w left) {cache : Table SymbolKey CacheSlot}
    (hkey : s.Undecided key) (hother : ∀ other, other ≠ key → cache.get? other = s.cache.get? other)
    (hnow : cache.get? key = none ∨ cache.get? key = some .resolving) :
    Coherent w left { s with cache } := by
  have hback {other : SymbolKey} {slot : CacheSlot} (hslot : cache.get? other = some slot)
      (hne : slot ≠ .resolving) : s.cache.get? other = some slot := by
    have hdifferent : other ≠ key := by
      intro heq
      rw [heq] at hslot
      rcases hnow with hnone | hresolving
      · cases hnone.symm.trans hslot
      · cases hresolving.symm.trans hslot
        exact hne rfl
    exact (hother other hdifferent).symm.trans hslot
  refine ⟨fun i r hr => ?_, fun other id hslot => h.live other id (hback hslot nofun),
    fun other hslot => h.cleared other (hback hslot nofun)⟩
  exact h.record_of_slot hr (hother r.key (h.key_ne hkey hr))

/-- A record whose key is reserved is admitted. -/
theorem Admits.coherent {kind : RecordKind} {scope : Option NodeId} {hub : VertexRef}
    (h : s.Admits key kind scope hub t) (hkey : s.cache.get? key = some .resolving)
    (hs : s.Coherent w left) : t.Coherent w left := by
  have hold {other : SymbolKey} (hne : other ≠ key) :
      (s.cache.insert key (.live ⟨s.records.size⟩)).get? other = s.cache.get? other :=
    get?_insert_of_ne _ other hne
  have hnew : (s.cache.insert key (.live ⟨s.records.size⟩)).get? key
      = some (.live ⟨s.records.size⟩) := (Table.get?_insert _ _ _ _).trans (if_pos rfl)
  rw [h.store]
  refine ⟨fun i r hr => ?_, fun other id hslot => ?_, fun other hslot => ?_⟩
  · rcases getElem?_pushed.mp hr with hr | ⟨rfl, rfl⟩
    · exact hs.record_of_slot hr (hold (hs.key_ne (.inr hkey) hr))
    · exact .inl ⟨hnew, rfl, nofun⟩
  · by_cases hother : other = key
    · subst hother
      cases hnew.symm.trans hslot
      exact ⟨_, getElem?_pushed.mpr (.inr ⟨rfl, rfl⟩), rfl⟩
    · obtain ⟨r, hr, hrkey⟩ := hs.live other id ((hold hother).symm.trans hslot)
      exact ⟨r, getElem?_pushed.mpr (.inl hr), hrkey⟩
  · by_cases hother : other = key
    · subst hother
      cases hnew.symm.trans hslot
    · obtain ⟨i, r, hr, hrkey⟩ := hs.cleared other ((hold hother).symm.trans hslot)
      exact ⟨i, r, getElem?_pushed.mpr (.inl hr), hrkey⟩

/-! ### Departures -/

/-- No other record has the key of a live one, because the key denotes that one. -/
theorem Coherent.others_key (h : s.Coherent w left) {id : RecordId}
    (hslot : s.cache.get? key = some (.live id)) {i : Nat} {r : Record}
    (hr : s.records[i]? = some r) (hne : id.index ≠ i) : r.key ≠ key := by
  rintro rfl
  rcases h.record i r hr with hlive | hretired
  · cases hslot.symm.trans hlive.slot
    exact hne rfl
  · cases hslot.symm.trans hretired.slot

/-- A record that is live is shut, and its key cleared, when the walk has left its node. -/
theorem Coherent.retire (h : s.Coherent w left) {id : RecordId} {r : Record}
    (hr : s.records[id.index]? = some r) (hopen : r.state ≠ .closed) (hscope : r.scope = some node)
    (hdeclares : w.program.isDeclarationFile (w.program.fileOf node) = false) (hleft : left node) :
    Coherent w left { s with records := s.records.modify id.index Record.shut
                             cache := s.cache.insert r.key .cleared } := by
  have hslot : s.cache.get? r.key = some (.live id) :=
    ((h.record id.index r hr).resolve_right fun hretired => hopen hretired.state).slot
  have hcleared : (s.cache.insert r.key .cleared).get? r.key = some .cleared :=
    (Table.get?_insert _ _ _ _).trans (if_pos rfl)
  have hkept {i : Nat} {r' : Record} (hr' : s.records[i]? = some r') :
      ∃ r'', (s.records.modify id.index Record.shut)[i]? = some r'' ∧ r''.key = r'.key := by
    rw [Array.getElem?_modify]
    split
    · exact ⟨r'.shut, by rw [hr']; rfl, rfl⟩
    · exact ⟨r', hr', rfl⟩
  -- The record that retires is the one its key names, so clearing the key touches no other.
  refine ⟨fun i r' hr' => ?_, fun key id' hlive => ?_, fun key hslot' => ?_⟩
  · dsimp only at hr'
    rw [Array.getElem?_modify] at hr'
    split at hr'
    · rename_i hi
      subst hi
      rw [hr] at hr'
      cases hr'
      exact .inr ⟨hcleared, rfl, rfl, node, hscope, hleft, hdeclares⟩
    · rename_i hi
      exact h.record_of_slot hr' (get?_insert_of_ne _ _ (h.others_key hslot hr' hi))
  · have hne : key ≠ r.key := by
      rintro rfl
      cases hcleared.symm.trans hlive
    obtain ⟨r', hr', hkey⟩ := h.live key id' ((get?_insert_of_ne _ key hne).symm.trans hlive)
    obtain ⟨r'', hr'', hsame⟩ := hkept hr'
    exact ⟨r'', hr'', hsame.trans hkey⟩
  · by_cases hkey : key = r.key
    · obtain ⟨r'', hr'', hsame⟩ := hkept hr
      exact ⟨id.index, r'', hr'', hsame.trans hkey.symm⟩
    · obtain ⟨i, r', hr', hkey'⟩ :=
        h.cleared key ((get?_insert_of_ne _ key hkey).symm.trans hslot')
      obtain ⟨r'', hr'', hsame⟩ := hkept hr'
      exact ⟨i, r'', hr'', hsame.trans hkey'⟩

theorem Departs.coherent (h : Departs w (some node) s t) (hleft : left node)
    (hs : s.Coherent w left) : t.Coherent w left := by
  cases h with
  | tells => exact hs.renew rfl (.refl (fun _ => ⟨rfl, rfl, rfl, rfl, fun _ => rfl⟩) _)
  | drains hr hopen hdrains =>
      obtain ⟨_, _, _, hrecord⟩ := hdrains.record
      refine hs.renew rfl (renews_putBack hr (fun _ => ⟨rfl, rfl, rfl, rfl, fun _ => rfl⟩) ?_)
      rw [hrecord]
      exact ⟨rfl, rfl, rfl, rfl, fun hclosed => absurd hclosed hopen⟩
  | retires hnode hr hopen hscope hdeclares =>
      cases hnode
      exact hs.retire hr hopen hscope hdeclares hleft
  | closes hnone => cases hnone
  | edits hnone => cases hnone

theorem Departed.coherent (h : Departed w (some node) s t) (hleft : left node)
    (hs : s.Coherent w left) : t.Coherent w left := by
  induction h with
  | refl => exact hs
  | tail _ hstep ih => exact hstep.coherent hleft ih

theorem Departed.reliable {leaving : Option NodeId} (h : Departed w leaving s t)
    (hs : s.graph.sink.IsReliable) : t.graph.sink.IsReliable := by
  induction h with
  | refl => exact hs
  | tail _ hstep ih =>
      cases hstep with
      | drains _ _ hdrains => exact hdrains.graph.reliable ih
      | edits _ hedits => exact hedits.reliable ih
      | _ => exact ih

theorem coherent_fresh {graph : Graph} {project : Project} : Coherent w left { graph, project } := by
  refine ⟨fun i r hr => ?_, nofun, nofun⟩
  simp at hr

end Store

namespace Run

open SymbolGraph.Session

variable {w : Setting}

/-- One operation, over a sink that takes everything. -/
theorem coherent_step {past : List Milestone} {mark : Option Milestone} {s t : Session}
    (h : Turns w mark s t) (hmark : mark ≠ some .project) (hsink : s.store.graph.sink.IsReliable)
    (hs : s.store.Coherent w fun node => .node node ∈ past) :
    t.store.graph.sink.IsReliable ∧
      t.store.Coherent w fun node => .node node ∈ past ++ mark.toList := by
  have hpast : s.store.Coherent w fun node => .node node ∈ past ++ mark.toList :=
    hs.mono fun _ hnode => List.mem_append_left _ hnode
  cases h with
  -- Emission alone leaves the cache as it is; a reservation changes one slot, and so does its
  -- withdrawal.
  | edits hedited => exact ⟨hedited.reliable hsink, hedited.coherent hpast⟩
  | reserves hunknown =>
      refine ⟨hsink, hpast.recache (.inl hunknown) (fun other hne => ?_) (.inr ?_)⟩
      · exact Store.get?_insert_of_ne _ other hne
      · exact (Table.get?_insert _ _ _ _).trans (if_pos rfl)
  | abandons hreserved =>
      refine ⟨hsink, hpast.recache (.inr hreserved) (fun other hne => ?_) (.inl ?_)⟩
      · exact Store.get?_erase_of_ne other hne
      · exact (Table.get?_erase _ _ _).trans (if_pos rfl)
  | admits hreserved hadmits hedited =>
      have hadmitted := hadmits.coherent hreserved hpast
      exact ⟨hedited.reliable (hadmits.graph.reliable hsink), hedited.coherent hadmitted⟩
  | refuses _ hrefuses => exact absurd hsink hrefuses.faulty
  | arrives => exact ⟨hsink, hpast⟩
  | leaves hdeparted =>
      exact ⟨hdeparted.reliable hsink, hdeparted.coherent (by simp) hpast⟩
  | ends hedited => exact ⟨hedited.reliable hsink, hedited.coherent hpast⟩
  | concludes => exact absurd rfl hmark

/-- **The life cycle of a record.**  At every stop of a run over a sink that takes everything, until
the project ends, each record is live or was retired when the walk left its node, and each live or
cleared key denotes a record.  The stops are those of a plan that does what the run does
(`Session.Plan.run_walkAll`) and ends where it ends (`Run.index_mem_stops`). -/
theorem coherent_throughout {sink : Sink} (hsink : sink.IsReliable) {past : List Milestone}
    {s : Session} (hstop : (past, s) ∈ stops w sink) (hbefore : .project ∉ past) :
    s.store.Coherent w fun node => .node node ∈ past := by
  refine (stops_keep (fun past s => .project ∉ past → s.store.graph.sink.IsReliable ∧
    s.store.Coherent w fun node => .node node ∈ past) (fun graph project hgrows _ => ?_)
    (fun past mark s t hturns hs hnot => ?_) _ hstop hbefore).2
  · exact ⟨hgrows.reliable hsink, Store.coherent_fresh⟩
  · obtain ⟨hreliable, hcoherent⟩ := hs fun hmem => hnot (List.mem_append_left _ hmem)
    refine coherent_step hturns (fun hproject => hnot ?_) hreliable hcoherent
    simp [hproject]

/-- A file that mentions a function, and a variable that is local to a block of it. -/
def inBlock : Setting := plain
  [.file ⟨"/p/a.ts"⟩ "f \x7b let x \x7d", .nodeAt ⟨0⟩ .block "\x7b let x \x7d" 0,
   .declaration ⟨1⟩ .variableDeclaration "x" "x", .symbol "x" .blockScopedVariable,
   .declare ⟨0⟩ ⟨2⟩, .symbol "f" .function, .identifier ⟨0⟩ "f" 0 ⟨1⟩]

/-- When the walk has left the block, the record of the variable was retired, and the record of the
function is live. -/
theorem inBlock_coherent : ∃ past s, (past, s) ∈ stops inBlock .inMemory ∧ .project ∉ past ∧
    (∃ r, s.store.records[0]? = some r ∧ s.store.IsLive ⟨0⟩ r) ∧
    ∃ r, s.store.records[1]? = some r ∧ s.store.IsRetired inBlock (fun node => .node node ∈ past) r ∧
      r.scope = some ⟨1⟩ := by
  have hrun : (stops inBlock .inMemory).any (fun stop => .project ∉ stop.1 ∧
      stop.2.store.records[0]?.any (fun r => r.state = .opened) ∧
      stop.2.store.records[1]?.any fun r => r.state = .closed ∧ r.scope = some ⟨1⟩) = true := by
    decide +kernel
  obtain ⟨⟨past, s⟩, hstop, hrun⟩ := List.any_eq_true.mp hrun
  obtain ⟨hbefore, hfunction, hvariable⟩ := of_decide_eq_true hrun
  obtain ⟨f, hf, hopen⟩ := (Option.any_eq_true _ _).mp hfunction
  obtain ⟨x, hx, hclosed⟩ := (Option.any_eq_true _ _).mp hvariable
  obtain ⟨hclosed, hscope⟩ := of_decide_eq_true hclosed
  have hreliable : Sink.inMemory.IsReliable := fun _ => rfl
  have hcoherent := coherent_throughout hreliable hstop hbefore
  refine ⟨past, s, hstop, hbefore, ⟨f, hf, ?_⟩, x, hx, ?_, hscope⟩
  · refine (hcoherent.record 0 f hf).resolve_right fun hretired => ?_
    cases (of_decide_eq_true hopen).symm.trans hretired.state
  · refine (hcoherent.record 1 x hx).resolve_left fun hlive => ?_
    cases hclosed.symm.trans hlive.state

end Run

end SymbolGraph
