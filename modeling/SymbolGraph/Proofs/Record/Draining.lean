import SymbolGraph.Proofs.Record.Scribing
import SymbolGraph.Proofs.Store.Retaining

/-!
# Proofs — Record — what a record is drained of

A record writes listings for itself only: each leaves a result of its own, and a result that it is
given on the way has a new id.  Its partitions are cleared one by one, and none is added.  All this
holds over every sink and also where the sink refuses an element half way.

* `Sink.IsReliable`: a sink that takes whatever it is given.
* `Graph.Grows`: elements are added, and listings among them leave certain vertices only.
* `Ledger.Grants`: a record is given results.
* `Ledger.Drains`: partitions are cleared and listed.
* `Ledger.endPartition_drains`, `Ledger.close_drains`: the ends of a partition and of a record.
-/

namespace SymbolGraph

open SymbolGraph.Action

/-! ### Sinks -/

/-- A sink that takes whatever it is given. -/
def Sink.IsReliable : Sink → Prop
  | memory faults _ _ => ∀ call, faults call = none
  | lines limit _ _   => limit = none

/-- An element arrives as a whole or not at all; a sink that takes everything goes on to. -/
theorem Sink.emit_reliable (e : Element) (sink : Sink) :
    Ensures (Sink.emit e) sink (fun _ later => sink.IsReliable → later.IsReliable)
      fun _ _ => ¬ sink.IsReliable := by
  refine ensures_bind.mpr (ensures_get.mpr ?_)
  cases sink with
  | memory faults calls kept =>
      dsimp only
      cases hfault : faults calls with
      | none => exact fun h => h
      | some fault =>
          refine ensures_bind.mpr fun hnever => ?_
          exact nomatch hfault.symm.trans (hnever calls)
  | lines limit flushFault written =>
      cases limit with
      | none =>
          dsimp only
          rw [if_neg (by omega), if_neg (by omega)]
          exact fun h => h
      | some room =>
          dsimp only
          split
          · exact ensures_bind.mpr nofun
          · split
            · exact ensures_bind.mpr nofun
            · exact fun h => h

/-! ### Graphs -/

/-- The vertex that a listing leaves. -/
def Element.lister? : Element → Option ElementId
  | .edge _ (.item source _ _ _) => some source
  | _                            => none

namespace Graph

variable {α : Type} {sources more : ElementId → Prop} {g g' g'' : Graph}

/-- Ids are used up and elements added; a listing among them leaves one of the sources. -/
structure Grows (sources : ElementId → Prop) (g g' : Graph) : Prop where
  issued   : g.issued ≤ g'.issued
  elements : ∃ written, g'.elements = g.elements ++ written ∧
    ∀ e ∈ written, ∀ source, e.lister? = some source → sources source
  reliable : g.sink.IsReliable → g'.sink.IsReliable

theorem Grows.mono (h : Grows sources g g') (himp : ∀ id, sources id → more id) :
    Grows more g g' := by
  obtain ⟨written, helements, hsources⟩ := h.elements
  exact ⟨h.issued, ⟨written, helements, fun e he source hsource =>
    himp source (hsources e he source hsource)⟩, h.reliable⟩

instance : IsPreorder Graph (Grows sources) where
  refl g := ⟨Nat.le_refl _, ⟨[], (List.append_nil _).symm, nofun⟩, id⟩
  trans g g' g'' h h' := by
    obtain ⟨written, helements, hsources⟩ := h.elements
    obtain ⟨later, helements', hsources'⟩ := h'.elements
    refine ⟨Nat.le_trans h.issued h'.issued, ⟨written ++ later, ?_, fun e he => ?_⟩,
      fun hreliable => h'.reliable (h.reliable hreliable)⟩
    · rw [helements', helements, List.append_assoc]
    · rcases List.mem_append.mp he with he | he
      · exact hsources e he
      · exact hsources' e he

/-- No listing is written. -/
abbrev GrowsPlainly : Graph → Graph → Prop := Grows fun _ => False

theorem GrowsPlainly.grows (h : GrowsPlainly g g') : Grows sources g g' :=
  h.mono fun _ hfalse => hfalse.elim

theorem freshId_grows (g : Graph) :
    Ensures freshId g (fun id g' => GrowsPlainly g g' ∧ g'.sink = g.sink ∧
      g.issued < id.value ∧ id.value ≤ g'.issued) fun _ _ => False :=
  ⟨⟨Nat.le_succ _, ⟨[], (List.append_nil _).symm, nofun⟩, id⟩, rfl, Nat.lt_succ_self _,
    Nat.le_refl _⟩

/-- What is delivered is added; only a sink that is not reliable refuses. -/
theorem deliver_grows {e : Element} (h : ∀ source, e.lister? = some source → sources source)
    (g : Graph) : Ensures (deliver e) g (fun _ g' => Grows sources g g')
      fun _ g' => Grows sources g g' ∧ ¬ g.sink.IsReliable := by
  have harrives := Sink.emit_elements e g.sink
  have hreliable := Sink.emit_reliable e g.sink
  unfold Ensures deliver at *
  cases hrun : Sink.emit e g.sink with
  | ok a sink =>
      rw [hrun] at harrives hreliable
      rcases harrives with hmore | hsame
      · refine ⟨Nat.le_refl _, ⟨[e], hmore, fun e' he' => ?_⟩, hreliable⟩
        rw [List.mem_singleton.mp he']
        exact h
      · exact ⟨Nat.le_refl _, ⟨[], hsame.trans (List.append_nil _).symm, nofun⟩, hreliable⟩
  | error fault sink =>
      rw [hrun] at harrives hreliable
      exact ⟨⟨Nat.le_refl _, ⟨[], harrives.trans (List.append_nil _).symm, nofun⟩,
        fun hrel => absurd hrel hreliable⟩, hreliable⟩

/-- A vertex takes a new id; only a sink that is not reliable refuses it. -/
theorem vertex_grows (v : Vertex) (g : Graph) :
    Ensures (vertex v) g (fun ref g' => GrowsPlainly g g' ∧ g.issued < ref.id.value ∧
      ref.id.value ≤ g'.issued) fun _ g' => GrowsPlainly g g' ∧ ¬ g.sink.IsReliable := by
  refine ensures_bind.mpr ((freshId_grows g).mono (fun id g₁ h₁ => ?_) fun _ _ h => h.elim)
  obtain ⟨hgrows, hsink, hnew, hissued⟩ := h₁
  have hplain : ∀ source, (Element.vertex id v).lister? = some source → False := nofun
  refine ensures_bind.mpr ((deliver_grows hplain g₁).mono (fun _ g₂ h₂ => ?_) fun _ g₂ h₂ => ?_)
  · exact ensures_pure.mpr ⟨trans_of GrowsPlainly hgrows h₂, hnew, Nat.le_trans hissued h₂.issued⟩
  · exact ⟨trans_of GrowsPlainly hgrows h₂.1, hsink ▸ h₂.2⟩

theorem edge_grows {e : Edge} (h : ∀ id source, (Element.edge id e).lister? = some source →
    sources source) : Stays (Grows sources) (edge e) := by
  intro g
  refine ensures_bind.mpr ((freshId_grows g).mono (fun id g₁ h₁ => ?_) fun _ _ h => h.elim)
  have hg₁ : Grows sources g g₁ := h₁.1.grows
  refine ensures_bind.mpr ((deliver_grows (h id) g₁).mono (fun _ g₂ h₂ => ?_) fun _ g₂ h₂ => ?_)
  · exact trans_of (Grows sources) hg₁ h₂
  · exact trans_of (Grows sources) hg₁ h₂.1

theorem link_grows (kind : LinkKind) (source target : ElementId) :
    Stays GrowsPlainly (link kind source target) :=
  edge_grows nofun

theorem vertex_stays (v : Vertex) : Stays GrowsPlainly (vertex v) :=
  fun g => (vertex_grows v g).mono (fun _ _ h => h.1) fun _ _ h => h.1

theorem contains_grows (source : VertexRef) (targets : List ElementId) :
    Stays GrowsPlainly (contains source targets) := by
  unfold contains Edge.containing
  cases source.label with
  | project => exact edge_grows nofun
  | document => exact edge_grows nofun
  | _ => exact stays_throw

/-- Flushing leaves the sink as it is. -/
theorem flush_grows : Stays GrowsPlainly flush := by
  intro g
  have hsink : Ensures Sink.flush g.sink (fun _ sink => sink = g.sink) fun _ sink => sink = g.sink := by
    refine ensures_bind.mpr (ensures_get.mpr ?_)
    split
    · exact ensures_throw.mpr rfl
    · exact ensures_pure.mpr rfl
  unfold Ensures flush at *
  cases hrun : Sink.flush g.sink with
  | ok a sink =>
      rw [hrun] at hsink
      subst hsink
      exact refl_of GrowsPlainly g
  | error fault sink =>
      rw [hrun] at hsink
      subst hsink
      exact refl_of GrowsPlainly g

/-- A listing leaves the vertex that it is asked to leave. -/
theorem item_grows {source : VertexRef} (h : sources source.id) (targets : List ElementId)
    (document : ElementId) (property : ItemProperty) :
    Stays (Grows sources) (item source targets document property) := by
  have hleaves {property : Option ItemProperty} (id from? : ElementId)
      (heq : (Element.edge id (.item source.id targets document property)).lister? = some from?) :
      sources from? := Option.some.inj heq ▸ h
  unfold item Edge.listing
  cases source.label with
  | definitionResult => exact edge_grows hleaves
  | referenceResult => exact edge_grows hleaves
  | _ => exact stays_throw

end Graph

/-! ### Records and their graph -/

namespace Record

/-- One of the results of a record has this id. -/
def HasResult (r : Record) (id : ElementId) : Prop :=
  r.definitionResult.map VertexRef.id = some id ∨ r.referenceResult.map VertexRef.id = some id

/-- The record closed, without partitions and coordinates. -/
def shut (r : Record) : Record :=
  { r with state := .closed, partitions := ∅, definitionInfos := [] }

/-- A partition is open for a file. -/
def OpenFor (r : Record) (file : FileId) : Prop :=
  ∃ partition, r.partitions.get? file = some (.live partition)

end Record

namespace Ledger

variable {α : Type} {l l' l'' : Ledger}

/-- Results stay, and those that are added have new ids. -/
structure Enriches (l l' : Ledger) : Prop where
  kept  : ∀ id, l.record.HasResult id → l'.record.HasResult id
  fresh : ∀ id, l'.record.HasResult id →
    l.record.HasResult id ∨ l.graph.issued < id.value ∧ id.value ≤ l'.graph.issued

theorem Enriches.trans (h : l.Enriches l') (h' : l'.Enriches l'')
    (hissued : l.graph.issued ≤ l'.graph.issued) (hissued' : l'.graph.issued ≤ l''.graph.issued) :
    l.Enriches l'' where
  kept id hid := h'.kept id (h.kept id hid)
  fresh id hid := by
    rcases h'.fresh id hid with hid | hid
    · exact (h.fresh id hid).imp_right fun hid => ⟨hid.1, Nat.le_trans hid.2 hissued'⟩
    · exact .inr ⟨Nat.lt_of_le_of_lt hissued hid.1, hid.2⟩

/-- A record is given results, and nothing is listed. -/
structure Grants (l l' : Ledger) : Prop extends Enriches l l' where
  record : l.record.Fills l'.record
  graph  : l.graph.GrowsPlainly l'.graph

instance : IsPreorder Ledger Grants where
  refl _ := ⟨⟨fun _ h => h, fun _ h => .inl h⟩, .refl _, refl_of _ _⟩
  trans _ _ _ h h' := ⟨h.toEnriches.trans h'.toEnriches h.graph.issued h'.graph.issued,
    h.record.trans h'.record, trans_of _ h.graph h'.graph⟩

/-- Partitions are cleared and none is added, and every listing leaves a result of the record. -/
structure Drains (l l' : Ledger) : Prop extends Enriches l l' where
  record : ∃ definitionResult referenceResult partitions,
    l'.record = { l.record with definitionResult, referenceResult, partitions }
  known  : ∀ file, l'.record.partitions.get? file ≠ none → l.record.partitions.get? file ≠ none
  live   : ∀ file, l'.record.OpenFor file → l.record.OpenFor file
  graph  : l.graph.Grows l'.record.HasResult l'.graph

instance : IsPreorder Ledger Drains where
  refl l := ⟨⟨fun _ h => h, fun _ h => .inl h⟩, ⟨_, _, _, rfl⟩, fun _ h => h, fun _ h => h,
    refl_of _ _⟩
  trans l l' l'' h h' := by
    refine ⟨h.toEnriches.trans h'.toEnriches h.graph.issued h'.graph.issued, ?_,
      fun file hk => h.known file (h'.known file hk), fun file ho => h.live file (h'.live file ho),
      trans_of _ (h.graph.mono h'.kept) h'.graph⟩
    obtain ⟨_, _, _, hrecord⟩ := h.record
    obtain ⟨_, _, _, hrecord'⟩ := h'.record
    rw [hrecord', hrecord]
    exact ⟨_, _, _, rfl⟩

theorem Grants.drains (h : l.Grants l') : l.Drains l' := by
  obtain ⟨_, _, hrecord⟩ := h.record
  refine ⟨h.toEnriches, ⟨_, _, l.record.partitions, hrecord⟩, fun file => ?_, fun file => ?_,
    h.graph.mono fun _ hfalse => hfalse.elim⟩
  · rw [hrecord]
    exact id
  · rw [hrecord]
    exact id

/-- Draining does not close. -/
theorem Drains.not_closed (h : l.Drains l') (hl : l.record.state ≠ .closed) :
    l'.record.state ≠ .closed := by
  obtain ⟨_, _, _, hrecord⟩ := h.record
  rw [hrecord]
  exact hl

/-! ### Results -/

/-- A result is made when first needed: a vertex with a new id, an edge that leads to it, and a note
in the record. -/
theorem newResult_grants {v : Vertex} {kind : LinkKind} {note : VertexRef → Record → Record}
    {r : Record}
    (hfills : ∀ (result : VertexRef) (r : Record), r.Fills (note result r))
    (hgiven : ∀ result id, (note result r).HasResult id ↔ r.HasResult id ∨ id = result.id)
    (hl : l.record = r) : Ensures (newResult v kind note) l
      (fun result l' => l.Grants l' ∧ l'.record.HasResult result.id) fun _ l' => l.Grants l' := by
  refine ensures_bind.mpr ?_
  unfold resultSet Record.begunResultSet
  refine ensures_bind.mpr (ensures_get.mpr ?_)
  cases l.record.resultSet with
  | none => exact refl_of Grants l
  | some hub =>
      refine ensures_bind.mpr (ensures_onPart.mpr ((Graph.vertex_grows v l.graph).mono
        (fun result g₁ h₁ => ?_) fun _ g₁ h₁ => ?_))
      · obtain ⟨hgrows, hnew, hissued⟩ := h₁
        refine ensures_bind.mpr (ensures_discard.mpr (ensures_onPart.mpr
          ((Graph.link_grows kind hub.id result.id g₁).mono (fun _ g₂ h₂ => ?_) fun _ g₂ h₂ => ?_)))
        · refine ensures_bind.mpr (ensures_modify.mpr (ensures_pure.mpr ?_))
          -- The result is noted under its own heading, and the graph has grown by the two elements.
          have hgraph := trans_of Graph.GrowsPlainly hgrows h₂
          subst hl
          refine ⟨⟨⟨fun id hid => (hgiven result id).mpr (.inl hid), fun id hid => ?_⟩,
            hfills result l.record, hgraph⟩, (hgiven result _).mpr (.inr rfl)⟩
          rcases (hgiven result id).mp hid with hid | rfl
          · exact .inl hid
          · exact .inr ⟨hnew, Nat.le_trans hissued h₂.issued⟩
        · exact ⟨⟨fun _ h => h, fun _ h => .inl h⟩, .refl _, trans_of _ hgrows h₂⟩
      · exact ⟨⟨fun _ h => h, fun _ h => .inl h⟩, .refl _, h₁.1⟩

theorem referenceResult_grants (l : Ledger) : Ensures referenceResult l
    (fun result l' => l.Grants l' ∧ l'.record.HasResult result.id) fun _ l' => l.Grants l' := by
  refine ensures_bind.mpr (ensures_get.mpr ?_)
  cases hresult : l.record.referenceResult with
  | some result =>
      exact ensures_pure.mpr ⟨refl_of Grants l, .inr (by rw [hresult]; rfl)⟩
  | none =>
      refine newResult_grants (fun _ _ => ⟨_, _, rfl⟩) (fun result id => ?_) rfl
      unfold Record.HasResult
      rw [hresult]
      simp only [Option.map_some, Option.some.injEq, Option.map_none, reduceCtorEq, or_false]
      exact or_congr Iff.rfl eq_comm

theorem definitionResult_grants (l : Ledger) : Ensures definitionResult l
    (fun result l' => l.Grants l' ∧ l'.record.HasResult result.id) fun _ l' => l.Grants l' := by
  refine ensures_bind.mpr (ensures_get.mpr ?_)
  cases hresult : l.record.definitionResult with
  | some result =>
      exact ensures_pure.mpr ⟨refl_of Grants l, .inl (by rw [hresult]; rfl)⟩
  | none =>
      refine newResult_grants (fun _ _ => ⟨_, _, rfl⟩) (fun result id => ?_) rfl
      unfold Record.HasResult
      rw [hresult]
      simp only [Option.map_some, Option.some.injEq, Option.map_none, reduceCtorEq, false_or]
      exact or_comm.trans (or_congr Iff.rfl eq_comm)

/-! ### Partitions -/

/-- A listing leaves a result that the record has. -/
theorem item_drains {result : VertexRef} (h : l.record.HasResult result.id)
    (targets : List ElementId) (document : ElementId) (property : ItemProperty) :
    Ensures (discard (Graph.item result targets document property) : Writing Unit) l
      (fun _ l' => l.Drains l' ∧ l'.record = l.record) fun _ l' => l.Drains l' := by
  refine ensures_discard.mpr (ensures_onPart.mpr ((Graph.item_grows h targets document property
    l.graph).mono (fun _ g hg => ?_) fun _ g hg => ?_))
  · exact ⟨⟨⟨fun _ h => h, fun _ h => .inl h⟩, ⟨_, _, _, rfl⟩, fun _ h => h, fun _ h => h, hg⟩, rfl⟩
  · exact ⟨⟨fun _ h => h, fun _ h => .inl h⟩, ⟨_, _, _, rfl⟩, fun _ h => h, fun _ h => h, hg⟩

/-- The references of a partition are listed, entry by entry. -/
theorem listReferences_drains (partition : Partition) :
    Stays Drains (listReferences partition) := by
  intro l
  unfold listReferences
  split
  · refine ensures_bind.mpr ((referenceResult_grants l).mono (fun result l₁ h₁ => ?_)
      fun _ _ h => h.drains)
    -- The result stays with the record from round to round.
    refine (Ensures.forM (fun _ l₂ => l.Drains l₂ ∧ l₂.record.HasResult result.id)
      (fun entry _ l₂ h₂ => ?_) ⟨h₁.1.drains, h₁.2⟩).mono (fun _ _ h => h.1) fun _ _ h => h
    unfold listEntry
    split
    · exact ensures_pure.mpr h₂
    · refine (item_drains h₂.2 _ _ _).mono (fun _ l₃ h₃ => ?_) fun _ l₃ h₃ => ?_
      · exact ⟨trans_of Drains h₂.1 h₃.1, h₃.2 ▸ h₂.2⟩
      · exact trans_of Drains h₂.1 h₃
  · exact stays_pure l

theorem flush_drains (partition : Partition) : Stays Drains (flush partition) := by
  intro l
  unfold flush
  dsimp only
  split
  · exact listReferences_drains partition l
  · refine ensures_bind.mpr ((definitionResult_grants l).mono (fun result l₁ h₁ => ?_)
      fun _ _ h => h.drains)
    refine ensures_bind.mpr ((item_drains h₁.2 _ _ _).mono (fun _ l₂ h₂ => ?_) fun _ l₂ h₂ => ?_)
    · have hl₂ := trans_of Drains h₁.1.drains h₂.1
      exact (listReferences_drains partition l₂).mono (fun _ _ h => trans_of Drains hl₂ h)
        fun _ _ h => trans_of Drains hl₂ h
    · exact trans_of Drains h₁.1.drains h₂

/-- The partition of a file is cleared before anything is listed. -/
theorem drains_cleared {file : FileId} {partition : Partition}
    (h : l.record.partitions.get? file = some (.live partition)) : l.Drains
      { l with record := { l.record with partitions := l.record.partitions.insert file .cleared } } := by
  refine ⟨⟨fun _ h => h, fun _ h => .inl h⟩, ⟨_, _, _, rfl⟩, fun file' hk => ?_,
    fun file' ⟨p, hp⟩ => ?_, refl_of _ _⟩
  · by_cases heq : file' = file
    · rw [heq, h]
      nofun
    · change (l.record.partitions.insert file .cleared).get? file' ≠ none at hk
      rwa [Table.get?_insert, if_neg heq] at hk
  · change (l.record.partitions.insert file .cleared).get? file' = _ at hp
    rw [Table.get?_insert] at hp
    split at hp
    · cases hp
    · exact ⟨p, hp⟩

/-- **The partition of a file ends**: it is not open any more, unless the record was not even asked
to end it. -/
theorem endPartition_drains (file : FileId) (l : Ledger) : Ensures (endPartition file) l
    (fun _ l' => l.Drains l' ∧ ¬ l'.record.OpenFor file) fun _ l' => l.Drains l' := by
  refine ensures_bind.mpr (ensures_get.mpr ?_)
  split
  · rename_i partition hlive
    refine ensures_bind.mpr (ensures_modify.mpr ?_)
    have hcleared := drains_cleared hlive
    refine (flush_drains partition _).mono (fun _ l₂ h₂ => ⟨trans_of Drains hcleared h₂, ?_⟩)
      fun _ l₂ h₂ => trans_of Drains hcleared h₂
    intro hopen
    obtain ⟨p, hp⟩ := h₂.live file hopen
    change (l.record.partitions.insert file .cleared).get? file = _ at hp
    rw [Table.get?_insert, if_pos rfl] at hp
    cases hp
  · rename_i hnot
    exact ensures_pure.mpr ⟨refl_of Drains l, fun ⟨p, hp⟩ => hnot p hp⟩

/-- **A record that is not closed is drained and then shut**, or drained in part. -/
theorem close_drains (h : l.record.state ≠ .closed) : Ensures close l
    (fun _ l' => ∃ drained, l.Drains drained ∧ l' = { drained with record := drained.record.shut })
    fun _ l' => l.Drains l' := by
  refine ensures_bind.mpr (ensures_get.mpr ?_)
  dsimp only
  rw [if_neg h]
  refine ensures_bind.mpr (Ensures.mono (Stays.forM (fun file _ => ?_) l) (fun _ l₁ h₁ => ?_)
    fun _ _ h => h)
  · exact fun l₁ => (endPartition_drains file l₁).mono (fun _ _ h => h.1) fun _ _ h => h
  · exact ensures_modify.mpr ⟨l₁, h₁, rfl⟩

/-- A new record is opened, unless the sink refuses its result set. -/
theorem begin_grows (h : l.record.state = .unopened) : Ensures begin l
    (fun hub l' => l.graph.GrowsPlainly l'.graph ∧
      l'.record = { l.record with resultSet := some hub, state := .opened })
    fun _ l' => l.graph.GrowsPlainly l'.graph ∧ l'.record = l.record ∧
      ¬ l.graph.sink.IsReliable := by
  refine ensures_bind.mpr (ensures_get.mpr ?_)
  dsimp only
  rw [if_neg (not_not.mpr h)]
  refine ensures_bind.mpr (ensures_onPart.mpr ((Graph.vertex_grows .resultSet l.graph).mono
    (fun hub g hg => ?_) fun _ g hg => ⟨hg.1, rfl, hg.2⟩))
  exact ensures_bind.mpr (ensures_modify.mpr (ensures_pure.mpr ⟨hg.1, rfl⟩))

end Ledger

end SymbolGraph
