import SymbolGraph.Proofs.Record.Scribing

/-!
# Proofs — Record — the labels of results

An edge may leave a vertex only if the label of the vertex allows it, and the label is read off a
handle that was stored when the vertex was made.  As long as every stored handle carries the right
label, no edge is refused for its source, whichever elements the sink refuses.

* `Fault.IsOrdinary`: the faults that are left.
* `Record.Labelled`: the results of a record carry their labels.
* `Ledger.Labels`: an action on a ledger that keeps labels and only has ordinary faults.
* `Ledger.close_labels`, `Ledger.endPartition_labels`: so do the ends of a record and a partition.
-/

namespace SymbolGraph

open SymbolGraph.Action SymbolGraph.Discipline

/-- Faults that can be met at any time: something has ended, has not begun or is not there, or the
sink refused an element. -/
def Fault.IsOrdinary : Fault → Prop
  | .recordClosed _ | .documentCleared _ | .partitionCleared _ _ | .unknownRecord _ | .sink _ => True
  | _ => False

/-- The fault of a document that ends with containers open, or has none to close. -/
def Fault.IsUnbalanced : Fault → Prop
  | .unbalancedContainers _ => True
  | _ => False

namespace Graph

theorem OfSink.isOrdinary {fault : Fault} (h : OfSink fault) : fault.IsOrdinary := by
  obtain ⟨reason, rfl⟩ := h
  trivial

theorem deliver_faults (e : Element) (g : Graph) :
    Ensures (deliver e) g (fun _ _ => True) fun fault _ => OfSink fault := by
  unfold Ensures deliver
  cases Sink.emit e g.sink with
  | ok a sink => trivial
  | error fault sink => exact ⟨fault, rfl⟩

/-- A vertex is given its label, unless the sink refuses it. -/
theorem vertex_labels (v : Vertex) (g : Graph) :
    Ensures (vertex v) g (fun ref _ => ref.label = v.label) fun fault _ => OfSink fault := by
  unfold vertex freshId
  simp only [ensures_bind, ensures_modify, ensures_get, ensures_pure]
  exact (deliver_faults _ _).mono (fun _ _ _ => trivial) fun _ _ h => h

theorem edge_faults (e : Edge) (g : Graph) :
    Ensures (edge e) g (fun _ _ => True) fun fault _ => OfSink fault := by
  unfold edge freshId
  simp only [ensures_bind, ensures_modify, ensures_get, ensures_pure]
  exact (deliver_faults _ _).mono (fun _ _ _ => trivial) fun _ _ h => h

/-- What a project or a document contains can be said. -/
theorem contains_faults {source : VertexRef} (h : source.label = .project ∨ source.label = .document)
    (targets : List ElementId) (g : Graph) :
    Ensures (contains source targets) g (fun _ _ => True) fun fault _ => OfSink fault := by
  have hedge : Edge.containing source targets = some (.contains source.id targets) := by
    unfold Edge.containing
    rcases h with h | h <;> rw [h]
  unfold contains
  rw [hedge]
  exact edge_faults _ g

/-- What a result lists can be said. -/
theorem item_faults {source : VertexRef}
    (h : source.label = .definitionResult ∨ source.label = .referenceResult)
    (targets : List ElementId) (document : ElementId) (property : ItemProperty) (g : Graph) :
    Ensures (item source targets document property) g (fun _ _ => True)
      fun fault _ => OfSink fault := by
  have hedge : ∃ e, Edge.listing source targets document property = some e := by
    unfold Edge.listing
    rcases h with h | h <;> rw [h] <;> exact ⟨_, rfl⟩
  obtain ⟨e, he⟩ := hedge
  unfold item
  rw [he]
  exact edge_faults e g

theorem flush_faults (g : Graph) :
    Ensures flush g (fun _ _ => True) fun fault _ => OfSink fault := by
  unfold Ensures flush
  cases Sink.flush g.sink with
  | ok a sink => trivial
  | error fault sink => exact ⟨fault, rfl⟩

end Graph

/-- The results of a record carry their labels. -/
structure Record.Labelled (r : Record) : Prop where
  definition : ∀ v, r.definitionResult = some v → v.label = .definitionResult
  reference  : ∀ v, r.referenceResult = some v → v.label = .referenceResult

namespace Ledger

variable {α β : Type} {l : Ledger}

/-- The record is who it was, and its results carry their labels. -/
structure Upkeeps (l l' : Ledger) : Prop where
  endures  : l.record.Endures l'.record
  labelled : l'.record.Labelled

/-- From a record with the right labels an action keeps them and only has ordinary faults. -/
def labelling : Discipline Ledger Fault where
  ready l := l.record.Labelled
  steps := Upkeeps
  blames l fault l' := fault.IsOrdinary ∧ l.Upkeeps l'
  refl h := ⟨.refl _, h⟩
  trans h h' := ⟨h.endures.trans h'.endures, h'.labelled⟩
  keeps _ h := h.labelled
  carries h h' := ⟨h'.1, h.endures.trans h'.2.endures, h'.2.labelled⟩

/-- An action that keeps labels, with ordinary faults. -/
abbrev Labels (act : Writing α) (l : Ledger) (post : α → Ledger → Prop) : Prop :=
  labelling.Follows act l post

theorem labels_change {f : Record → Record} (hendures : l.record.Endures (f l.record))
    (hlabelled : l.record.Labelled → (f l.record).Labelled) :
    Labels (change f) l fun _ l' => l'.record = f l.record :=
  fun h => ensures_modify.mpr ⟨⟨hendures, hlabelled h⟩, rfl⟩

theorem labels_emission {act : Emission α} {post : α → Prop}
    (h : Ensures act l.graph (fun a _ => post a) fun fault _ => Graph.OfSink fault) :
    Labels (liftM act) l fun a l' => l'.record = l.record ∧ post a :=
  fun hl => ensures_onPart.mpr (h.mono (fun _ _ ha => ⟨⟨.refl _, hl⟩, rfl, ha⟩)
    fun _ _ hfault => ⟨hfault.isOrdinary, .refl _, hl⟩)

theorem labels_link {kind : LinkKind} {source target : ElementId} :
    Labels (discard (Graph.link kind source target) : Writing Unit) l
      fun _ l' => l'.record = l.record :=
  ((labels_emission (Graph.edge_faults _ _)).mono fun _ _ h => h.1).discard

theorem resultSet_labels : Labels resultSet l fun _ l' => l' = l := by
  refine follows_get ?_
  unfold Record.begunResultSet
  cases l.record.resultSet with
  | some hub => exact follows_pure rfl
  | none => exact fun h => ensures_throw.mpr ⟨trivial, .refl _, h⟩

/-- A result is made when first needed. -/
theorem newResult_labels {v : Vertex} {kind : LinkKind} {note : VertexRef → Record → Record}
    (hendures : ∀ (result : VertexRef) (r : Record), r.Endures (note result r))
    (hlabelled : ∀ (result : VertexRef) (r : Record), result.label = v.label → r.Labelled →
      (note result r).Labelled) :
    Labels (newResult v kind note) l fun result _ => result.label = v.label := by
  refine resultSet_labels.bind fun hub l₁ _ _ _ => ?_
  refine (labels_emission (Graph.vertex_labels v _)).bind fun result l₂ _ _ hresult => ?_
  refine labels_link.bind fun _ l₃ _ _ _ => ?_
  exact (labels_change (hendures result _) (hlabelled result _ hresult.2)).bind
    fun _ _ _ _ _ => follows_pure hresult.2

theorem referenceResult_labels : Labels referenceResult l fun result _ =>
    result.label = .referenceResult := by
  refine follows_get ?_
  cases hresult : l.record.referenceResult with
  | some result => exact fun h => ensures_pure.mpr ⟨⟨.refl _, h⟩, h.reference result hresult⟩
  | none =>
      refine newResult_labels (fun _ _ => ⟨rfl, rfl, rfl, fun _ h => h⟩) fun result r hlabel hr => ?_
      exact ⟨hr.definition, fun v hv => Option.some.inj hv ▸ hlabel⟩

theorem definitionResult_labels : Labels definitionResult l fun result _ =>
    result.label = .definitionResult := by
  refine follows_get ?_
  cases hresult : l.record.definitionResult with
  | some result => exact fun h => ensures_pure.mpr ⟨⟨.refl _, h⟩, h.definition result hresult⟩
  | none =>
      refine newResult_labels (fun _ _ => ⟨rfl, rfl, rfl, fun _ h => h⟩) fun result r hlabel hr => ?_
      exact ⟨fun v hv => Option.some.inj hv ▸ hlabel, hr.reference⟩

/-- A result lists something. -/
theorem item_labels {result : VertexRef}
    (h : result.label = .definitionResult ∨ result.label = .referenceResult)
    {targets : List ElementId} {document : ElementId} {property : ItemProperty} :
    Labels (discard (Graph.item result targets document property) : Writing Unit) l
      fun _ _ => True :=
  ((labels_emission (Graph.item_faults h _ _ _ _)).mono fun _ _ _ => trivial).discard

/-- The references of a partition are listed. -/
theorem listReferences_labels (partition : Partition) :
    Labels (listReferences partition) l fun _ _ => True := by
  unfold listReferences
  split
  · refine referenceResult_labels.bind fun result l₁ _ _ hresult => ?_
    refine .forM (fun _ => True) _ (fun entry _ l₂ _ => ?_) trivial
    unfold listEntry
    split
    · exact follows_pure trivial
    · exact item_labels (.inr hresult)
  · exact follows_pure trivial

theorem flush_labels (partition : Partition) : Labels (flush partition) l fun _ _ => True := by
  unfold flush
  dsimp only
  split
  · exact listReferences_labels partition
  · refine definitionResult_labels.bind fun result l₁ _ _ hresult => ?_
    exact (item_labels (.inl hresult)).bind fun _ _ _ _ _ => listReferences_labels partition

/-- **The partition of a file ends.** -/
theorem endPartition_labels (file : FileId) : Labels (endPartition file) l fun _ _ => True := by
  refine follows_get ?_
  split
  · refine (labels_change ⟨rfl, rfl, rfl, fun _ h => h⟩ fun h => ⟨h.definition, h.reference⟩).bind
      fun _ _ _ _ _ => ?_
    exact flush_labels _
  · exact follows_pure trivial

/-- **A record is closed.** -/
theorem close_labels : Labels close l fun _ _ => True := by
  refine follows_get ?_
  dsimp only
  split
  · exact follows_pure trivial
  · refine (Follows.forM (fun _ => True) _ (fun file _ _ _ => endPartition_labels file) trivial).bind
      fun _ l₁ _ _ _ => ?_
    exact (labels_change ⟨rfl, rfl, rfl, fun _ h => h⟩
      fun h => ⟨h.definition, h.reference⟩).mono fun _ _ _ => trivial

/-- **A record that is not yet open is opened.** -/
theorem begin_labels (hstate : l.record.state = .unopened) (hhub : l.record.resultSet = none) :
    Labels begin l fun _ _ => True := by
  refine follows_get ?_
  dsimp only
  rw [if_neg (not_not.mpr hstate)]
  refine (labels_emission (Graph.vertex_labels .resultSet _)).bind fun hub l₁ _ _ h₁ => ?_
  refine (labels_change ⟨rfl, rfl, rfl, fun v hv => ?_⟩ fun h => ⟨h.definition, h.reference⟩).bind
    fun _ _ _ _ _ => follows_pure trivial
  rw [h₁.1, hhub] at hv
  cases hv

end Ledger

end SymbolGraph
