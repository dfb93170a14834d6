import SymbolGraph.Proofs.Record.Entries

/-!
# Proofs — Record — writing a record loses nothing

Writing a record turns what its partitions keep into edges.  However it ends, what was delivered is
the record's own and the record stays sound; and if it ends well, the record cites and defines by
exactly what it did before.

* `Ledger.begin_does`, `Ledger.referenceResult_does`: handles are set once, to new vertices.
* `Ledger.flush_does`: what a partition held is listed, and nothing else is.
* `Ledger.endPartition_does`, `Ledger.close_does`: clearing a partition and closing a record keep
  the books.
-/

namespace SymbolGraph

/-- A fault other than the one for a symbol that needs itself. -/
def Fault.IsPlain (fault : Fault) : Prop := ∀ key, fault ≠ .cyclicResolution key

namespace Ledger

open SymbolGraph.Action

/-- The graph and the record of a ledger are sound. -/
structure Sound (faults : Nat → Option SinkFault) (l : Ledger) : Prop where
  graph  : l.graph.Sound faults
  record : l.record.Sound l.graph.elements

/-- A later state of a record and its graph, as long as only this record is written. -/
structure Amends (faults : Nat → Option SinkFault) (l l' : Ledger) : Prop where
  sound : l'.Sound faults
  grows : l.record.Grows l.graph.elements l'.record
  wrote : ∃ written, l'.graph.elements = l.graph.elements ++ written ∧ l'.record.Wrote written

/-- What writing a record comes to, however it ends: partitions are cleared, and never made. -/
structure Writes (faults : Nat → Option SinkFault) (l l' : Ledger) : Prop
    extends Amends faults l l' where
  clears : ∀ file p, l'.record.partitions.get? file = some (.live p) →
    l.record.partitions.get? file = some (.live p)

/-- Writing that posts entries: the record then cites and defines by what it did before and by
these, and by nothing else. -/
structure Posts (faults : Nat → Option SinkFault) (l l' : Ledger)
    (cited : ItemProperty → ElementId → ElementId → Prop) (defined : ElementId → ElementId → Prop) :
    Prop where
  writes  : l.Writes faults l'
  cites   : ∀ property document id, l'.record.Cites l'.graph.elements property document id ↔
    l.record.Cites l.graph.elements property document id ∨ cited property document id
  defines : ∀ document id, l'.record.Defines l'.graph.elements document id ↔
    l.record.Defines l.graph.elements document id ∨ defined document id

/-- Writing that ends well and posts nothing.  A result that is there now was there before, or there
is something for it to list. -/
structure Settles (faults : Nat → Option SinkFault) (l l' : Ledger) : Prop where
  writes  : l.Writes faults l'
  cites   : ∀ property document id, l'.record.Cites l'.graph.elements property document id ↔
    l.record.Cites l.graph.elements property document id
  defines : ∀ document id, l'.record.Defines l'.graph.elements document id ↔
    l.record.Defines l.graph.elements document id
  cited   : l'.record.referenceResult ≠ none → l.record.referenceResult ≠ none ∨
    ∃ property document id, l.record.Cites l.graph.elements property document id
  defined : l'.record.definitionResult ≠ none → l.record.definitionResult ≠ none ∨
    ∃ document id, l.record.Defines l.graph.elements document id

variable {faults : Nat → Option SinkFault} {l l' l'' : Ledger}

namespace Writes

theorem refl (h : l.Sound faults) : l.Writes faults l :=
  ⟨⟨h, .refl _ _, [], (List.append_nil _).symm, .nil _⟩, fun _ _ hp => hp⟩

theorem leads (h : l.Writes faults l') : l.graph.elements <+: l'.graph.elements := by
  obtain ⟨written, hw, -⟩ := h.wrote
  rw [hw]
  exact List.prefix_append _ _

theorem trans (h : l.Writes faults l') (h' : l'.Writes faults l'') : l.Writes faults l'' := by
  obtain ⟨written, hw, hown⟩ := h.wrote
  obtain ⟨more, hm, hown'⟩ := h'.wrote
  refine ⟨⟨h'.sound, h.grows.trans h.leads h'.grows, written ++ more, ?_, ?_⟩,
    fun file p hp => h.clears file p (h'.clears file p hp)⟩
  · rw [hm, hw, List.append_assoc]
  · exact (hown.mono h'.grows).append hown'

instance : IsTrans Ledger (Writes faults) := ⟨fun _ _ _ h h' => h.trans h'⟩

end Writes

theorem Settles.refl (h : l.Sound faults) : l.Settles faults l :=
  ⟨.refl h, fun _ _ _ => .rfl, fun _ _ => .rfl, .inl, .inl⟩

theorem Settles.trans (h : l.Settles faults l') (h' : l'.Settles faults l'') :
    l.Settles faults l'' where
  writes := h.writes.trans h'.writes
  cites property document id := (h'.cites property document id).trans (h.cites property document id)
  defines document id := (h'.defines document id).trans (h.defines document id)
  cited hne := by
    rcases h'.cited hne with hne | ⟨property, document, id, hc⟩
    · exact h.cited hne
    · exact .inr ⟨property, document, id, (h.cites property document id).mp hc⟩
  defined hne := by
    rcases h'.defined hne with hne | ⟨document, id, hd⟩
    · exact h.defined hne
    · exact .inr ⟨document, id, (h.defines document id).mp hd⟩

/-- An action on a ledger, described by how it may fail and how it ends well. -/
abbrev Does {α : Type} (faults : Nat → Option SinkFault) (act : Writing α) (l : Ledger)
    (post : α → Ledger → Prop) : Prop :=
  Action.Does (Writes faults) Fault.IsPlain act l post

theorem does_throw {α : Type} (h : l.Sound faults) {fault : Fault} (hf : fault.IsPlain)
    {post : α → Ledger → Prop} : Does faults (throw fault) l post :=
  ensures_throw.mpr ⟨.refl h, hf⟩

theorem does_pure {α : Type} {a : α} {post : α → Ledger → Prop} (h : post a l) :
    Does faults (pure a) l post :=
  ensures_pure.mpr h

/-! ### Emission -/

theorem wrote_vertex {r : Record} {id : ElementId} {v : Vertex} (hv : v.label ≠ .range) :
    r.Wrote [.vertex id v] where
  tagged _ _ := by
    rintro ⟨span, hmem⟩
    cases List.mem_singleton.mp hmem
    exact hv rfl
  contained _ _ := by simp [Contained]
  linked _ _ _ := by simp [Linked]
  listed _ _ _ _ := by simp [Listed]

theorem refused_writes (hl : l.Sound faults) {fault : Fault} {g : Graph}
    (h : l.graph.Refused faults fault g) :
    l.Writes faults { l with graph := g } ∧ fault.IsPlain := by
  obtain ⟨hg, helements, reason, rfl⟩ := h
  refine ⟨⟨⟨⟨hg, ?_⟩, .refl _ _, [], ?_, .nil _⟩, fun _ _ hp => hp⟩, fun key => nofun⟩
  · rw [helements]
    exact hl.record
  · rw [List.append_nil]
    exact helements

/-- A vertex other than a range is the record's own writing. -/
theorem vertex_does (hl : l.Sound faults) {v : Vertex} (hv : v.label ≠ .range) :
    Does faults (liftM (Graph.vertex v)) l fun ref l' =>
      l.Writes faults l' ∧ l'.record = l.record ∧ ref.label = v.label ∧
        l'.graph.elements = l.graph.elements ++ [.vertex ref.id v] ∧
        ∀ e ∈ l.graph.elements, e.id ≠ ref.id := by
  refine ensures_onPart.mpr ((Graph.vertex_ensures hl.graph v).mono ?_
    fun _ _ h => refused_writes hl h)
  rintro ref g ⟨⟨hg, helements, hid⟩, hlabel⟩
  refine ⟨⟨⟨⟨hg, ?_⟩, .refl _ _, _, helements, wrote_vertex hv⟩, fun _ _ hp => hp⟩, rfl, hlabel,
    helements, ?_⟩
  · rw [helements]
    refine hl.record.append fun _ _ _ => ⟨?_, ?_⟩ <;> simp [Linked]
  · intro e he
    rw [show ref.id = ⟨l.graph.issued + 1⟩ from hid]
    exact hl.graph.id_ne_next he

/-- An edge of the record's own that links no result. -/
theorem edge_does (hl : l.Sound faults) {e : Edge} (he : e.RefersTo l.graph.elements)
    (hown : ∀ id, l.record.Wrote [.edge id e])
    (hlink : ∀ kind source target, e = .link kind source target →
      kind ≠ .references ∧ kind ≠ .definition) :
    Does faults (liftM (Graph.edge e)) l fun id l' =>
      l.Writes faults l' ∧ l'.record = l.record ∧
        l'.graph.elements = l.graph.elements ++ [.edge id e] := by
  refine ensures_onPart.mpr ((Graph.edge_ensures hl.graph he).mono ?_
    fun _ _ h => refused_writes hl h)
  rintro id g ⟨hg, helements, -⟩
  refine ⟨⟨⟨⟨hg, ?_⟩, .refl _ _, _, helements, hown id⟩, fun _ _ hp => hp⟩, rfl, helements⟩
  rw [helements]
  refine hl.record.append fun _ _ _ => ⟨?_, ?_⟩
  · rintro ⟨n, hmem⟩
    cases List.mem_singleton.mp hmem
    exact (hlink _ _ _ rfl).1 rfl
  · rintro ⟨n, hmem⟩
    cases List.mem_singleton.mp hmem
    exact (hlink _ _ _ rfl).2 rfl

theorem listed_singleton {n source source' document document' id : ElementId}
    {targets : List ElementId} {property property' : Option ItemProperty} :
    Listed [.edge n (.item source targets document property)] source' property' document' id ↔
      source' = source ∧ property' = property ∧ document' = document ∧ id ∈ targets := by
  constructor
  · rintro ⟨m, ids, hmem, hid⟩
    cases List.mem_singleton.mp hmem
    exact ⟨rfl, rfl, rfl, hid⟩
  · rintro ⟨rfl, rfl, rfl, hid⟩
    exact ⟨n, targets, List.mem_singleton_self _, hid⟩

theorem wrote_item {r : Record} {n source document : ElementId} {targets : List ElementId}
    {property : Option ItemProperty}
    (h : (∃ v, r.referenceResult = some v ∧ v.id = source) ∨
      ∃ v, r.definitionResult = some v ∧ v.id = source) :
    r.Wrote [.edge n (.item source targets document property)] where
  tagged _ _ := by simp [Tagged]
  contained _ _ := by simp [Contained]
  linked _ _ _ := by simp [Linked]
  listed _ _ _ _ hl := by
    obtain ⟨rfl, -⟩ := listed_singleton.mp hl
    exact h

theorem Posts.refl (h : l.Sound faults) :
    l.Posts faults l (fun _ _ _ => False) fun _ _ => False :=
  ⟨.refl h, fun _ _ _ => (or_false _).to_iff.symm, fun _ _ => (or_false _).to_iff.symm⟩

theorem Posts.trans {cited cited' : ItemProperty → ElementId → ElementId → Prop}
    {defined defined' : ElementId → ElementId → Prop} (h : l.Posts faults l' cited defined)
    (h' : l'.Posts faults l'' cited' defined') :
    l.Posts faults l'' (fun property document id => cited property document id ∨
      cited' property document id) fun document id => defined document id ∨ defined' document id
    where
  writes := h.writes.trans h'.writes
  cites property document id := by rw [h'.cites, h.cites, or_assoc]
  defines document id := by rw [h'.defines, h.defines, or_assoc]

theorem Posts.congr {cited cited' : ItemProperty → ElementId → ElementId → Prop}
    {defined defined' : ElementId → ElementId → Prop} (h : l.Posts faults l' cited defined)
    (hc : ∀ property document id, cited property document id ↔ cited' property document id)
    (hd : ∀ document id, defined document id ↔ defined' document id) :
    l.Posts faults l' cited' defined' where
  writes := h.writes
  cites property document id := by rw [h.cites, hc]
  defines document id := by rw [h.defines, hd]

/-- Listing under the reference result cites what is listed. -/
theorem cite_does (hl : l.Sound faults) {v : VertexRef} (hv : l.record.referenceResult = some v)
    {ids : List ElementId} {document : ElementId} {property : ItemProperty}
    (hd : Delivered l.graph.elements .document document)
    (hids : ∀ id ∈ ids, Delivered l.graph.elements property.targetLabel id) :
    Does faults (liftM (Graph.item v ids document property)) l fun _ l' =>
      l.Posts faults l' (fun property' document' id =>
        property' = property ∧ document' = document ∧ id ∈ ids) (fun _ _ => False) ∧
        l'.record = l.record := by
  obtain ⟨hlabel, hdelivered⟩ := hl.record.referenceResult v hv
  have hitem : Graph.item v ids document property
      = Graph.edge (.item v.id ids document (some property)) := by
    unfold Graph.item Edge.listing
    rw [hlabel]
  have hrefers : (Edge.item v.id ids document (some property)).RefersTo l.graph.elements :=
    ⟨hd, hdelivered, hids⟩
  rw [hitem]
  refine (edge_does hl hrefers (fun _ => wrote_item (.inl ⟨v, hv, rfl⟩)) nofun).mono ?_
  rintro n l' ⟨hw, hrecord, helements⟩
  refine ⟨⟨hw, fun property' document' id => ?_, fun document' id => ?_⟩, hrecord⟩
  · unfold Record.Cites
    rw [hrecord, helements]
    simp only [hv, Option.some.injEq, exists_eq_left', listed_append, listed_singleton, true_and,
      or_assoc]
  · unfold Record.Defines
    rw [hrecord, helements]
    simp only [listed_append, listed_singleton, reduceCtorEq, false_and, and_false, or_false]

/-- Listing under the definition result defines by what is listed. -/
theorem define_does (hl : l.Sound faults) {v : VertexRef} (hv : l.record.definitionResult = some v)
    {ids : List ElementId} {document : ElementId} {property : ItemProperty}
    (hd : Delivered l.graph.elements .document document)
    (hids : ∀ id ∈ ids, Delivered l.graph.elements .range id) :
    Does faults (liftM (Graph.item v ids document property)) l fun _ l' =>
      l.Posts faults l' (fun _ _ _ => False) (fun document' id =>
        document' = document ∧ id ∈ ids) ∧ l'.record = l.record := by
  obtain ⟨hlabel, hdelivered⟩ := hl.record.definitionResult v hv
  have hitem : Graph.item v ids document property
      = Graph.edge (.item v.id ids document none) := by
    unfold Graph.item Edge.listing
    rw [hlabel]
  have hrefers : (Edge.item v.id ids document none).RefersTo l.graph.elements :=
    ⟨hd, hdelivered, hids⟩
  rw [hitem]
  refine (edge_does hl hrefers (fun _ => wrote_item (.inr ⟨v, hv, rfl⟩)) nofun).mono ?_
  rintro n l' ⟨hw, hrecord, helements⟩
  refine ⟨⟨hw, fun property' document' id => ?_, fun document' id => ?_⟩, hrecord⟩
  · unfold Record.Cites
    rw [hrecord, helements]
    simp only [listed_append, listed_singleton, reduceCtorEq, false_and, and_false, or_false]
  · unfold Record.Defines
    rw [hrecord, helements]
    simp only [hv, Option.some.injEq, exists_eq_left', listed_append, listed_singleton, true_and,
      or_assoc]

/-! ### Results -/

theorem linked_singleton {n source source' target target' : ElementId} {kind kind' : LinkKind} :
    Linked [.edge n (.link kind source target)] kind' source' target' ↔
      kind' = kind ∧ source' = source ∧ target' = target := by
  constructor
  · rintro ⟨m, hmem⟩
    cases List.mem_singleton.mp hmem
    exact ⟨rfl, rfl, rfl⟩
  · rintro ⟨rfl, rfl, rfl⟩
    exact ⟨n, List.mem_singleton_self _⟩

theorem wrote_link {r : Record} {n source target : ElementId} {kind : LinkKind} {v : VertexRef}
    (hkind : kind = .references ∨ kind = .definition) (hv : r.resultSet = some v)
    (hsource : v.id = source) : r.Wrote [.edge n (.link kind source target)] where
  tagged _ _ := by simp [Tagged]
  contained _ _ := by simp [Contained]
  listed _ _ _ _ := by simp [Listed]
  linked _ _ _ hl := by
    obtain ⟨rfl, rfl, rfl⟩ := linked_singleton.mp hl
    exact ⟨hkind, v, hv, hsource⟩

/-- A record is sound with its first reference result, once the link to it was delivered. -/
theorem sound_referenceResult {r : Record} {elements : List Element} {n : ElementId}
    {hub result : VertexRef} (h : r.Sound elements) (hhub : r.resultSet = some hub)
    (hnone : r.referenceResult = none) (hlabel : result.label = .referenceResult)
    (hd : Delivered elements .referenceResult result.id) :
    ({ r with referenceResult := some result } : Record).Sound
      (elements ++ [.edge n (.link .references hub.id result.id)]) where
  resultSet v hv := (h.resultSet v hv).mono (List.prefix_append _ _)
  referenceResult v hv := by
    cases hv
    exact ⟨hlabel, hd.mono (List.prefix_append _ _)⟩
  definitionResult v hv :=
    ⟨(h.definitionResult v hv).1, (h.definitionResult v hv).2.mono (List.prefix_append _ _)⟩
  begun hno := by
    rw [hhub] at hno
    cases hno
  references v hv id := by
    obtain rfl : hub = v := Option.some.inj (hhub.symm.trans hv)
    rw [linked_append, linked_singleton, h.references hub hhub id, hnone]
    simp [eq_comm]
  definition v hv id := by
    rw [linked_append, linked_singleton]
    simpa using h.definition v hv id
  partitions file p hp := (h.partitions file p hp).mono (List.prefix_append _ _)

/-- A record is sound with its first definition result, once the link to it was delivered. -/
theorem sound_definitionResult {r : Record} {elements : List Element} {n : ElementId}
    {hub result : VertexRef} (h : r.Sound elements) (hhub : r.resultSet = some hub)
    (hnone : r.definitionResult = none) (hlabel : result.label = .definitionResult)
    (hd : Delivered elements .definitionResult result.id) :
    ({ r with definitionResult := some result } : Record).Sound
      (elements ++ [.edge n (.link .definition hub.id result.id)]) where
  resultSet v hv := (h.resultSet v hv).mono (List.prefix_append _ _)
  referenceResult v hv :=
    ⟨(h.referenceResult v hv).1, (h.referenceResult v hv).2.mono (List.prefix_append _ _)⟩
  definitionResult v hv := by
    cases hv
    exact ⟨hlabel, hd.mono (List.prefix_append _ _)⟩
  begun hno := by
    rw [hhub] at hno
    cases hno
  references v hv id := by
    rw [linked_append, linked_singleton]
    simpa using h.references v hv id
  definition v hv id := by
    obtain rfl : hub = v := Option.some.inj (hhub.symm.trans hv)
    rw [linked_append, linked_singleton, h.definition hub hhub id, hnone]
    simp [eq_comm]
  partitions file p hp := (h.partitions file p hp).mono (List.prefix_append _ _)

theorem resultSet_does (hl : l.Sound faults) :
    Does faults resultSet l fun v l' => l = l' ∧ l.record.resultSet = some v := by
  unfold resultSet Record.begunResultSet
  refine ensures_bind.mpr (ensures_get.mpr ?_)
  cases hhub : l.record.resultSet with
  | some v => exact ensures_ofExcept_ok.mpr ⟨rfl, rfl⟩
  | none => exact ensures_ofExcept_error.mpr ⟨.refl hl, fun _ => nofun⟩

/-- A new vertex lists nothing. -/
theorem not_listed_new (hl : l.Sound faults) {id : ElementId}
    (hnew : ∀ e ∈ l.graph.elements, e.id ≠ id) {property : Option ItemProperty}
    {document target : ElementId} : ¬ Listed l.graph.elements id property document target := by
  intro hlisted
  have hrefers := (hlisted.refersTo hl.graph).2
  cases property with
  | none =>
      obtain ⟨v, -, hmem⟩ := hrefers.1
      exact hnew _ hmem rfl
  | some role =>
      obtain ⟨v, -, hmem⟩ := hrefers.1
      exact hnew _ hmem rfl

/-- A record with a new result has the entries it had, if nothing was listed meanwhile. -/
theorem cites_new (hl : l.Sound faults) {result : VertexRef} {written : List Element}
    (hnone : l.record.referenceResult = none) (hnew : ∀ e ∈ l.graph.elements, e.id ≠ result.id)
    (hw : ∀ source property document id, ¬ Listed written source property document id)
    (property : ItemProperty) (document id : ElementId) :
    ({ l.record with referenceResult := some result } : Record).Cites
        (l.graph.elements ++ written) property document id ↔
      l.record.Cites l.graph.elements property document id := by
  unfold Record.Cites
  refine or_congr .rfl ⟨?_, ?_⟩
  · rintro ⟨v, hv, hlisted⟩
    cases hv
    exact ((listed_append.mp hlisted).elim (not_listed_new hl hnew) (hw _ _ _ _)).elim
  · rintro ⟨v, hv, -⟩
    rw [hnone] at hv
    cases hv

@[inherit_doc cites_new]
theorem defines_new (hl : l.Sound faults) {result : VertexRef} {written : List Element}
    (hnone : l.record.definitionResult = none) (hnew : ∀ e ∈ l.graph.elements, e.id ≠ result.id)
    (hw : ∀ source property document id, ¬ Listed written source property document id)
    (document id : ElementId) :
    ({ l.record with definitionResult := some result } : Record).Defines
        (l.graph.elements ++ written) document id ↔
      l.record.Defines l.graph.elements document id := by
  unfold Record.Defines
  refine or_congr .rfl ⟨?_, ?_⟩
  · rintro ⟨v, hv, hlisted⟩
    cases hv
    exact ((listed_append.mp hlisted).elim (not_listed_new hl hnew) (hw _ _ _ _)).elim
  · rintro ⟨v, hv, -⟩
    rw [hnone] at hv
    cases hv

/-- A vertex and a link list nothing. -/
theorem not_listed_result {n : ElementId} {v : Vertex} {id a b : ElementId} {kind : LinkKind}
    (source : ElementId) (property : Option ItemProperty) (document target : ElementId) :
    ¬ Listed [.vertex id v, .edge n (.link kind a b)] source property document target := by
  simp [Listed]

/-- Entries hang on partitions, a result and what is listed only. -/
theorem cites_of_not_listed {r r' : Record} {elements written : List Element}
    (hp : r'.partitions = r.partitions) (hresult : r'.referenceResult = r.referenceResult)
    (hw : ∀ source property document id, ¬ Listed written source property document id)
    (property : ItemProperty) (document id : ElementId) :
    r'.Cites (elements ++ written) property document id ↔
      r.Cites elements property document id := by
  unfold Record.Cites Record.Keeps
  simp only [hp, hresult, listed_append, hw, or_false]

@[inherit_doc cites_of_not_listed]
theorem defines_of_not_listed {r r' : Record} {elements written : List Element}
    (hp : r'.partitions = r.partitions) (hresult : r'.definitionResult = r.definitionResult)
    (hw : ∀ source property document id, ¬ Listed written source property document id)
    (document id : ElementId) :
    r'.Defines (elements ++ written) document id ↔ r.Defines elements document id := by
  unfold Record.Defines Record.Keeps
  simp only [hp, hresult, listed_append, hw, or_false]

/-- A new result is emitted with the link that leads to it. -/
theorem newResult_does (hl : l.Sound faults) {v : Vertex} {kind : LinkKind} (hv : v.label ≠ .range)
    (hjoins : ∀ elements hub id, Delivered elements .resultSet hub → Delivered elements v.label id →
      (Edge.link kind hub id).RefersTo elements)
    {note : VertexRef → Record → Record} {post : VertexRef → Ledger → Prop}
    (hpost : ∀ hub result n g, l.record.resultSet = some hub → g.Sound faults →
      result.label = v.label → (∀ e ∈ l.graph.elements, e.id ≠ result.id) →
      l.record.Sound (l.graph.elements ++ [.vertex result.id v]) →
      g.elements = l.graph.elements ++ [.vertex result.id v] ++
        [.edge n (.link kind hub.id result.id)] →
      post result { record := note result l.record, graph := g }) :
    Does faults (newResult v kind note) l post := by
  unfold newResult
  refine (resultSet_does hl).bind ?_
  rintro hub _ ⟨rfl, hhub⟩
  refine ⟨.refl hl, (vertex_does hl hv).bind ?_⟩
  rintro result l' ⟨hw, hrecord, hlabel, helements, hnew⟩
  have hd : Delivered l'.graph.elements v.label result.id := by
    rw [helements]
    exact ⟨v, rfl, List.mem_append_right _ (List.mem_singleton_self _)⟩
  have hhub' : l'.record.resultSet = some hub := by rw [hrecord]; exact hhub
  have hrefers := hjoins l'.graph.elements hub.id result.id (hw.sound.record.resultSet hub hhub') hd
  refine ⟨hw, ensures_bind.mpr (ensures_discard.mpr (ensures_onPart.mpr
    ((Graph.edge_ensures hw.sound.graph hrefers).mono ?_
      fun _ _ h => refused_writes hw.sound h)))⟩
  rintro n g ⟨hg, hg', -⟩
  simp only [change, ensures_bind, ensures_modify, ensures_pure]
  rw [hrecord]
  have hsound := hw.sound.record
  rw [hrecord, helements] at hsound
  rw [helements] at hg'
  exact hpost hub result n g hhub hg hlabel hnew hsound hg'

/-- The reference result is made when it is first needed, and lists nothing yet. -/
theorem referenceResult_does (hl : l.Sound faults) :
    Does faults referenceResult l fun v l' =>
      l.Posts faults l' (fun _ _ _ => False) (fun _ _ => False) ∧
        l'.record = { l.record with referenceResult := some v } := by
  unfold referenceResult
  refine ensures_bind.mpr (ensures_get.mpr ?_)
  cases hresult : l.record.referenceResult with
  | some result =>
      refine does_pure ⟨.refl hl, ?_⟩
      rw [← hresult]
  | none =>
      refine newResult_does hl (by decide) ?_ ?_
      · exact fun _ _ _ hs ht => ⟨hs, ht⟩
      intro hub result n g hhub hg hlabel hnew hsound helements
      have hd : Delivered (l.graph.elements ++ [.vertex result.id .referenceResult])
          .referenceResult result.id :=
        ⟨_, rfl, List.mem_append_right _ (List.mem_singleton_self _)⟩
      have hr := sound_referenceResult (n := n) hsound hhub hresult hlabel hd
      rw [← helements] at hr
      rw [List.append_assoc] at helements
      refine ⟨⟨⟨⟨⟨hg, hr⟩, ⟨rfl, rfl, rfl, .refl _ _, .inr ⟨hresult, result, rfl, hnew⟩, .refl _ _⟩,
        _, helements, ?_⟩, fun _ _ hp => hp⟩, fun property document id => ?_,
        fun document id => ?_⟩, rfl⟩
      · exact (wrote_vertex (by decide)).append (wrote_link (.inl rfl) hhub rfl)
      · rw [or_false, helements]
        exact cites_new hl hresult hnew not_listed_result property document id
      · rw [or_false, helements]
        exact defines_of_not_listed rfl rfl not_listed_result document id

/-- The definition result is made when it is first needed, and lists nothing yet. -/
theorem definitionResult_does (hl : l.Sound faults) :
    Does faults definitionResult l fun v l' =>
      l.Posts faults l' (fun _ _ _ => False) (fun _ _ => False) ∧
        l'.record = { l.record with definitionResult := some v } := by
  unfold definitionResult
  refine ensures_bind.mpr (ensures_get.mpr ?_)
  cases hresult : l.record.definitionResult with
  | some result =>
      refine does_pure ⟨.refl hl, ?_⟩
      rw [← hresult]
  | none =>
      refine newResult_does hl (by decide) ?_ ?_
      · exact fun _ _ _ hs ht => ⟨hs, ht⟩
      intro hub result n g hhub hg hlabel hnew hsound helements
      have hd : Delivered (l.graph.elements ++ [.vertex result.id .definitionResult])
          .definitionResult result.id :=
        ⟨_, rfl, List.mem_append_right _ (List.mem_singleton_self _)⟩
      have hr := sound_definitionResult (n := n) hsound hhub hresult hlabel hd
      rw [← helements] at hr
      rw [List.append_assoc] at helements
      refine ⟨⟨⟨⟨⟨hg, hr⟩, ⟨rfl, rfl, rfl, .refl _ _, .refl _ _, .inr ⟨hresult, result, rfl, hnew⟩⟩,
        _, helements, ?_⟩, fun _ _ hp => hp⟩, fun property document id => ?_,
        fun document id => ?_⟩, rfl⟩
      · exact (wrote_vertex (by decide)).append (wrote_link (.inr rfl) hhub rfl)
      · rw [or_false, helements]
        exact cites_of_not_listed rfl rfl not_listed_result property document id
      · rw [or_false, helements]
        exact defines_new hl hresult hnew not_listed_result document id

/-- No result is linked from a vertex that has just been delivered. -/
theorem not_linked_new (hl : l.Sound faults) {id target : ElementId} {v : Vertex} {kind : LinkKind}
    (hnew : ∀ e ∈ l.graph.elements, e.id ≠ id) (hkind : kind = .references ∨ kind = .definition) :
    ¬ Linked (l.graph.elements ++ [.vertex id v]) kind id target := by
  rw [linked_append]
  rintro (hlinked | ⟨n, hmem⟩)
  · obtain ⟨u, -, hu⟩ : Delivered l.graph.elements .resultSet id := by
      rcases hkind with rfl | rfl
      · exact (hlinked.joins hl.graph).1
      · exact (hlinked.joins hl.graph).1
    exact hnew _ hu rfl
  · cases List.mem_singleton.mp hmem

/-- Opening a record gives it a new result set, from which nothing leads yet. -/
theorem begin_does (hl : l.Sound faults) (hnone : l.record.resultSet = none) :
    Does faults begin l fun v l' =>
      l.Posts faults l' (fun _ _ _ => False) (fun _ _ => False) ∧
        l'.record = { l.record with resultSet := some v, state := .opened } := by
  obtain ⟨hrr, hdr⟩ := hl.record.begun hnone
  unfold begin
  refine ensures_bind.mpr (ensures_get.mpr ?_)
  dsimp only
  split
  · exact ensures_bind.mpr (does_throw hl fun _ h => by cases h)
  · refine (vertex_does hl (by decide)).bind ?_
    rintro v l' ⟨hw, hrecord, -, helements, hnew⟩
    -- The new hub is the source of no link, which the two result fields have to agree with: both
    -- are still `none`.
    have hsource : ∀ kind target, (kind = .references ∨ kind = .definition) →
        ¬ Linked l'.graph.elements kind v.id target := by
      intro kind target hkind
      rw [helements]
      exact not_linked_new hl hnew hkind
    have hdelivered : Delivered l'.graph.elements .resultSet v.id := by
      rw [helements]
      exact ⟨_, rfl, List.mem_append_right _ (List.mem_singleton_self _)⟩
    have hr := hw.sound.record
    rw [hrecord] at hr
    refine ⟨hw, ?_⟩
    simp only [change]
    refine ensures_bind.mpr (ensures_modify.mpr (ensures_pure.mpr ?_))
    rw [hrecord]
    refine ⟨⟨⟨⟨⟨hw.sound.graph, ?_⟩,
      ⟨rfl, rfl, rfl, .inr ⟨hnone, v, rfl, hnew⟩, .refl _ _, .refl _ _⟩, _, helements,
      wrote_vertex (by decide)⟩, fun _ _ hp => hp⟩, fun property document id => ?_,
      fun document id => ?_⟩, rfl⟩
    · refine ⟨?_, hr.referenceResult, hr.definitionResult, nofun, ?_, ?_, hr.partitions⟩
      · intro u hu
        cases hu
        exact hdelivered
      · intro u hu id
        cases hu
        exact iff_of_false (hsource _ _ (.inl rfl)) fun ⟨u, hu, _⟩ => by
          rw [show l.record.referenceResult = some u from hu] at hrr
          cases hrr
      · intro u hu id
        cases hu
        exact iff_of_false (hsource _ _ (.inr rfl)) fun ⟨u, hu, _⟩ => by
          rw [show l.record.definitionResult = some u from hu] at hdr
          cases hdr
    · rw [or_false]
      show Record.Cites l'.graph.elements _ property document id ↔ _
      rw [helements]
      exact cites_of_not_listed rfl rfl (by simp [Listed]) property document id
    · rw [or_false]
      show Record.Defines l'.graph.elements _ document id ↔ _
      rw [helements]
      exact defines_of_not_listed rfl rfl (by simp [Listed]) document id

/-! ### Partitions -/

/-- Listing what a partition cites, one property after the other. -/
theorem listEntries_does {p : Partition} {v : VertexRef} (hl : l.Sound faults)
    (hp : p.Sound l.graph.elements) (hv : l.record.referenceResult = some v) :
    Does faults (p.listed.forM (listEntry p v)) l fun _ l' =>
      l.Posts faults l' (fun property document id =>
        document = p.document ∧ id ∈ p.under property) (fun _ _ => False) ∧
        l'.record = l.record := by
  -- What was listed so far are the entries in front of those still to come.
  refine Does.mono (Does.forM (fun rest l' => ∃ done, p.listed = done ++ rest ∧
    l.Posts faults l' (fun property document id =>
      document = p.document ∧ ∃ ids, (ids, property) ∈ done ∧ id ∈ ids) (fun _ _ => False) ∧
    l'.record = l.record) ?_ ?_ ?_) ?_
  · rintro rest l' ⟨done, -, hposts, -⟩
    exact hposts.writes
  · rintro ⟨ids, property⟩ rest l' ⟨done, hsplit, hposts, hrecord⟩
    have hids : ids = p.under property := by
      refine Partition.mem_listed.mp ?_
      rw [hsplit]
      exact List.mem_append_right _ List.mem_cons_self
    have hp' : p.Sound l'.graph.elements := hp.mono hposts.writes.leads
    have hsplit' : p.listed = (done ++ [(ids, property)]) ++ rest := by
      rw [hsplit, List.append_assoc]
      rfl
    unfold listEntry
    split
    · rename_i hempty
      refine does_pure ⟨_, hsplit', hposts.congr (fun property' document id => ?_) fun _ _ => .rfl,
        hrecord⟩
      obtain rfl := List.isEmpty_iff.mp hempty
      refine ⟨fun ⟨hd, ids', hmem, hid⟩ => ⟨hd, ids', List.mem_append_left _ hmem, hid⟩, ?_⟩
      rintro ⟨hd, ids', hmem, hid⟩
      rcases List.mem_append.mp hmem with hmem | hmem
      · exact ⟨hd, ids', hmem, hid⟩
      · cases List.mem_singleton.mp hmem
        cases hid
    · refine Does.discard ((cite_does hposts.writes.sound (hrecord ▸ hv) hp'.document ?_).mono ?_)
      · rw [hids]
        exact hp'.references property
      · rintro _ l'' ⟨hposts', hrecord'⟩
        refine ⟨_, hsplit', (hposts.trans hposts').congr (fun property' document id => ?_)
          fun _ _ => or_self_iff, hrecord'.trans hrecord⟩
        simp only [List.mem_append, List.mem_singleton, Prod.mk.injEq]
        constructor
        · rintro (⟨hd, ids', hmem, hid⟩ | ⟨rfl, hd, hid⟩)
          · exact ⟨hd, ids', .inl hmem, hid⟩
          · exact ⟨hd, ids, .inr ⟨rfl, rfl⟩, hid⟩
        · rintro ⟨hd, ids', hmem | ⟨rfl, rfl⟩, hid⟩
          · exact .inl ⟨hd, ids', hmem, hid⟩
          · exact .inr ⟨rfl, hd, hid⟩
  · refine ⟨[], rfl, (Posts.refl hl).congr (fun property document id => ?_) fun _ _ => .rfl, rfl⟩
    simp
  · rintro _ l' ⟨done, hdone, hposts, hrecord⟩
    rw [List.append_nil] at hdone
    refine ⟨hposts.congr (fun property document id => ?_) fun _ _ => .rfl, hrecord⟩
    rw [← hdone]
    simp only [Partition.mem_listed, exists_eq_left]

/-- Listing what a partition cites, if it cites anything. -/
theorem listReferences_does {p : Partition} (hl : l.Sound faults) (hp : p.Sound l.graph.elements) :
    Does faults (listReferences p) l fun _ l' =>
      l.Posts faults l' (fun property document id => document = p.document ∧ id ∈ p.under property)
        (fun _ _ => False) ∧
      l'.record.partitions = l.record.partitions ∧ l'.record.state = l.record.state ∧
      (l'.record.referenceResult ≠ none → l.record.referenceResult ≠ none ∨
        ∃ property id, id ∈ p.under property) ∧
      l'.record.definitionResult = l.record.definitionResult := by
  unfold listReferences
  split
  · rename_i hhas
    refine (referenceResult_does hl).bind ?_
    rintro v l' ⟨hposts, hrecord⟩
    refine ⟨hposts.writes, (listEntries_does hposts.writes.sound (hp.mono hposts.writes.leads)
      (by rw [hrecord])).mono ?_⟩
    rintro _ l'' ⟨hposts', hrecord'⟩
    rw [hrecord', hrecord]
    refine ⟨(hposts.trans hposts').congr (fun _ _ _ => ?_) fun _ _ => or_self_iff, rfl, rfl,
      fun _ => .inr (Partition.hasReferences_iff.mp hhas), rfl⟩
    rw [false_or]
  · rename_i hhas
    refine does_pure ⟨(Posts.refl hl).congr (fun property document id => ?_) fun _ _ => .rfl, rfl,
      rfl, .inl, rfl⟩
    refine ⟨False.elim, fun ⟨_, hid⟩ => hhas (Partition.hasReferences_iff.mpr ⟨property, id, hid⟩)⟩

/-- **A partition is listed in full.**  Its definitions go to the definition result and what it
cites to the reference result, and no result is made without need. -/
theorem flush_does {p : Partition} (hl : l.Sound faults) (hp : p.Sound l.graph.elements) :
    Does faults (flush p) l fun _ l' =>
      l.Posts faults l'
        (fun property document id => document = p.document ∧ id ∈ p.under property)
        (fun document id => document = p.document ∧ id ∈ p.definitionRanges) ∧
      l'.record.partitions = l.record.partitions ∧ l'.record.state = l.record.state ∧
      (l'.record.referenceResult ≠ none → l.record.referenceResult ≠ none ∨
        ∃ property id, id ∈ p.under property) ∧
      (l'.record.definitionResult ≠ none → l.record.definitionResult ≠ none ∨
        p.definitionRanges ≠ []) := by
  unfold flush
  dsimp only
  split
  · rename_i hempty
    refine (listReferences_does hl hp).mono ?_
    rintro _ l' ⟨hposts, hpartitions, hstate, hrr, hdr⟩
    refine ⟨hposts.congr (fun _ _ _ => .rfl) fun document id => ?_, hpartitions, hstate, hrr, ?_⟩
    · rw [List.isEmpty_iff.mp hempty]
      simp
    · rw [hdr]
      exact .inl
  -- The definition result comes first and its list after it, before the references are cited.
  · rename_i hne
    refine (definitionResult_does hl).bind ?_
    rintro v l₁ ⟨hposts₁, hrecord₁⟩
    have hp₁ := hp.mono hposts₁.writes.leads
    refine ⟨hposts₁.writes, (define_does hposts₁.writes.sound (by rw [hrecord₁]) hp₁.document
      hp₁.definitions).discard.bind ?_⟩
    rintro _ l₂ ⟨hposts₂, hrecord₂⟩
    have hp₂ := hp₁.mono hposts₂.writes.leads
    refine ⟨hposts₂.writes, (listReferences_does hposts₂.writes.sound hp₂).mono ?_⟩
    rintro _ l₃ ⟨hposts₃, hpartitions, hstate, hrr, hdr⟩
    rw [hrecord₂, hrecord₁] at hpartitions hstate hrr
    refine ⟨((hposts₁.trans hposts₂).trans hposts₃).congr (fun _ _ _ => ?_) fun _ _ => ?_,
      hpartitions, hstate, hrr, fun _ => .inr fun h => hne (List.isEmpty_iff.mpr h)⟩
    · rw [false_or, false_or]
    · rw [false_or, or_false]

/-- What a record keeps is what it keeps in one partition and what it keeps in the others. -/
theorem keeps_of_clear {r : Record} {file : FileId} {p : Partition}
    (hp : r.partitions.get? file = some (.live p)) (list : Partition → List ElementId)
    (document id : ElementId) :
    r.Keeps list document id ↔
      ({ r with partitions := r.partitions.insert file .cleared } : Record).Keeps
        list document id ∨ document = p.document ∧ id ∈ list p := by
  constructor
  · rintro ⟨file', p', hp', hd, hid⟩
    by_cases hfile : file' = file
    · subst hfile
      cases hp.symm.trans hp'
      exact .inr ⟨hd.symm, hid⟩
    · refine .inl ⟨file', p', ?_, hd, hid⟩
      show (r.partitions.insert file .cleared).get? file' = _
      rw [Table.get?_insert, if_neg hfile]
      exact hp'
  · rintro (⟨file', p', hp', hd, hid⟩ | ⟨hd, hid⟩)
    · change (r.partitions.insert file .cleared).get? file' = _ at hp'
      rw [Table.get?_insert] at hp'
      split at hp'
      · cases hp'
      · exact ⟨file', p', hp', hd, hid⟩
    · exact ⟨file, p, hp, hd.symm, hid⟩

/-- The live partitions after one was cleared. -/
theorem live_of_clear {r : Record} {file file' : FileId} {p : Partition}
    (h : (r.partitions.insert file .cleared).get? file' = some (.live p)) :
    file' ≠ file ∧ r.partitions.get? file' = some (.live p) := by
  rw [Table.get?_insert] at h
  split at h
  · cases h
  · rename_i hne
    exact ⟨hne, h⟩

/-- **Clearing a partition keeps the books**, and makes no other partition live. -/
theorem endPartition_does (hl : l.Sound faults) (file : FileId) :
    Does faults (endPartition file) l fun _ l' => l.Settles faults l' ∧
      l'.record.state = l.record.state ∧
      ∀ file' p, l'.record.partitions.get? file' = some (.live p) →
        file' ≠ file ∧ l.record.partitions.get? file' = some (.live p) := by
  unfold endPartition
  refine ensures_bind.mpr (ensures_get.mpr ?_)
  split
  · rename_i p hp
    simp only [change]
    refine ensures_bind.mpr (ensures_modify.mpr ?_)
    -- The slot is cleared first, so the books balance only when the partition has been listed.
    have hcleared : Writes faults l { l with record :=
        { l.record with partitions := l.record.partitions.insert file .cleared } } := by
      refine ⟨⟨⟨hl.graph, { hl.record with partitions := fun file' p' hp' => ?_ }⟩,
        ⟨rfl, rfl, rfl, .refl _ _, .refl _ _, .refl _ _⟩, [], (List.append_nil _).symm, .nil _⟩,
        fun file' p' hp' => (live_of_clear hp').2⟩
      exact hl.record.partitions file' p' (live_of_clear hp').2
    refine Ensures.mono (flush_does hcleared.sound (hl.record.partitions file p hp)) ?_
      fun _ _ h => ⟨hcleared.trans h.1, h.2⟩
    rintro _ l' ⟨hposts, hpartitions, hstate, hrr, hdr⟩
    refine ⟨⟨hcleared.trans hposts.writes, fun property document id => ?_, fun document id => ?_,
      fun hne => (hrr hne).imp_right ?_, fun hne => (hdr hne).imp_right fun hne => ?_⟩, hstate, ?_⟩
    · rw [hposts.cites]
      unfold Record.Cites
      rw [keeps_of_clear hp, or_right_comm]
    · rw [hposts.defines]
      unfold Record.Defines
      rw [keeps_of_clear hp, or_right_comm]
    · rintro ⟨property, id, hid⟩
      exact ⟨property, p.document, id, .inl ⟨file, p, hp, rfl, hid⟩⟩
    · obtain ⟨id, hid⟩ := List.exists_mem_of_ne_nil _ hne
      exact ⟨p.document, id, .inl ⟨file, p, hp, rfl, hid⟩⟩
    · intro file' p' hp'
      rw [hpartitions] at hp'
      exact live_of_clear hp'
  · rename_i hdead
    refine does_pure ⟨.refl hl, rfl, fun file' p hp => ⟨?_, hp⟩⟩
    rintro rfl
    exact hdead p hp

/-- **Closing a record keeps the books**: what it had kept is listed. -/
theorem close_does (hl : l.Sound faults) :
    Does faults close l fun _ l' => l.Settles faults l' ∧ l'.record.state = .closed ∧
      (l.record.state ≠ .closed → l'.record.partitions = ∅) := by
  unfold close
  refine ensures_bind.mpr (ensures_get.mpr ?_)
  dsimp only
  split
  · rename_i hclosed
    exact does_pure ⟨.refl hl, hclosed, fun h => absurd hclosed h⟩
  · -- The files still to come are the only ones with a live partition.
    refine Does.bind (Does.forM (fun rest l' => l.Settles faults l' ∧
      ∀ file p, l'.record.partitions.get? file = some (.live p) → file ∈ rest) ?_ ?_ ?_) ?_
    · exact fun _ _ h => h.1.writes
    · rintro file rest l' ⟨hsettles, hlive⟩
      refine (endPartition_does hsettles.writes.sound file).mono ?_
      rintro _ l'' ⟨hsettles', -, hlive'⟩
      refine ⟨hsettles.trans hsettles', fun file' p hp => ?_⟩
      obtain ⟨hne, hp'⟩ := hlive' file' p hp
      exact (List.mem_cons.mp (hlive file' p hp')).resolve_left hne
    · exact ⟨.refl hl, fun file p hp => Table.mem_keys_of_get? hp⟩
    · rintro _ l' ⟨hsettles, hlive⟩
      have hnone : ∀ list document id, ¬ l'.record.Keeps list document id := by
        rintro list document id ⟨file, p, hp, -, -⟩
        exact List.not_mem_nil (hlive file p hp)
      have hsound := hsettles.writes.sound
      refine ⟨hsettles.writes, ensures_modify.mpr ⟨⟨hsettles.writes.trans ⟨⟨⟨hsound.graph,
        { hsound.record with partitions := nofun }⟩,
        ⟨rfl, rfl, rfl, .refl _ _, .refl _ _, .refl _ _⟩, [], (List.append_nil _).symm, .nil _⟩,
        nofun⟩, fun property document id => ?_,
        fun document id => ?_, hsettles.cited, hsettles.defined⟩, rfl, fun _ => rfl⟩⟩
      · rw [← hsettles.cites]
        exact or_congr_left (iff_of_false (fun ⟨_, _, hp, _⟩ => nomatch hp) (hnone _ _ _))
      · rw [← hsettles.defines]
        exact or_congr_left (iff_of_false (fun ⟨_, _, hp, _⟩ => nomatch hp) (hnone _ _ _))

end Ledger

end SymbolGraph
