import SymbolGraph.Proofs.Graph.Reading
import SymbolGraph.Record.Ledger

/-!
# Proofs — Record — what a record has on its books

A range that was recorded is first kept in a partition and then listed by an edge.  Either way the
record *cites* it, or *defines* by it; which of the two places holds it is of no concern to anyone
but the record.

* `Record.Cites`, `Record.Defines`: what is recorded, wherever it stands.
* `Record.Sound`: the handles of a record were delivered, its result set is linked to its results and
  to no others, and its partitions hold what they may.
* `Record.Wrote`: elements that only writing this record can have delivered.
* `Record.Grows`: what never changes about a record.  A handle is set once, to a new vertex.
-/

namespace SymbolGraph

/-! ### Partitions -/

namespace Partition

/-- The list of a partition that is written under a property. -/
def under (p : Partition) : ItemProperty → List ElementId
  | .declarations     => p.declarations
  | .definitions      => p.definitions
  | .references       => p.references
  | .referenceResults => p.referenceResults

/-- A partition lists under each property what it collected under it. -/
theorem mem_listed {p : Partition} {ids : List ElementId} {property : ItemProperty} :
    (ids, property) ∈ p.listed ↔ ids = p.under property := by
  cases property <;> simp [listed, under]

/-- A partition has references where it collected something under a property. -/
theorem hasReferences_iff {p : Partition} :
    p.hasReferences = true ↔ ∃ property id, id ∈ p.under property := by
  unfold hasReferences
  rw [List.any_eq_true]
  constructor
  · rintro ⟨⟨ids, property⟩, hmem, hne⟩
    obtain rfl := mem_listed.mp hmem
    obtain ⟨id, hid⟩ := List.exists_mem_of_ne_nil (p.under property) (by simpa using hne)
    exact ⟨property, id, hid⟩
  · rintro ⟨property, id, hid⟩
    refine ⟨(p.under property, property), mem_listed.mpr rfl, ?_⟩
    have hne : p.under property ≠ [] := List.ne_nil_of_mem hid
    simpa using hne

/-- The document of a partition and what it holds were delivered, under the labels they should
have. -/
structure Sound (elements : List Element) (p : Partition) : Prop where
  document    : Delivered elements .document p.document
  definitions : ∀ id ∈ p.definitionRanges, Delivered elements .range id
  references  : ∀ property, ∀ id ∈ p.under property, Delivered elements property.targetLabel id

/-- A partition stays sound when more is delivered. -/
theorem Sound.mono {earlier later : List Element} (h : earlier <+: later) {p : Partition}
    (hp : p.Sound earlier) : p.Sound later where
  document := hp.document.mono h
  definitions id hid := (hp.definitions id hid).mono h
  references property id hid := (hp.references property id hid).mono h

end Partition

/-! ### Handles -/

/-- A handle that may have been set since, then to a vertex that was not yet delivered. -/
def Fixed (elements : List Element) (old new : Option VertexRef) : Prop :=
  new = old ∨ old = none ∧ ∃ v, new = some v ∧ ∀ e ∈ elements, e.id ≠ v.id

namespace Fixed

theorem refl (elements : List Element) (handle : Option VertexRef) :
    Fixed elements handle handle := .inl rfl

/-- A handle that was set is fixed. -/
theorem eq_some {elements : List Element} {new : Option VertexRef} {v : VertexRef}
    (h : Fixed elements (some v) new) : new = some v := by
  rcases h with h | ⟨h, -⟩
  · exact h
  · cases h

/-- What is fixed in two steps is fixed. -/
theorem trans {earlier later : List Element} (hpre : earlier <+: later)
    {a b c : Option VertexRef} (hab : Fixed earlier a b) (hbc : Fixed later b c) :
    Fixed earlier a c := by
  rcases hab with rfl | ⟨rfl, v, rfl, hv⟩
  · rcases hbc with rfl | ⟨rfl, v, rfl, hv⟩
    · exact .inl rfl
    · exact .inr ⟨rfl, v, rfl, fun e he => hv e (hpre.subset he)⟩
  · rw [hbc.eq_some]
    exact .inr ⟨rfl, v, rfl, hv⟩

/-- A handle that is there now was there before, or is new. -/
theorem old_or_new {elements : List Element} {old new : Option VertexRef} {v : VertexRef}
    (h : Fixed elements old new) (hv : new = some v) :
    old = some v ∨ ∀ e ∈ elements, e.id ≠ v.id := by
  rcases h with rfl | ⟨-, u, rfl, hu⟩
  · exact .inl hv
  · cases hv
    exact .inr hu

end Fixed

/-! ### Records -/

namespace Record

/-- What never changes about a record. -/
structure Grows (elements : List Element) (r r' : Record) : Prop where
  key              : r'.key = r.key
  kind             : r'.kind = r.kind
  scope            : r'.scope = r.scope
  resultSet        : Fixed elements r.resultSet r'.resultSet
  referenceResult  : Fixed elements r.referenceResult r'.referenceResult
  definitionResult : Fixed elements r.definitionResult r'.definitionResult

theorem Grows.refl (elements : List Element) (r : Record) : r.Grows elements r :=
  ⟨rfl, rfl, rfl, .refl _ _, .refl _ _, .refl _ _⟩

/-- A record grows over two steps. -/
theorem Grows.trans {earlier later : List Element} (hpre : earlier <+: later) {a b c : Record}
    (hab : a.Grows earlier b) (hbc : b.Grows later c) : a.Grows earlier c where
  key := hbc.key.trans hab.key
  kind := hbc.kind.trans hab.kind
  scope := hbc.scope.trans hab.scope
  resultSet := hab.resultSet.trans hpre hbc.resultSet
  referenceResult := hab.referenceResult.trans hpre hbc.referenceResult
  definitionResult := hab.definitionResult.trans hpre hbc.definitionResult

/-- The record keeps something in one of the lists of its partition for a document. -/
def Keeps (r : Record) (list : Partition → List ElementId) (document id : ElementId) : Prop :=
  ∃ file p, r.partitions.get? file = some (.live p) ∧ p.document = document ∧ id ∈ list p

/-- The record cites a range or result under a property: it keeps it, or its reference result lists
it. -/
def Cites (elements : List Element) (r : Record) (property : ItemProperty)
    (document id : ElementId) : Prop :=
  r.Keeps (·.under property) document id ∨
    ∃ v, r.referenceResult = some v ∧ Listed elements v.id (some property) document id

/-- The record defines by a range: it keeps it, or its definition result lists it. -/
def Defines (elements : List Element) (r : Record) (document id : ElementId) : Prop :=
  r.Keeps (·.definitionRanges) document id ∨
    ∃ v, r.definitionResult = some v ∧ Listed elements v.id none document id

/-- The handles of a record were delivered, its result set is linked to its results and to no
others, and its partitions hold what they may. -/
structure Sound (elements : List Element) (r : Record) : Prop where
  resultSet : ∀ v, r.resultSet = some v → Delivered elements .resultSet v.id
  referenceResult : ∀ v, r.referenceResult = some v →
    v.label = .referenceResult ∧ Delivered elements .referenceResult v.id
  definitionResult : ∀ v, r.definitionResult = some v →
    v.label = .definitionResult ∧ Delivered elements .definitionResult v.id
  begun : r.resultSet = none → r.referenceResult = none ∧ r.definitionResult = none
  references : ∀ v, r.resultSet = some v → ∀ id,
    Linked elements .references v.id id ↔ ∃ u, r.referenceResult = some u ∧ u.id = id
  definition : ∀ v, r.resultSet = some v → ∀ id,
    Linked elements .definition v.id id ↔ ∃ u, r.definitionResult = some u ∧ u.id = id
  partitions : ∀ file p, r.partitions.get? file = some (.live p) → p.Sound elements

/-- Elements that say nothing about the results of this record. -/
structure Untouched (r : Record) (written : List Element) : Prop where
  linked : ∀ v, r.resultSet = some v → ∀ id,
    ¬ Linked written .references v.id id ∧ ¬ Linked written .definition v.id id
  cited : ∀ v, r.referenceResult = some v → ∀ property document id,
    ¬ Listed written v.id property document id
  defined : ∀ v, r.definitionResult = some v → ∀ property document id,
    ¬ Listed written v.id property document id

/-- Elements that only writing this record can have delivered. -/
structure Wrote (r : Record) (written : List Element) : Prop where
  tagged    : ∀ id tag, ¬ Tagged written id tag
  contained : ∀ source id, ¬ Contained written source id
  linked    : ∀ kind source target, Linked written kind source target →
    (kind = .references ∨ kind = .definition) ∧ ∃ v, r.resultSet = some v ∧ v.id = source
  listed    : ∀ source property document id, Listed written source property document id →
    (∃ v, r.referenceResult = some v ∧ v.id = source) ∨
      ∃ v, r.definitionResult = some v ∧ v.id = source

variable {elements written : List Element} {r r' : Record}

/-- A record stays sound as long as nothing more is linked to its result set as a result. -/
theorem Sound.append (h : r.Sound elements)
    (hu : ∀ v, r.resultSet = some v → ∀ id,
      ¬ Linked written .references v.id id ∧ ¬ Linked written .definition v.id id) :
    r.Sound (elements ++ written) where
  resultSet v hv := (h.resultSet v hv).mono (List.prefix_append _ _)
  referenceResult v hv :=
    ⟨(h.referenceResult v hv).1, (h.referenceResult v hv).2.mono (List.prefix_append _ _)⟩
  definitionResult v hv :=
    ⟨(h.definitionResult v hv).1, (h.definitionResult v hv).2.mono (List.prefix_append _ _)⟩
  begun := h.begun
  references v hv id := by
    rw [linked_append, or_iff_left (hu v hv id).1]
    exact h.references v hv id
  definition v hv id := by
    rw [linked_append, or_iff_left (hu v hv id).2]
    exact h.definition v hv id
  partitions file p hp := (h.partitions file p hp).mono (List.prefix_append _ _)

/-- A record that is untouched by new elements cites what it cited. -/
theorem cites_append (hu : r.Untouched written) {property : ItemProperty}
    {document id : ElementId} :
    r.Cites (elements ++ written) property document id ↔ r.Cites elements property document id := by
  unfold Cites
  refine or_congr_right (exists_congr fun v => and_congr_right fun hv => ?_)
  rw [listed_append, or_iff_left (hu.cited v hv _ _ _)]

/-- A record that is untouched by new elements defines what it defined. -/
theorem defines_append (hu : r.Untouched written) {document id : ElementId} :
    r.Defines (elements ++ written) document id ↔ r.Defines elements document id := by
  unfold Defines
  refine or_congr_right (exists_congr fun v => and_congr_right fun hv => ?_)
  rw [listed_append, or_iff_left (hu.defined v hv _ _ _)]

theorem Wrote.nil (r : Record) : r.Wrote [] where
  tagged _ _ := by simp [Tagged]
  contained _ _ := by simp [Contained]
  linked _ _ _ := by simp [Linked]
  listed _ _ _ _ := by simp [Listed]

/-- What a record wrote, it wrote together. -/
theorem Wrote.append {more : List Element} (h : r.Wrote written) (h' : r.Wrote more) :
    r.Wrote (written ++ more) where
  tagged id tag := by
    rw [tagged_append]
    exact fun ht => ht.elim (h.tagged id tag) (h'.tagged id tag)
  contained source id := by
    rw [contained_append]
    exact fun ht => ht.elim (h.contained source id) (h'.contained source id)
  linked kind source target := by
    rw [linked_append]
    exact fun hl => hl.elim (h.linked kind source target) (h'.linked kind source target)
  listed source property document id := by
    rw [listed_append]
    exact fun hl => hl.elim (h.listed source property document id)
      (h'.listed source property document id)

/-- A record that has grown wrote what it wrote before. -/
theorem Wrote.mono (hr : r.Grows elements r') (h : r.Wrote written) : r'.Wrote written where
  tagged := h.tagged
  contained := h.contained
  linked kind source target hl := by
    obtain ⟨hk, v, hv, hsource⟩ := h.linked kind source target hl
    exact ⟨hk, v, (hv ▸ hr.resultSet).eq_some, hsource⟩
  listed source property document id hl := by
    rcases h.listed source property document id hl with ⟨v, hv, hsource⟩ | ⟨v, hv, hsource⟩
    · exact .inl ⟨v, (hv ▸ hr.referenceResult).eq_some, hsource⟩
    · exact .inr ⟨v, (hv ▸ hr.definitionResult).eq_some, hsource⟩

end Record

end SymbolGraph
